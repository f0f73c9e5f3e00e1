import DataPipeline.Core.LockOrder
import DataPipeline.Manager.Log

/-!
# The mutexes of the queues

The calls `push`, `pop` and `manageBroadcast` of any number of threads, one acquisition or
release of a queue's mutex a step. What a thread does while it holds a mutex is part of
the step that releases it. Only `Q::copy` takes a mutex while it holds one, and it takes
those of output queues while it holds that of an input queue.
-/

namespace DataPipeline

open Function (update)
open Machine

/-- The mutexes of a manager. -/
inductive Mutex where
  | inQueue (i : Nat)
  | outQueue (j : Nat)
  deriving DecidableEq, Repr

/-- Input queues come before output queues. -/
def Mutex.rank : Mutex → Nat
  | .inQueue _ => 0
  | .outQueue _ => 1

theorem Mutex.rank_le (m : Mutex) : m.rank ≤ 1 := by
  cases m with
  | inQueue => exact Nat.zero_le 1
  | outQueue => exact Nat.le_refl 1

/-- One call of a thread. -/
inductive QueueCall (T : Type) where
  | push (data : T) (pushId : String)
  | pop (popId : String)
  | manageBroadcast
  deriving DecidableEq, Repr

/-- Where a thread stands. In the points that end in `Lock` it is about to acquire a mutex, in
those that end in `Hold` it holds one and is about to release it. -/
inductive Point (T : Type) where
  /-- Between two calls. -/
  | idle
  /-- `Q::push`. -/
  | pushLock (data : T) (id : Nat)
  | pushHold (data : T) (id : Nat)
  /-- `Q::empty` in `pop`. -/
  | emptyLock (id : Nat)
  | emptyHold (id : Nat)
  /-- `Q::move`. -/
  | moveLock (id : Nat)
  | moveHold (id : Nat)
  /-- The head of the loop of `manageBroadcast`, at input queue `i`. -/
  | visit (broadCastList : List Nat) (i : Nat)
  /-- `Q::empty` in `manageBroadcast`. -/
  | testLock (broadCastList : List Nat) (i : Nat)
  | testHold (broadCastList : List Nat) (i : Nat)
  /-- `Q::copy`, before it locks its source. -/
  | copyLock (broadCastList : List Nat) (i : Nat)
  /-- At the head of the loop of `Q::copy`, with `enableCopy` to go. -/
  | copyHold (broadCastList : List Nat) (i : Nat) (enableCopy : List Nat)
  /-- In the body of that loop, with the mutex of destination `id`. -/
  | destHold (broadCastList : List Nat) (i id : Nat) (enableCopy : List Nat)
  deriving DecidableEq, Repr

namespace Point

variable {T : Type}

/-- The mutexes a thread holds, the one it took last first. -/
def held : Point T → List Mutex
  | .pushHold _ id => [.inQueue id]
  | .emptyHold id => [.outQueue id]
  | .moveHold id => [.outQueue id]
  | .testHold _ i => [.inQueue i]
  | .copyHold _ i _ => [.inQueue i]
  | .destHold _ i id _ => [.outQueue id, .inQueue i]
  | _ => []

/-- The mutex a thread is about to acquire. -/
def wants : Point T → Option Mutex
  | .pushLock _ id => some (.inQueue id)
  | .emptyLock id => some (.outQueue id)
  | .moveLock id => some (.outQueue id)
  | .testLock _ i => some (.inQueue i)
  | .copyLock _ i => some (.inQueue i)
  | .copyHold _ _ (id :: _) => some (.outQueue id)
  | _ => none

/-- Every index a thread works with is an index of its vector, of the given length. -/
def InRange (nbIn nbOut : Nat) : Point T → Prop
  | .idle => True
  | .pushLock _ id => id < nbIn
  | .pushHold _ id => id < nbIn
  | .emptyLock id => id < nbOut
  | .emptyHold id => id < nbOut
  | .moveLock id => id < nbOut
  | .moveHold id => id < nbOut
  | .visit l _ => ∀ id ∈ l, id < nbOut
  | .testLock l i => i < nbIn ∧ ∀ id ∈ l, id < nbOut
  | .testHold l i => i < nbIn ∧ ∀ id ∈ l, id < nbOut
  | .copyLock l i => i < nbIn ∧ ∀ id ∈ l, id < nbOut
  | .copyHold l i e => i < nbIn ∧ (∀ id ∈ l, id < nbOut) ∧ ∀ id ∈ e, id < nbOut
  | .destHold l i id e => i < nbIn ∧ id < nbOut ∧ (∀ id ∈ l, id < nbOut) ∧ ∀ id ∈ e, id < nbOut

/-- A thread waits only for a mutex that comes after the ones it holds. -/
theorem rank_lt_of_wants {p : Point T} {m k : Mutex} (hm : p.wants = some m) (hk : k ∈ p.held) :
    k.rank < m.rank := by
  cases p with
  | copyHold l i e =>
    cases e with
    | nil => cases hm
    | cons id e =>
      cases hm
      obtain rfl := List.mem_singleton.mp hk
      exact Nat.zero_lt_one
  | pushLock | emptyLock | moveLock | testLock | copyLock => exact absurd hk List.not_mem_nil
  | idle | pushHold | emptyHold | moveHold | visit | testHold | destHold => cases hm

theorem held_nodup (p : Point T) : p.held.Nodup := by
  cases p with
  | destHold => simp [Point.held]
  | pushHold | emptyHold | moveHold | testHold | copyHold => exact List.nodup_singleton _
  | idle | pushLock | emptyLock | moveLock | visit | testLock | copyLock => exact List.nodup_nil

end Point

/-- A manager with the mutexes of its queues and the threads that call it. -/
structure Locked (θ T : Type) where
  manager : DataManager T
  owner : Mutex → Option θ
  point : θ → Point T
  /-- The calls each thread has still to make. -/
  calls : θ → List (QueueCall T)
  /-- The vector each thread passes to `pop`. -/
  data : θ → List T
  /-- What the last `pop` of each thread returned. -/
  result : θ → Option Bool

namespace Locked

variable {θ T : Type}

/-- Nobody has started. -/
def start (dm : DataManager T) (calls : θ → List (QueueCall T)) : Locked θ T where
  manager := dm
  owner := fun _ => none
  point := fun _ => .idle
  calls := calls
  data := fun _ => []
  result := fun _ => none

/-- The thread is inside a call or has one to make. -/
def Unfinished (s : Locked θ T) (t : θ) : Prop := s.point t ≠ .idle ∨ s.calls t ≠ []

/-- The thread cannot go on before another one releases a mutex. -/
def Blocked (s : Locked θ T) (t : θ) : Prop := ∃ m, (s.point t).wants = some m ∧ s.owner m ≠ none

/-- The queue that a mutex belongs to. -/
def queue (s : Locked θ T) : Mutex → Option (Q T)
  | .inQueue i => s.manager.inQueues[i]?
  | .outQueue j => s.manager.outQueues[j]?

/-- The queue of a mutex is given new contents. -/
def setQueue (s : Locked θ T) (m : Mutex) (q : Q T) : Locked θ T :=
  match m with
  | .inQueue i => { s with manager := { s.manager with inQueues := s.manager.inQueues.set i q } }
  | .outQueue j => { s with manager := { s.manager with outQueues := s.manager.outQueues.set j q } }

/-- Two managers with the same maps and as many queues. -/
structure SameShape (a b : DataManager T) : Prop where
  inIds : b.inQueuesIds = a.inQueuesIds
  outIds : b.outQueuesIds = a.outQueuesIds
  inLength : b.inQueues.length = a.inQueues.length
  outLength : b.outQueues.length = a.outQueues.length

theorem SameShape.refl (a : DataManager T) : SameShape a a := ⟨rfl, rfl, rfl, rfl⟩

theorem sameShape_setQueue (s : Locked θ T) (m : Mutex) (q : Q T) :
    SameShape s.manager (s.setQueue m q).manager := by
  cases m with
  | inQueue i => exact ⟨rfl, rfl, List.length_set, rfl⟩
  | outQueue j => exact ⟨rfl, rfl, rfl, List.length_set⟩

theorem setQueue_owner (s : Locked θ T) (m : Mutex) (q : Q T) :
    (s.setQueue m q).owner = s.owner ∧ (s.setQueue m q).point = s.point := by
  cases m <;> exact ⟨rfl, rfl⟩

variable [DecidableEq θ]

/-- Thread `t` goes on at `p`. -/
def goto (s : Locked θ T) (t : θ) (p : Point T) : Locked θ T :=
  { s with point := update s.point t p }

/-- Thread `t` acquires `m` and goes on at `p`. -/
def lock (s : Locked θ T) (t : θ) (m : Mutex) (p : Point T) : Option (Locked θ T) :=
  if s.owner m = none ∧ (s.queue m).isSome then
    some { s.goto t p with owner := update s.owner m (some t) }
  else none

/-- Thread `t` releases `m` and goes on at `p`. -/
def unlock (s : Locked θ T) (t : θ) (m : Mutex) (p : Point T) : Locked θ T :=
  { s.goto t p with owner := update s.owner m none }

/-- Thread `t` starts a call. -/
def enter (s : Locked θ T) (t : θ) : QueueCall T → Locked θ T
  | .push data pushId =>
    match s.manager.inQueuesIds.lookup pushId with
    | none => s.goto t .idle
    | some id => s.goto t (.pushLock data id)
  | .pop popId =>
    match s.manager.outQueuesIds.lookup popId with
    | none => { s.goto t .idle with result := update s.result t (some false) }
    | some id => s.goto t (.emptyLock id)
  | .manageBroadcast => s.goto t (.visit (List.range s.manager.outQueues.length) 0)

/-- The next step of thread `t`, or `none` if it has none to take or must wait. -/
def step : Machine (Locked θ T) θ
  | s, t =>
    match s.point t with
    | .idle =>
      match s.calls t with
      | [] => none
      | call :: rest => some ({ s with calls := update s.calls t rest }.enter t call)
    | .pushLock data id => s.lock t (.inQueue id) (.pushHold data id)
    | .pushHold data id =>
      (s.queue (.inQueue id)).map fun q =>
        (s.setQueue (.inQueue id) (q.push data)).unlock t (.inQueue id) .idle
    | .emptyLock id => s.lock t (.outQueue id) (.emptyHold id)
    | .emptyHold id =>
      (s.queue (.outQueue id)).map fun q =>
        if q.empty then
          { s.unlock t (.outQueue id) .idle with result := update s.result t (some false) }
        else s.unlock t (.outQueue id) (.moveLock id)
    | .moveLock id => s.lock t (.outQueue id) (.moveHold id)
    | .moveHold id =>
      (s.queue (.outQueue id)).map fun q =>
        let (q', data') := q.move (s.data t)
        { (s.setQueue (.outQueue id) q').unlock t (.outQueue id) .idle with
          data := update s.data t data'
          result := update s.result t (some true) }
    | .visit broadCastList i =>
      match s.manager.inQueues[i]? with
      | none => some (s.goto t .idle)
      | some _ => some (s.goto t (.testLock broadCastList i))
    | .testLock broadCastList i => s.lock t (.inQueue i) (.testHold broadCastList i)
    | .testHold broadCastList i =>
      (s.queue (.inQueue i)).map fun it =>
        if !it.empty && decide (broadCastList.length > 0) then
          s.unlock t (.inQueue i) (.copyLock broadCastList i)
        else s.unlock t (.inQueue i) (.visit broadCastList (i + 1))
    | .copyLock broadCastList i =>
      s.lock t (.inQueue i) (.copyHold broadCastList i broadCastList)
    | .copyHold broadCastList i [] =>
      (s.queue (.inQueue i)).map fun _ =>
        (s.setQueue (.inQueue i) ⟨[]⟩).unlock t (.inQueue i) (.visit broadCastList (i + 1))
    | .copyHold broadCastList i (id :: enableCopy) =>
      s.lock t (.outQueue id) (.destHold broadCastList i id enableCopy)
    | .destHold broadCastList i id enableCopy => do
      let it ← s.queue (.inQueue i)
      let other ← s.queue (.outQueue id)
      some ((s.setQueue (.outQueue id) (it.copyTo other)).unlock t (.outQueue id)
        (.copyHold broadCastList i enableCopy))

/-! ### What one step does -/

/-- What a step does with the mutexes: nothing, acquire one or release the one acquired last. -/
def Handles (s s' : Locked θ T) (t : θ) (p : Point T) : Prop :=
  (s'.owner = s.owner ∧ p.held = (s.point t).held) ∨
    (∃ m, s.owner m = none ∧ s'.owner = update s.owner m (some t) ∧
      p.held = m :: (s.point t).held) ∨
    ∃ m, s'.owner = update s.owner m none ∧ (s.point t).held = m :: p.held

/-- What a step of a thread does: the thread goes on at `p`. -/
structure Moves (s s' : Locked θ T) (t : θ) (p : Point T) : Prop where
  point : s'.point = update s.point t p
  shape : SameShape s.manager s'.manager
  handles : Handles s s' t p

variable {s s' : Locked θ T} {t : θ} {a p : Point T}

theorem moves_goto (ha : s.point t = a) (hp : p.held = a.held) : Moves s (s.goto t p) t p :=
  ⟨rfl, SameShape.refl _, Or.inl ⟨rfl, ha ▸ hp⟩⟩

theorem moves_lock {m : Mutex} (ha : s.point t = a) (h : s.lock t m p = some s')
    (hp : p.held = m :: a.held) : Moves s s' t p := by
  simp only [lock, Option.ite_none_right_eq_some, Option.some.injEq] at h
  obtain ⟨⟨hm, _⟩, rfl⟩ := h
  exact ⟨rfl, SameShape.refl _, Or.inr (Or.inl ⟨m, hm, rfl, ha ▸ hp⟩)⟩

theorem moves_unlock {m : Mutex} (ha : s.point t = a) (hp : a.held = m :: p.held) :
    Moves s (s.unlock t m p) t p :=
  ⟨rfl, SameShape.refl _, Or.inr (Or.inr ⟨m, rfl, ha ▸ hp⟩)⟩

/-- The same with a change of a queue before. -/
theorem moves_setQueue_unlock {m : Mutex} (n : Mutex) (q : Q T) (ha : s.point t = a)
    (hp : a.held = m :: p.held) : Moves s ((s.setQueue n q).unlock t m p) t p := by
  obtain ⟨howner, hpoint⟩ := s.setQueue_owner n q
  refine ⟨?_, sameShape_setQueue s n q, Or.inr (Or.inr ⟨m, ?_, ha ▸ hp⟩)⟩
  · exact congrArg (update · t p) hpoint
  · exact congrArg (update · m none) howner

/-- What a thread still has to call plays no part in a move, nor what `pop` gives back. -/
theorem Moves.congr {u u' : Locked θ T} (h : Moves u u' t p) (hs : s.point = u.point)
    (hm : s.manager = u.manager) (ho : s.owner = u.owner) (hs' : s'.point = u'.point)
    (hm' : s'.manager = u'.manager) (ho' : s'.owner = u'.owner) : Moves s s' t p := by
  obtain ⟨hpoint, hshape, hhandles⟩ := h
  refine ⟨?_, ?_, ?_⟩
  · rw [hs', hs, hpoint]
  · rw [hm, hm']
    exact hshape
  · unfold Handles at hhandles ⊢
    rw [ho, ho', hs]
    exact hhandles

/-- The indices of a manager that the points of its threads may use. -/
def PointsIn (dm : DataManager T) (p : Point T) : Prop :=
  p.InRange dm.inQueues.length dm.outQueues.length

/-- Every step of a thread moves it to a point in range. -/
theorem step_moves (hm : s.manager.InRange) (hin : PointsIn s.manager (s.point t))
    (h : step s t = some s') : ∃ p, PointsIn s.manager p ∧ Moves s s' t p := by
  cases hp : s.point t with
  | idle =>
    simp only [step, hp] at h
    split at h
    · contradiction
    · rename_i call rest _
      obtain rfl := Option.some.inj h
      -- a thread between two calls holds nothing, and neither does it at the first point of one
      have hgoto : ∀ {p : Point T}, p.held = [] → Moves s (s.goto t p) t p := fun h =>
        moves_goto hp h
      cases call with
      | push data pushId =>
        simp only [enter]
        cases hl : s.manager.inQueuesIds.lookup pushId with
        | none => exact ⟨.idle, trivial, (hgoto rfl).congr rfl rfl rfl rfl rfl rfl⟩
        | some id =>
          exact ⟨.pushLock data id, hm.inBelow pushId id hl,
            (hgoto rfl).congr rfl rfl rfl rfl rfl rfl⟩
      | pop popId =>
        simp only [enter]
        cases hl : s.manager.outQueuesIds.lookup popId with
        | none => exact ⟨.idle, trivial, (hgoto rfl).congr rfl rfl rfl rfl rfl rfl⟩
        | some id =>
          exact ⟨.emptyLock id, hm.outBelow popId id hl,
            (hgoto rfl).congr rfl rfl rfl rfl rfl rfl⟩
      | manageBroadcast =>
        exact ⟨.visit (List.range s.manager.outQueues.length) 0,
          fun id hid => List.mem_range.mp hid, (hgoto rfl).congr rfl rfl rfl rfl rfl rfl⟩
  | pushLock data id =>
    rw [hp] at hin
    simp only [step, hp] at h
    exact ⟨.pushHold data id, hin, moves_lock hp h rfl⟩
  | pushHold data id =>
    simp only [step, hp, Option.map_eq_some_iff] at h
    obtain ⟨q, _, rfl⟩ := h
    exact ⟨.idle, trivial, moves_setQueue_unlock _ _ hp rfl⟩
  | emptyLock id =>
    rw [hp] at hin
    simp only [step, hp] at h
    exact ⟨.emptyHold id, hin, moves_lock hp h rfl⟩
  | emptyHold id =>
    rw [hp] at hin
    simp only [step, hp, Option.map_eq_some_iff] at h
    obtain ⟨q, _, rfl⟩ := h
    split
    · exact ⟨.idle, trivial, (moves_unlock hp rfl).congr rfl rfl rfl rfl rfl rfl⟩
    · exact ⟨.moveLock id, hin, moves_unlock hp rfl⟩
  | moveLock id =>
    rw [hp] at hin
    simp only [step, hp] at h
    exact ⟨.moveHold id, hin, moves_lock hp h rfl⟩
  | moveHold id =>
    simp only [step, hp, Option.map_eq_some_iff] at h
    obtain ⟨q, _, rfl⟩ := h
    exact ⟨.idle, trivial,
      (moves_setQueue_unlock _ _ hp rfl).congr rfl rfl rfl rfl rfl rfl⟩
  | visit l i =>
    rw [hp] at hin
    simp only [step, hp] at h
    split at h <;> obtain rfl := Option.some.inj h
    · exact ⟨.idle, trivial, moves_goto hp rfl⟩
    · rename_i hi
      exact ⟨.testLock l i, ⟨(List.getElem?_eq_some_iff.mp hi).1, hin⟩,
        moves_goto hp rfl⟩
  | testLock l i =>
    rw [hp] at hin
    simp only [step, hp] at h
    exact ⟨.testHold l i, hin, moves_lock hp h rfl⟩
  | testHold l i =>
    rw [hp] at hin
    simp only [step, hp, Option.map_eq_some_iff] at h
    obtain ⟨q, _, rfl⟩ := h
    split
    · exact ⟨.copyLock l i, hin, moves_unlock hp rfl⟩
    · exact ⟨.visit l (i + 1), hin.2, moves_unlock hp rfl⟩
  | copyLock l i =>
    rw [hp] at hin
    simp only [step, hp] at h
    exact ⟨.copyHold l i l, ⟨hin.1, hin.2, hin.2⟩, moves_lock hp h rfl⟩
  | copyHold l i e =>
    rw [hp] at hin
    cases e with
    | nil =>
      simp only [step, hp, Option.map_eq_some_iff] at h
      obtain ⟨q, _, rfl⟩ := h
      exact ⟨.visit l (i + 1), hin.2.1, moves_setQueue_unlock _ _ hp rfl⟩
    | cons id e =>
      simp only [step, hp] at h
      have hid := List.forall_mem_cons.mp hin.2.2
      exact ⟨.destHold l i id e, ⟨hin.1, hid.1, hin.2.1, hid.2⟩,
        moves_lock hp h rfl⟩
  | destHold l i id e =>
    rw [hp] at hin
    simp only [step, hp, Option.bind_eq_bind, Option.bind_eq_some_iff, Option.some.injEq] at h
    obtain ⟨it, _, other, _, rfl⟩ := h
    exact ⟨.copyHold l i e, ⟨hin.1, hin.2.2.1, hin.2.2.2⟩,
      moves_setQueue_unlock _ _ hp rfl⟩

/-! ### Every run is sound -/

/-- The mutexes know their owners, and all indices are in range. -/
structure Sound (s : Locked θ T) : Prop where
  owned : LockOrder.Owned s.owner fun t => (s.point t).held
  range : s.manager.InRange
  points : ∀ t, PointsIn s.manager (s.point t)

omit [DecidableEq θ] in
theorem sound_start {dm : DataManager T} (hdm : dm.InRange) (calls : θ → List (QueueCall T)) :
    Sound (start dm calls) where
  owned := LockOrder.owned_start
  range := hdm
  points := fun _ => trivial

theorem SameShape.inRange {dm dm' : DataManager T} (h : SameShape dm dm') (hdm : dm.InRange) :
    dm'.InRange := by
  obtain ⟨hin, hout, hinl, houtl⟩ := h
  constructor
  · rw [hin, hinl]
    exact hdm.inBelow
  · rw [hin, hinl]
    exact hdm.inSize
  · rw [hout, houtl]
    exact hdm.outBelow
  · rw [hout, houtl]
    exact hdm.outSize

/-- Every step of a thread leaves the mutexes sound. -/
theorem Sound.move (hs : s.Sound) (h : step s t = some s') : s'.Sound := by
  obtain ⟨p, hp, hpoint, hshape, hhandles⟩ := step_moves hs.range (hs.points t) h
  have hheld : (fun u => (s'.point u).held) =
      update (fun u => (s.point u).held) t p.held := by
    ext1 u
    rw [hpoint]
    by_cases hu : u = t
    · subst u
      rw [Function.update_self, Function.update_self]
    · rw [Function.update_of_ne hu, Function.update_of_ne hu]
  refine ⟨?_, hshape.inRange hs.range, ?_⟩
  · rw [hheld]
    rcases hhandles with ⟨ho, hl⟩ | ⟨m, hm, ho, hl⟩ | ⟨m, ho, hl⟩ <;> rw [ho]
    · exact hs.owned.keep hl
    · exact hs.owned.acquire hm hl
    · have hnodup := (s.point t).held_nodup
      rw [hl] at hnodup
      exact hs.owned.release hl (List.nodup_cons.mp hnodup).1
  · intro u
    unfold PointsIn
    rw [hshape.inLength, hshape.outLength, hpoint]
    by_cases hu : u = t
    · subst u
      rw [Function.update_self]
      exact hp
    · rw [Function.update_of_ne hu]
      exact hs.points u

theorem run_sound {dm : DataManager T} (hdm : dm.InRange) {calls : θ → List (QueueCall T)}
    {acts : List θ} (h : run step (start dm calls) acts = some s) : s.Sound :=
  run_invariant (fun _ _ _ hu hst => hu.move hst) (sound_start hdm calls) h

/-! ### Somebody can always go on -/

/-- Who waits for no mutex or for a free one can take a step. -/
theorem Sound.enabled (hs : s.Sound) (ht : s.Unfinished t)
    (hfree : ∀ m, (s.point t).wants = some m → s.owner m = none) : (step s t).isSome := by
  have hin := hs.points t
  have hqueue : ∀ {i}, i < s.manager.inQueues.length → (s.queue (.inQueue i)).isSome :=
    fun hi => by rw [queue, List.getElem?_eq_getElem hi]; rfl
  have hdest : ∀ {j}, j < s.manager.outQueues.length → (s.queue (.outQueue j)).isSome :=
    fun hj => by rw [queue, List.getElem?_eq_getElem hj]; rfl
  have hlock : ∀ {m p}, (s.point t).wants = some m → (s.queue m).isSome →
      (s.lock t m p).isSome := fun hm hq => by
    rw [lock, if_pos ⟨hfree _ hm, hq⟩]
    rfl
  cases hp : s.point t with
  | idle =>
    have hcalls := ht.resolve_left fun hne => hne hp
    simp only [step, hp]
    cases hc : s.calls t with
    | nil => exact absurd hc hcalls
    | cons call rest => rfl
  | pushLock data id | testLock l i | copyLock l i =>
    rw [hp] at hin hlock
    simp only [step, hp]
    apply hlock rfl
    first | exact hqueue hin | exact hqueue hin.1
  | emptyLock id | moveLock id =>
    rw [hp] at hin hlock
    simp only [step, hp]
    exact hlock rfl (hdest hin)
  | pushHold data id =>
    rw [hp] at hin
    simp only [step, hp, Option.isSome_map, hqueue hin]
  | emptyHold id | moveHold id =>
    rw [hp] at hin
    simp only [step, hp, Option.isSome_map, hdest hin]
  | visit l i =>
    simp only [step, hp]
    split <;> rfl
  | testHold l i =>
    rw [hp] at hin
    simp only [step, hp, Option.isSome_map, hqueue hin.1]
  | copyHold l i e =>
    rw [hp] at hin hlock
    cases e with
    | nil => simp only [step, hp, Option.isSome_map, hqueue hin.1]
    | cons id e =>
      simp only [step, hp]
      exact hlock rfl (hdest (hin.2.2 id (List.mem_cons_self ..)))
  | destHold l i id e =>
    rw [hp] at hin
    obtain ⟨it, hit⟩ := Option.isSome_iff_exists.mp (hqueue hin.1)
    obtain ⟨other, hother⟩ := Option.isSome_iff_exists.mp (hdest hin.2.1)
    simp only [step, hp, hit, hother, Option.bind_eq_bind, Option.bind_some, Option.isSome_some]

omit [DecidableEq θ] in
/-- Who holds a mutex is inside a call. -/
theorem unfinished_of_held {m : Mutex} (h : m ∈ (s.point t).held) : s.Unfinished t := by
  apply Or.inl
  intro hidle
  rw [hidle] at h
  exact absurd h List.not_mem_nil

/-- While a thread is unfinished, some unfinished thread is not blocked. -/
theorem Sound.progress (hs : s.Sound) (ht : s.Unfinished t) :
    ∃ u, s.Unfinished u ∧ ¬ s.Blocked u ∧ (step s u).isSome := by
  have hrank : ∀ u m, (s.point u).wants = some m → ∀ k ∈ (s.point u).held, k.rank < m.rank :=
    fun _ _ hm _ hk => Point.rank_lt_of_wants hm hk
  obtain ⟨u, hu, hfree⟩ := LockOrder.exists_unblocked hs.owned Mutex.rank_le hrank
    (fun _ _ => unfinished_of_held) ht
  refine ⟨u, hu, ?_, hs.enabled hu hfree⟩
  rintro ⟨m, hm, hne⟩
  exact hne (hfree m hm)

/-- Threads that make any calls on any manager do not deadlock on the mutexes of its queues: in
every state they reach, if one of them is unfinished, one that is unfinished can go on. -/
theorem deadlock_free {conf : DataManagerConf} {ops : List (DataManager.Op T)}
    {dm : DataManager T} (hdm : run DataManager.step (DataManager.new conf) ops = some dm)
    {calls : θ → List (QueueCall T)} {acts : List θ} {s : Locked θ T}
    (h : run step (start dm calls) acts = some s) (hne : ∃ t, s.Unfinished t) :
    ∃ u, s.Unfinished u ∧ ¬ s.Blocked u ∧ (step s u).isSome := by
  obtain ⟨t, ht⟩ := hne
  obtain ⟨u, hu, hrange⟩ := DataManager.run_inRange conf ops
  obtain rfl := Option.some.inj (hu.symm.trans hdm)
  exact (run_sound hrange h).progress ht

/-- A pass holds the input queue and waits for the output queue that a `pop` holds, while a
feeder waits for the input queue. -/
def threeCalls : Nat → List (QueueCall String)
  | 0 => [.manageBroadcast]
  | 1 => [.pop "c"]
  | 2 => [.push "n" "f"]
  | _ => []

theorem deadlock_free_three_calls :
    ∃ dm s, run DataManager.step (DataManager.new ⟨"dm", 8, 8, .BROADCAST⟩)
        [.setFeeder "f", .setConsumer "c", .push "m" "f"] = some dm ∧
      run step (start dm threeCalls) [0, 0, 0, 0, 0, 1, 1, 2] = some s ∧
      s.Blocked 0 ∧ s.Blocked 2 ∧ ∃ u, s.Unfinished u ∧ ¬ s.Blocked u ∧ (step s u).isSome := by
  obtain ⟨dm, hdm⟩ : ∃ dm, run DataManager.step (DataManager.new ⟨"dm", 8, 8, .BROADCAST⟩)
      [.setFeeder "f", .setConsumer "c", .push "m" "f"] = some dm := ⟨_, rfl⟩
  obtain ⟨s, hs, h0, h2, h1⟩ : ∃ s, run step (start dm threeCalls) [0, 0, 0, 0, 0, 1, 1, 2] =
      some s ∧ s.Blocked 0 ∧ s.Blocked 2 ∧ s.Unfinished 1 := by
    cases hdm
    exact ⟨_, rfl, ⟨.outQueue 0, rfl, nofun⟩, ⟨.inQueue 0, rfl, nofun⟩, Or.inl nofun⟩
  exact ⟨dm, s, hdm, hs, h0, h2, deadlock_free hdm hs ⟨1, h1⟩⟩

end Locked

end DataPipeline
