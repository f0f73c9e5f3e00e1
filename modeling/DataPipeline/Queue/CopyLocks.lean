import DataPipeline.Core.LockOrder
import DataPipeline.Core.Machine
import DataPipeline.Core.WaitCycle
import DataPipeline.Manager.Queue

/-!
# Copying between queues

Any number of `Q` objects and of threads that call `push`, `empty`, `move` and the two
`copy`, one acquisition or release of a mutex a step. Every one of these functions holds the
mutex of its own queue from its first action to its last. In between the two `copy` take the
mutexes of their destinations, one at a time and in the order they are given. There is no
order among the queues, so threads that copy in a circle can end up waiting in a circle.
-/

namespace DataPipeline

open Function (update)
open Machine

/-- A call of a member function of the queue `q`. -/
inductive MemberCall (κ T : Type) where
  | push (q : κ) (data : T)
  | empty (q : κ)
  | move (q : κ)
  /-- `Q::copy(Q &other)`. -/
  | copy (q other : κ)
  /-- `Q::copy(std::vector<Q> &others, std::list<int> enableCopy)`. -/
  | copyAll (q : κ) (others : List κ) (enableCopy : List (Fin others.length))

namespace MemberCall

variable {κ T : Type}

/-- The queue that the function is called on. -/
def self : MemberCall κ T → κ
  | .push q _ => q
  | .empty q => q
  | .move q => q
  | .copy q _ => q
  | .copyAll q _ _ => q

/-- The queues whose mutexes the function takes while it holds that of its own, in order. -/
def destinations : MemberCall κ T → List κ
  | .copy _ other => [other]
  | .copyAll _ others enableCopy => enableCopy.map others.get
  | _ => []

/-- The queue is not its own destination. -/
def Proper (c : MemberCall κ T) : Prop := c.self ∉ c.destinations

instance [DecidableEq κ] (c : MemberCall κ T) : Decidable c.Proper :=
  inferInstanceAs (Decidable (c.self ∉ c.destinations))

end MemberCall

/-- Where a thread stands. -/
inductive CallPlace (κ T : Type) where
  /-- Between two calls. -/
  | outside
  /-- Before the mutex of the queue itself. -/
  | entering (c : MemberCall κ T)
  /-- With that mutex, and destinations still to copy to. -/
  | holding (c : MemberCall κ T) (rest : List κ)
  /-- In the body of the loop, with the mutex of destination `d` too. -/
  | copying (c : MemberCall κ T) (d : κ) (rest : List κ)

namespace CallPlace

variable {κ T : Type}

/-- The call that the thread is in. -/
def call : CallPlace κ T → Option (MemberCall κ T)
  | .outside => none
  | .entering c => some c
  | .holding c _ => some c
  | .copying c _ _ => some c

/-- The mutexes the thread holds, the one it took last first. -/
def held : CallPlace κ T → List κ
  | .outside => []
  | .entering _ => []
  | .holding c _ => [c.self]
  | .copying c d _ => [d, c.self]

/-- The mutex the thread is about to acquire. -/
def wants : CallPlace κ T → Option κ
  | .entering c => some c.self
  | .holding _ (d :: _) => some d
  | _ => none

/-- The mutex the thread is about to release. -/
def gives : CallPlace κ T → Option κ
  | .holding c [] => some c.self
  | .copying _ d _ => some d
  | _ => none

/-- Where the thread stands after it has acquired or released that mutex. -/
def next : CallPlace κ T → CallPlace κ T
  | .outside => .outside
  | .entering c => .holding c c.destinations
  | .holding _ [] => .outside
  | .holding c (d :: rest) => .copying c d rest
  | .copying c _ rest => .holding c rest

/-- What is left to copy to are destinations of the call. -/
def Sound : CallPlace κ T → Prop
  | .holding c rest => ∀ d ∈ rest, d ∈ c.destinations
  | .copying c d rest => d ∈ c.destinations ∧ ∀ d ∈ rest, d ∈ c.destinations
  | _ => True

theorem held_next_of_wants {p : CallPlace κ T} {m : κ} (h : p.wants = some m) :
    p.next.held = m :: p.held := by
  cases p with
  | outside | copying => cases h
  | entering c =>
    cases h
    rfl
  | holding c rest =>
    cases rest with
    | nil => cases h
    | cons d rest =>
      cases h
      rfl

theorem held_of_gives {p : CallPlace κ T} {m : κ} (h : p.gives = some m) :
    p.held = m :: p.next.held := by
  cases p with
  | outside | entering => cases h
  | holding c rest =>
    cases rest with
    | nil =>
      cases h
      rfl
    | cons d rest => cases h
  | copying c d rest =>
    cases h
    rfl

/-- A mutex that is given back is not held a second time. -/
theorem notMem_held_next {p : CallPlace κ T} {m : κ} (h : p.gives = some m) (hs : p.Sound)
    (hproper : ∀ c ∈ p.call, c.Proper) : m ∉ p.next.held := by
  cases p with
  | outside | entering => cases h
  | holding c rest =>
    cases rest with
    | nil => exact List.not_mem_nil
    | cons d rest => cases h
  | copying c d rest =>
    cases h
    intro hm
    obtain rfl := List.mem_singleton.mp hm
    exact hproper c rfl hs.1

theorem next_sound {p : CallPlace κ T} (hs : p.Sound) : p.next.Sound := by
  cases p with
  | outside => trivial
  | entering c => exact fun _ hd => hd
  | holding c rest =>
    cases rest with
    | nil => trivial
    | cons d rest => exact List.forall_mem_cons.mp hs
  | copying c d rest => exact hs.2

theorem call_next {p : CallPlace κ T} {c : MemberCall κ T} (h : c ∈ p.next.call) : c ∈ p.call := by
  cases p with
  | outside | entering | copying => exact h
  | holding c' rest =>
    cases rest with
    | nil => cases h
    | cons d rest => exact h

end CallPlace

/-- The queues with their mutexes, and the threads. -/
structure Copying (θ κ T : Type) where
  queues : κ → Q T
  owner : κ → Option θ
  place : θ → CallPlace κ T
  /-- The calls each thread has still to make. -/
  calls : θ → List (MemberCall κ T)
  /-- The vector each thread passes to `move`. -/
  data : θ → List T
  /-- What the last `empty` of each thread returned. -/
  result : θ → Option Bool

namespace Copying

variable {θ κ T : Type}

/-- Nobody has started. -/
def start (queues : κ → Q T) (calls : θ → List (MemberCall κ T)) : Copying θ κ T where
  queues := queues
  owner := fun _ => none
  place := fun _ => .outside
  calls := calls
  data := fun _ => []
  result := fun _ => none

/-- Thread `t` waits for a mutex that thread `u` holds. -/
def WaitsFor (s : Copying θ κ T) (t u : θ) : Prop :=
  ∃ m, (s.place t).wants = some m ∧ s.owner m = some u

/-- Each call whose destinations include the queue of the next one, where some threads make one
call each. -/
def Feeds (pick : θ → Option (MemberCall κ T)) (t u : θ) : Prop :=
  ∃ c d, pick t = some c ∧ pick u = some d ∧ d.self ∈ c.destinations

/-- One call for each of some threads can be picked such that they copy in a circle. -/
def Circular (calls : θ → List (MemberCall κ T)) : Prop :=
  ∃ pick : θ → Option (MemberCall κ T), (∀ t, ∀ c ∈ pick t, c ∈ calls t) ∧ Cyclic (Feeds pick)

/-- The mutexes know their owners, and the threads make the calls they were given. -/
structure Invariant (calls : θ → List (MemberCall κ T)) (s : Copying θ κ T) : Prop where
  owned : LockOrder.Owned s.owner fun t => (s.place t).held
  sound : ∀ t, (s.place t).Sound
  current : ∀ t, ∀ c ∈ (s.place t).call, c ∈ calls t
  left : ∀ t, ∀ c ∈ s.calls t, c ∈ calls t

theorem invariant_start (queues : κ → Q T) (calls : θ → List (MemberCall κ T)) :
    Invariant calls (start queues calls) where
  owned := LockOrder.owned_start
  sound := fun _ => trivial
  current := fun _ c hc => by cases hc
  left := fun _ _ hc => hc

variable [DecidableEq θ] [DecidableEq κ]

/-- Thread `t` goes on at `p`. -/
def goto (s : Copying θ κ T) (t : θ) (p : CallPlace κ T) : Copying θ κ T :=
  { s with place := update s.place t p }

/-- Thread `t` acquires `m` and goes on at `p`. -/
def lock (s : Copying θ κ T) (t : θ) (m : κ) (p : CallPlace κ T) : Option (Copying θ κ T) :=
  if s.owner m = none then some { s.goto t p with owner := update s.owner m (some t) } else none

/-- Thread `t` releases `m` and goes on at `p`. -/
def unlock (s : Copying θ κ T) (t : θ) (m : κ) (p : CallPlace κ T) : Copying θ κ T :=
  { s.goto t p with owner := update s.owner m none }

/-- What a function does with its own queue before it returns: all it does, but for copying. -/
def finish (s : Copying θ κ T) (t : θ) : MemberCall κ T → Copying θ κ T
  | .push q data => { s with queues := update s.queues q ((s.queues q).push data) }
  | .empty q => { s with result := update s.result t (some (s.queues q).empty) }
  | .move q =>
    let (q', data') := (s.queues q).move (s.data t)
    { s with queues := update s.queues q q', data := update s.data t data' }
  | .copy _ _ => s
  | .copyAll q _ _ => { s with queues := update s.queues q ⟨[]⟩ }

/-- The next step of thread `t`, or `none` if it has none to take or must wait. -/
def step : Machine (Copying θ κ T) θ
  | s, t =>
    match s.place t with
    | .outside =>
      match s.calls t with
      | [] => none
      | c :: rest => some ({ s with calls := update s.calls t rest }.goto t (.entering c))
    | .entering c => s.lock t c.self (.holding c c.destinations)
    | .holding c [] => some ((s.finish t c).unlock t c.self .outside)
    | .holding c (d :: rest) => s.lock t d (.copying c d rest)
    | .copying c d rest =>
      some ({ s with queues := update s.queues d ((s.queues c.self).copyTo (s.queues d)) }.unlock
        t d (.holding c rest))

/-! ### What one step does -/

/-- What a step does with the mutexes and the calls. -/
inductive Moves (s s' : Copying θ κ T) (t : θ) : Prop where
  | begins {c rest} (hp : s.place t = .outside) (hc : s.calls t = c :: rest)
      (howner : s'.owner = s.owner) (hplace : s'.place = update s.place t (.entering c))
      (hcalls : s'.calls = update s.calls t rest)
  | acquires {m} (hm : (s.place t).wants = some m) (hfree : s.owner m = none)
      (howner : s'.owner = update s.owner m (some t))
      (hplace : s'.place = update s.place t (s.place t).next) (hcalls : s'.calls = s.calls)
  | releases {m} (hm : (s.place t).gives = some m) (howner : s'.owner = update s.owner m none)
      (hplace : s'.place = update s.place t (s.place t).next) (hcalls : s'.calls = s.calls)

theorem finish_frame (s : Copying θ κ T) (t : θ) (c : MemberCall κ T) :
    (s.finish t c).owner = s.owner ∧ (s.finish t c).place = s.place ∧
      (s.finish t c).calls = s.calls := by
  cases c <;> exact ⟨rfl, rfl, rfl⟩

theorem step_moves {s s' : Copying θ κ T} {t : θ} (h : step s t = some s') : Moves s s' t := by
  have hlock : ∀ {m p}, s.lock t m p = some s' → (s.place t).wants = some m →
      (s.place t).next = p → Moves s s' t := by
    intro m p hl hm hp
    simp only [lock, Option.ite_none_right_eq_some, Option.some.injEq] at hl
    obtain ⟨hfree, rfl⟩ := hl
    exact .acquires hm hfree rfl (hp ▸ rfl) rfl
  cases hp : s.place t with
  | outside =>
    simp only [step, hp] at h
    split at h
    · cases h
    · rename_i c rest hc
      cases h
      exact .begins hp hc rfl rfl rfl
  | entering c =>
    simp only [step, hp] at h
    exact hlock h (by rw [hp]; rfl) (by rw [hp]; rfl)
  | holding c rest =>
    cases rest with
    | nil =>
      simp only [step, hp, Option.some.injEq] at h
      obtain ⟨howner, hplace, hcalls⟩ := s.finish_frame t c
      subst h
      refine .releases (m := c.self) (by rw [hp]; rfl) ?_ ?_ hcalls
      · exact congrArg (update · c.self none) howner
      · rw [hp]
        exact congrArg (update · t .outside) hplace
    | cons d rest =>
      simp only [step, hp] at h
      exact hlock h (by rw [hp]; rfl) (by rw [hp]; rfl)
  | copying c d rest =>
    simp only [step, hp, Option.some.injEq] at h
    subst h
    exact .releases (m := d) (by rw [hp]; rfl) rfl (by rw [hp]; rfl) rfl

/-- A thread that waits for no mutex, or for a free one, can take a step. -/
theorem step_enabled {s : Copying θ κ T} {t : θ}
    (hbusy : s.place t ≠ .outside ∨ s.calls t ≠ [])
    (hfree : ∀ m, (s.place t).wants = some m → s.owner m = none) : ∃ s', step s t = some s' := by
  cases hp : s.place t with
  | outside =>
    obtain ⟨c, rest, hc⟩ := List.exists_cons_of_ne_nil (hbusy.resolve_left fun hne => hne hp)
    simp only [step, hp, hc]
    exact ⟨_, rfl⟩
  | entering c =>
    rw [hp] at hfree
    simp only [step, hp, lock, if_pos (hfree c.self rfl)]
    exact ⟨_, rfl⟩
  | holding c rest =>
    cases rest with
    | nil =>
      simp only [step, hp]
      exact ⟨_, rfl⟩
    | cons d rest =>
      rw [hp] at hfree
      simp only [step, hp, lock, if_pos (hfree d rfl)]
      exact ⟨_, rfl⟩
  | copying c d rest =>
    simp only [step, hp]
    exact ⟨_, rfl⟩

/-! ### Every run is sound -/

omit [DecidableEq κ] in
/-- What holds everywhere holds after an update to what it holds of. -/
theorem forall_update {α : Type} {P : θ → α → Prop} {f : θ → α} {t : θ} {a : α} (ha : P t a)
    (h : ∀ u, P u (f u)) (u : θ) : P u (update f t a u) := by
  by_cases hu : u = t
  · subst u
    rwa [Function.update_self]
  · rw [Function.update_of_ne hu]
    exact h u

omit [DecidableEq κ] in
theorem held_update {s s' : Copying θ κ T} {t : θ} {p : CallPlace κ T}
    (h : s'.place = update s.place t p) : (fun u => (s'.place u).held) =
      update (fun u => (s.place u).held) t p.held := by
  ext1 u
  rw [h]
  exact Function.apply_update (fun _ q => CallPlace.held q) s.place t p u

omit [DecidableEq κ] in
/-- A thread goes on from the place where it stands. -/
theorem Invariant.next {calls : θ → List (MemberCall κ T)} {s s' : Copying θ κ T} {t : θ}
    (h : Invariant calls s) (howned : LockOrder.Owned s'.owner fun u => (s'.place u).held)
    (hplace : s'.place = update s.place t (s.place t).next) (hcalls : s'.calls = s.calls) :
    Invariant calls s' where
  owned := howned
  sound := by
    rw [hplace]
    exact forall_update (P := fun _ (p : CallPlace κ T) => p.Sound)
      (CallPlace.next_sound (h.sound t)) h.sound
  current := by
    rw [hplace]
    exact forall_update (P := fun u (p : CallPlace κ T) => ∀ c ∈ p.call, c ∈ calls u)
      (fun c hc => h.current t c (CallPlace.call_next hc)) h.current
  left := hcalls ▸ h.left

theorem Invariant.step {calls : θ → List (MemberCall κ T)}
    (hproper : ∀ t, ∀ c ∈ calls t, c.Proper) {s s' : Copying θ κ T} {t : θ}
    (h : Invariant calls s) (hst : Copying.step s t = some s') : Invariant calls s' := by
  cases step_moves hst with
  | @begins c rest hp hc howner hplace hcalls =>
    have hleft := h.left t
    rw [hc] at hleft
    refine ⟨?_, ?_, ?_, ?_⟩
    · rw [howner, held_update hplace]
      exact h.owned.keep (by rw [hp]; rfl)
    · rw [hplace]
      exact forall_update (P := fun _ (p : CallPlace κ T) => p.Sound) trivial h.sound
    · rw [hplace]
      refine forall_update (P := fun u (p : CallPlace κ T) => ∀ c ∈ p.call, c ∈ calls u) ?_
        h.current
      rintro c' ⟨⟩
      exact hleft c (List.mem_cons_self ..)
    · rw [hcalls]
      exact forall_update (P := fun u l => ∀ c ∈ l, c ∈ calls u)
        (fun c' hc' => hleft c' (List.mem_cons_of_mem c hc')) h.left
  | acquires hm hfree howner hplace hcalls =>
    refine h.next ?_ hplace hcalls
    rw [howner, held_update hplace]
    exact h.owned.acquire hfree (CallPlace.held_next_of_wants hm)
  | releases hm howner hplace hcalls =>
    refine h.next ?_ hplace hcalls
    rw [howner, held_update hplace]
    exact h.owned.release (CallPlace.held_of_gives hm) (CallPlace.notMem_held_next hm (h.sound t)
      fun c hc => hproper t c (h.current t c hc))

theorem run_invariant_start {queues : κ → Q T} {calls : θ → List (MemberCall κ T)}
    (hproper : ∀ t, ∀ c ∈ calls t, c.Proper) {acts : List θ} {s : Copying θ κ T}
    (h : run step (start queues calls) acts = some s) : Invariant calls s :=
  run_invariant (fun _ _ _ hu hst => hu.step hproper hst) (invariant_start queues calls) h

end Copying

end DataPipeline
