import DataPipeline.Manager.Registry
import Mathlib.Logic.Function.Basic

/-!
# Broadcasting at the granularity of the queue mutexes

Threads that push, threads that pop and the one thread that loops `manageBroadcast`
interleave between critical sections. A `pop` is two of them, `Q::empty` and
`Q::move`; a broadcast of one input queue is `Q::empty`, then `Q::copy`, which keeps
the input queue's mutex while it locks the output queues one after the other. A
`push` to a queue whose mutex is held is not enabled.
-/

namespace DataPipeline

/-- Where the thread that loops `manageBroadcast` stands. -/
inductive Sweep where
  /-- Between two passes. -/
  | idle
  /-- At the head of the loop over the input queues, at position `i`. -/
  | visit (broadCastList : List Nat) (i : Nat)
  /-- `m_inQueues[i].empty()` was false, `copy` comes next. -/
  | nonEmpty (broadCastList : List Nat) (i : Nat)
  /-- Inside `copy`, holding the mutex of input queue `i`, with `enableCopy` to go. -/
  | copying (broadCastList : List Nat) (i : Nat) (enableCopy : List Nat)
  deriving DecidableEq

/-- The mutex of input queue `i` is held between two steps. -/
def Sweep.Holds (i : Nat) : Sweep → Prop
  | .copying _ k _ => k = i
  | _ => False

instance (i : Nat) (w : Sweep) : Decidable (w.Holds i) := by
  cases w <;> unfold Sweep.Holds <;> infer_instance

/-- Where a thread stands in `DataManager::pop`. -/
inductive PopCall where
  /-- Not inside `pop`. -/
  | idle
  /-- `m_outQueues[id].empty()` was false, `move` comes next. -/
  | nonEmpty (id : Nat)
  deriving DecidableEq

/-- A manager shared by the feeders, the popping threads `θ` and the broadcasting
thread. -/
structure Pipe (θ T : Type) where
  manager : DataManager T
  sweep : Sweep
  calls : θ → PopCall
  /-- The vector each thread passes to `pop`, which appends to it. -/
  data : θ → List T
  /-- What the last `pop` of each thread returned. -/
  result : θ → Option Bool
  /-- History: everything moved out of each output queue, in order. -/
  handed : Nat → List T

namespace Pipe

variable {θ T : Type}

/-- Nobody has started. -/
def start (dm : DataManager T) : Pipe θ T where
  manager := dm
  sweep := .idle
  calls := fun _ => .idle
  data := fun _ => []
  result := fun _ => none
  handed := fun _ => []

/-- One critical section. -/
inductive Act (θ T : Type) where
  /-- `DataManager::push(data, pushId)`. -/
  | push (data : T) (pushId : String)
  /-- Thread `t` enters `DataManager::pop` and gets as far as `Q::empty`. -/
  | popTest (t : θ)
  /-- Thread `t` executes `Q::move` and returns. -/
  | popMove (t : θ)
  /-- The next step of the broadcasting thread. -/
  | sweep
  deriving DecidableEq

/-- The next step of the thread that executes `while (..) manageBroadcast()`. In
mode `MAP` the pass is the empty `manageMap()`. -/
def sweepNext (s : Pipe θ T) : Option (Pipe θ T) :=
  match s.sweep with
  | .idle =>
    match s.manager.mode with
    | .BROADCAST => some { s with sweep := .visit (List.range s.manager.outQueues.length) 0 }
    | .MAP => some s
  | .visit broadCastList i =>
    match s.manager.inQueues[i]? with
    | none => some { s with sweep := .idle }
    | some it =>
      if !it.empty && decide (broadCastList.length > 0) then
        some { s with sweep := .nonEmpty broadCastList i }
      else some { s with sweep := .visit broadCastList (i + 1) }
  | .nonEmpty broadCastList i => some { s with sweep := .copying broadCastList i broadCastList }
  | .copying broadCastList i [] =>
    s.manager.inQueues[i]?.map fun _ =>
      { s with
        manager := { s.manager with inQueues := s.manager.inQueues.set i ⟨[]⟩ }
        sweep := .visit broadCastList (i + 1) }
  | .copying broadCastList i (id :: enableCopy) => do
    let it ← s.manager.inQueues[i]?
    let other ← s.manager.outQueues[id]?
    some { s with
      manager := { s.manager with outQueues := s.manager.outQueues.set id (it.copyTo other) }
      sweep := .copying broadCastList i enableCopy }

variable [DecidableEq θ]

/-- Thread `t` returns `b` from `pop`. -/
def ret (s : Pipe θ T) (t : θ) (b : Bool) : Pipe θ T :=
  { s with calls := Function.update s.calls t .idle, result := Function.update s.result t (some b) }

/-- The machine, for threads `t` that pop for the consumer `popId t`. -/
def next (popId : θ → String) : Machine (Pipe θ T) (Act θ T)
  | s, .push data pushId =>
    match s.manager.inQueuesIds.lookup pushId with
    | none => some s
    | some id =>
      if s.sweep.Holds id then none
      else (s.manager.push data pushId).map fun dm => { s with manager := dm }
  | s, .popTest t =>
    match s.calls t with
    | .nonEmpty _ => none
    | .idle =>
      match s.manager.outQueuesIds.lookup (popId t) with
      | none => some (s.ret t false)
      | some id =>
        s.manager.outQueues[id]?.map fun q =>
          if q.empty then s.ret t false
          else { s with calls := Function.update s.calls t (.nonEmpty id) }
  | s, .popMove t =>
    match s.calls t with
    | .idle => none
    | .nonEmpty id =>
      s.manager.outQueues[id]?.map fun q =>
        let (q', data') := q.move (s.data t)
        ({ s with
            manager := { s.manager with outQueues := s.manager.outQueues.set id q' }
            data := Function.update s.data t data'
            handed := Function.update s.handed id (s.handed id ++ q.queue) }).ret t true
  | s, .sweep => s.sweepNext

/-! ### What one step can do -/

/-- The steps of the machine, one constructor for each branch. -/
inductive Step (popId : θ → String) (s : Pipe θ T) : Act θ T → Pipe θ T → Prop where
  | pushUnknown {data pushId} (hl : s.manager.inQueuesIds.lookup pushId = none) :
      Step popId s (.push data pushId) s
  | push {data pushId id q} (hl : s.manager.inQueuesIds.lookup pushId = some id)
      (hfree : ¬ s.sweep.Holds id) (hq : s.manager.inQueues[id]? = some q) :
      Step popId s (.push data pushId)
        { s with
          manager := { s.manager with inQueues := s.manager.inQueues.set id (q.push data) } }
  | popFail {t} (hc : s.calls t = .idle)
      (hnone : ∀ id, s.manager.outQueuesIds.lookup (popId t) = some id →
        contents s.manager.outQueues id = []) :
      Step popId s (.popTest t) (s.ret t false)
  | popFound {t id q} (hc : s.calls t = .idle)
      (hl : s.manager.outQueuesIds.lookup (popId t) = some id)
      (hq : s.manager.outQueues[id]? = some q) (hne : q.queue ≠ []) :
      Step popId s (.popTest t) { s with calls := Function.update s.calls t (.nonEmpty id) }
  | popMove {t id q} (hc : s.calls t = .nonEmpty id) (hq : s.manager.outQueues[id]? = some q) :
      Step popId s (.popMove t)
        (({ s with
            manager := { s.manager with outQueues := s.manager.outQueues.set id ⟨[]⟩ }
            data := Function.update s.data t (s.data t ++ q.queue)
            handed := Function.update s.handed id (s.handed id ++ q.queue) } : Pipe θ T).ret t true)
  | passBegin (hw : s.sweep = .idle) (hm : s.manager.mode = .BROADCAST) :
      Step popId s .sweep
        { s with sweep := .visit (List.range s.manager.outQueues.length) 0 }
  | passMap (hw : s.sweep = .idle) (hm : s.manager.mode = .MAP) : Step popId s .sweep s
  | passEnd {broadCastList i} (hw : s.sweep = .visit broadCastList i)
      (hi : s.manager.inQueues.length ≤ i) :
      Step popId s .sweep { s with sweep := .idle }
  | visitFound {broadCastList i it} (hw : s.sweep = .visit broadCastList i)
      (hi : s.manager.inQueues[i]? = some it) (hne : it.queue ≠ []) (hb : broadCastList ≠ []) :
      Step popId s .sweep { s with sweep := .nonEmpty broadCastList i }
  | visitSkip {broadCastList i it} (hw : s.sweep = .visit broadCastList i)
      (hi : s.manager.inQueues[i]? = some it) (hskip : it.queue = [] ∨ broadCastList = []) :
      Step popId s .sweep { s with sweep := .visit broadCastList (i + 1) }
  | copyBegin {broadCastList i} (hw : s.sweep = .nonEmpty broadCastList i) :
      Step popId s .sweep { s with sweep := .copying broadCastList i broadCastList }
  | copyTo {broadCastList i id enableCopy it other}
      (hw : s.sweep = .copying broadCastList i (id :: enableCopy))
      (hi : s.manager.inQueues[i]? = some it) (hid : s.manager.outQueues[id]? = some other) :
      Step popId s .sweep
        { s with
          manager := { s.manager with outQueues := s.manager.outQueues.set id (it.copyTo other) }
          sweep := .copying broadCastList i enableCopy }
  | copyEnd {broadCastList i it} (hw : s.sweep = .copying broadCastList i [])
      (hi : s.manager.inQueues[i]? = some it) :
      Step popId s .sweep
        { s with
          manager := { s.manager with inQueues := s.manager.inQueues.set i ⟨[]⟩ }
          sweep := .visit broadCastList (i + 1) }

theorem sweepNext_cases {popId : θ → String} {s s' : Pipe θ T} (h : s.sweepNext = some s') :
    Step popId s .sweep s' := by
  unfold sweepNext at h
  split at h
  · rename_i hw
    split at h <;> rename_i hm <;> cases h
    · exact Step.passBegin hw hm
    · exact Step.passMap hw hm
  · rename_i broadCastList i hw
    split at h
    · rename_i hi
      cases h
      exact Step.passEnd hw (List.getElem?_eq_none_iff.mp hi)
    · rename_i it hi
      split at h <;> rename_i hc <;> cases h
      · simp only [Bool.and_eq_true, Bool.not_eq_true', decide_eq_true_eq] at hc
        refine Step.visitFound hw hi ?_ (List.length_pos_iff.mp hc.2)
        exact fun he => Bool.false_ne_true (hc.1.symm.trans (it.empty_iff.mpr he))
      · simp only [Bool.and_eq_true, Bool.not_eq_true', decide_eq_true_eq, not_and_or,
          Bool.not_eq_false, Nat.not_lt, gt_iff_lt, Nat.le_zero_eq, List.length_eq_zero_iff] at hc
        exact Step.visitSkip hw hi (hc.imp_left it.empty_iff.mp)
  · rename_i hw
    cases h
    exact Step.copyBegin hw
  · rename_i hw
    obtain ⟨it, hi, rfl⟩ := Option.map_eq_some_iff.mp h
    exact Step.copyEnd hw hi
  · rename_i hw
    obtain ⟨it, hi, h⟩ := Option.bind_eq_some_iff.mp h
    obtain ⟨other, hid, h⟩ := Option.bind_eq_some_iff.mp h
    cases h
    exact Step.copyTo hw hi hid

/-- Every step of the machine is one of the branches. -/
theorem next_cases {popId : θ → String} {s s' : Pipe θ T} {a : Act θ T}
    (h : next popId s a = some s') : Step popId s a s' := by
  cases a with
  | push data pushId =>
    simp only [next] at h
    split at h
    · rename_i hl
      cases h
      exact Step.pushUnknown hl
    · rename_i id hl
      split at h
      · contradiction
      · rename_i hfree
        obtain ⟨dm, hp, rfl⟩ := Option.map_eq_some_iff.mp h
        rcases DataManager.push_cases hp with ⟨hn, _⟩ | ⟨id', q, hl', hq, rfl⟩
        · rw [hl] at hn
          contradiction
        · obtain rfl := Option.some.inj (hl.symm.trans hl')
          exact Step.push hl hfree hq
  | popTest t =>
    simp only [next] at h
    split at h
    · contradiction
    · rename_i hc
      split at h
      · rename_i hl
        cases h
        exact Step.popFail hc fun id hid => absurd (hl.symm.trans hid) nofun
      · rename_i id hl
        obtain ⟨q, hq, hs⟩ := Option.map_eq_some_iff.mp h
        split at hs <;> rename_i he <;> subst hs
        · apply Step.popFail hc
          intro id' hid
          obtain rfl := Option.some.inj (hl.symm.trans hid)
          exact (contents_eq hq).trans (q.empty_iff.mp he)
        · exact Step.popFound hc hl hq (mt q.empty_iff.mpr he)
  | popMove t =>
    simp only [next] at h
    split at h
    · contradiction
    · rename_i id hc
      obtain ⟨q, hq, rfl⟩ := Option.map_eq_some_iff.mp h
      exact Step.popMove hc hq
  | sweep => exact sweepNext_cases h

/-- What consumer queue `j` was sent so far: what was moved out of it and what it holds. -/
def delivered (s : Pipe θ T) (j : Nat) : List T := s.handed j ++ contents s.manager.outQueues j

/-- What waits in input queue `i`. -/
def waiting (s : Pipe θ T) (i : Nat) : List T := contents s.manager.inQueues i

/-- A copy is in progress. -/
def Copying (s : Pipe θ T) : Prop := ∃ i, s.sweep.Holds i

end Pipe

end DataPipeline
