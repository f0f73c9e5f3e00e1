import DataPipeline.Framework.Restart
import Mathlib.Data.Finset.Card
import Mathlib.Data.Finset.Range

/-!
# When `stop()` returns

`TcpServer::readRxData` reads from a descriptor that blocks. `poll` has said that there is
something to read, but another thread that executes the same server may have read it since;
then the pass goes on only when the peer has sent more or has closed. The framework with its
data is taken with the pool threads that wait so. Nothing else in the last rounds waits for
the outside, so `stop()` returns on every schedule on which no `read` is waited in for ever,
and it does not return on the others.
-/

namespace DataPipeline

open Machine

/-- A framework with its data, and the pool threads that wait in the `read` of a TCP server. -/
structure Reads where
  system : System
  waiting : Finset Nat

namespace Reads

/-- Before `run()`, with a manager. -/
def start (plan : Plan) (uninitialised : Bool) (dm : DataManager Msg) : Reads where
  system := .start plan uninitialised dm
  waiting := ∅

/-- A step of the framework or a `push`, or what `read` does inside the pass of a server. -/
inductive Act where
  | system (a : System.Act)
  /-- Pool thread `i` calls `read` and there is nothing. -/
  | block (i : Nat)
  /-- The peer has sent something or has closed, so the `read` of thread `i` returns. -/
  | unblock (i : Nat)
  deriving DecidableEq, Repr

/-- The step is one of a job whose thread waits. -/
def holds (r : Reads) : System.Act → Bool
  | .control (.work i _) => decide (i ∈ r.waiting)
  | _ => false

/-- The framework as a machine, with the calls of `read` that wait. -/
def step (plan : Plan) : Machine Reads Act
  | r, .system a =>
    if r.holds a then none else (System.step plan r.system a).map fun system => { r with system }
  | r, .block i =>
    match r.system.control.pool.threads[i]? with
    | some (.running t) =>
      if plan.type t.job = some .TCPS ∧ i ∉ r.waiting then
        some { r with waiting := insert i r.waiting }
      else none
    | _ => none
  | r, .unblock i =>
    if i ∈ r.waiting then some { r with waiting := r.waiting.erase i } else none

/-- The steps of the machine, one constructor for each kind. -/
inductive Step (plan : Plan) (r : Reads) : Act → Reads → Prop where
  | system {a system} (ha : r.holds a = false) (h : System.step plan r.system a = some system) :
      Step plan r (.system a) { r with system }
  | block {i t} (ht : r.system.control.pool.At i (.running t))
      (htype : plan.type t.job = some .TCPS) (hi : i ∉ r.waiting) :
      Step plan r (.block i) { r with waiting := insert i r.waiting }
  | unblock {i} (hi : i ∈ r.waiting) :
      Step plan r (.unblock i) { r with waiting := r.waiting.erase i }

/-- Every step of the machine is one of the branches. -/
theorem step_cases {plan : Plan} {r r' : Reads} {a : Act} (h : step plan r a = some r') :
    Step plan r a r' := by
  cases a with
  | system a =>
    simp only [step] at h
    split at h
    · contradiction
    · rename_i ha
      obtain ⟨system, hsystem, rfl⟩ := Option.map_eq_some_iff.mp h
      exact Step.system (Bool.not_eq_true _ ▸ ha) hsystem
  | block i =>
    simp only [step] at h
    split at h
    · rename_i ht
      split at h
      · rename_i hi
        cases h
        exact Step.block ht hi.1 hi.2
      · contradiction
    · contradiction
  | unblock i =>
    simp only [step] at h
    split at h
    · rename_i hi
      cases h
      exact Step.unblock hi
    · contradiction

/-! ### The framework inside -/

/-- The steps of the framework in a step. -/
def systemActs (_ : Reads) : Act → List System.Act
  | .system a => [a]
  | .block _ | .unblock _ => []

theorem step_system {plan : Plan} {r r' : Reads} {a : Act} (h : step plan r a = some r') :
    run (System.step plan) r.system (systemActs r a) = some r'.system := by
  cases step_cases h with
  | system _ hs => simp only [systemActs, run_cons, hs, Option.bind_some, run_nil]
  | block | unblock => rfl

/-- Without the calls of `read` a run is one of the framework with its data. -/
theorem run_system {plan : Plan} {r r' : Reads} {acts : List Act}
    (hrun : run (step plan) r acts = some r') :
    run (System.step plan) r.system (observe (step plan) systemActs r acts) = some r'.system :=
  run_part (f := Reads.system) (fun _ _ _ _ _ h => step_system h) hrun

/-- No flag is cleared while its job is still to start. -/
def ClearsSettled (plan : Plan) (r : Reads) : Act → Prop
  | .system a => System.ClearsSettled plan r.system a
  | .block _ | .unblock _ => True

instance (plan : Plan) (r : Reads) (a : Act) : Decidable (ClearsSettled plan r a) := by
  unfold ClearsSettled
  split <;> infer_instance

theorem meets_system {plan : Plan} {r r' : Reads} {acts : List Act}
    (hrun : run (step plan) r acts = some r')
    (hsettled : Meets (step plan) (ClearsSettled plan) r acts) :
    Meets (System.step plan) (System.ClearsSettled plan) r.system
      (observe (step plan) systemActs r acts) := by
  refine meets_part (f := Reads.system) (fun _ _ _ _ _ h => step_system h) (fun u a ha => ?_)
    hrun hsettled
  cases a with
  | system a => exact meets_cons.mpr ⟨ha, fun s _ => meets_nil _ _ s⟩
  | block | unblock => exact meets_nil _ _ u.system

/-! ### Who waits -/

/-- A thread that waits is inside the pass of a TCP server. -/
def Inside (plan : Plan) (r : Reads) : Prop :=
  ∀ i ∈ r.waiting, ∃ t, r.system.control.pool.At i (.running t) ∧ plan.type t.job = some .TCPS

/-- Nobody else takes a thread out of its job. -/
theorem keeps_of_holds {plan : Plan} {r : Reads} {a : System.Act} {s : System} {i : Nat}
    {t : Task} (ha : r.holds a = false) (h : System.step plan r.system a = some s)
    (hi : i ∈ r.waiting) (ht : r.system.control.pool.At i (.running t)) :
    s.control.pool.At i (.running t) := by
  cases System.step_cases h with
  | push => exact ht
  | @work k outcome t' d hk he =>
    refine Pool.at_goto_of_ne ?_ _ ht
    rintro rfl
    simp only [holds, decide_eq_false_iff_not] at ha
    exact ha hi
  | control hno hc => exact hc.keeps hno ht

theorem Inside.step {plan : Plan} {r r' : Reads} {a : Act} (hI : Inside plan r)
    (h : Step plan r a r') : Inside plan r' := by
  cases h with
  | system ha h =>
    intro i hi
    obtain ⟨t, ht, htype⟩ := hI i hi
    exact ⟨t, keeps_of_holds ha h hi ht, htype⟩
  | block ht htype =>
    intro i hi
    rcases Finset.mem_insert.mp hi with rfl | hi
    · exact ⟨_, ht, htype⟩
    · exact hI i hi
  | unblock => exact fun i hi => hI i (Finset.mem_of_mem_erase hi)

theorem run_inside {plan : Plan} {uninitialised : Bool} {dm : DataManager Msg} {acts : List Act}
    {r : Reads} (hrun : run (step plan) (start plan uninitialised dm) acts = some r) :
    Inside plan r := by
  refine run_invariant (I := Inside plan) (fun _ _ _ hI h => hI.step (step_cases h)) ?_ hrun
  exact fun i hi => absurd hi (Finset.notMem_empty i)

/-- The threads that wait are threads of the pool. -/
theorem Inside.card_le {plan : Plan} {r : Reads} (hI : Inside plan r) :
    r.waiting.card ≤ r.system.control.pool.threads.length := by
  have hsub : r.waiting ⊆ Finset.range r.system.control.pool.threads.length := by
    intro i hi
    obtain ⟨t, ht, _⟩ := hI i hi
    exact Finset.mem_range.mpr (List.getElem?_eq_some_iff.mp ht).1
  exact (Finset.card_le_card hsub).trans (Nat.le_of_eq (Finset.card_range _))

/-- A thread waits until its own `read` returns. -/
theorem Step.waits {plan : Plan} {r r' : Reads} {a : Act} (h : Step plan r a r') {i : Nat}
    (hi : i ∈ r.waiting) (ha : a ≠ .unblock i) : i ∈ r'.waiting := by
  cases h with
  | system => exact hi
  | block => exact Finset.mem_insert_of_mem hi
  | unblock => exact Finset.mem_erase.mpr ⟨fun he => ha (he ▸ rfl), hi⟩

theorem run_waits {plan : Plan} {r u : Reads} {later : List Act}
    (hlater : run (step plan) r later = some u) {i : Nat} (hi : i ∈ r.waiting)
    (hno : .unblock i ∉ later) : i ∈ u.waiting := by
  refine run_history (I := fun before v => .unblock i ∉ before → i ∈ v.waiting)
    (fun _ => hi) ?_ hlater hno
  intro before v a w _ hI h hbefore
  refine (step_cases h).waits (hI fun hm => hbefore (List.mem_append_left _ hm)) ?_
  rintro rfl
  exact hbefore (List.mem_append_right _ (List.mem_singleton.mpr rfl))

/-! ### What is left to do -/

/-- A step that a thread of the framework takes: to come to wait in `read` is one. -/
def Act.works : Act → Bool
  | .system a => a.works
  | .block _ => true
  | .unblock _ => false

/-- How much a step adds to what is left. -/
def Act.adds (outQueues : Nat) : Act → Nat
  | .system a => a.adds outQueues
  | .block _ => 0
  | .unblock _ => 1

/-- What is left to do until `stop()` returns; a thread that does not wait may come to. -/
def rank (r : Reads) : Nat :=
  r.system.rank + (r.system.control.pool.threads.length - r.waiting.card)

variable {plan : Plan} {uninitialised : Bool} {dm : DataManager Msg}

/-- Once `stop()` only waits, every step lowers what is left, except that somebody pushes, that
a thread wakes without reason or that a peer lets a `read` return. -/
theorem rank_step {r r' : Reads} {a : Act} (hI : Inside plan r)
    (hR : System.Reached plan dm r.system) (hS : Control.Stopping plan r.system.control)
    (h : step plan r a = some r') :
    rank r' + (if a.works then 1 else 0) ≤ rank r + a.adds dm.outQueues.length := by
  have hstep := step_cases h
  have hcard' := (hI.step hstep).card_le
  cases hstep with
  | @system a s ha hs =>
    have hrank : s.rank + (if (Act.system a).works then 1 else 0) ≤
        r.system.rank + (Act.system a).adds dm.outQueues.length := System.rank_step hR hS hs
    have hlen : s.control.pool.threads.length ≤ r.system.control.pool.threads.length := by
      rcases (System.step_cases hs).threads with he | ⟨a', ha'⟩
      · exact Nat.le_of_eq (he ▸ rfl)
      · exact hS.length_threads hR.programs ha'
    unfold rank
    dsimp only
    omega
  | block ht htype hi =>
    have hcard := Finset.card_insert_of_notMem hi
    simp only [rank, Act.works, Act.adds, ite_true]
    dsimp only at hcard'
    omega
  | unblock hi =>
    have hcard := Finset.card_erase_add_one hi
    simp only [rank, Act.works, Act.adds, Bool.false_eq_true, ite_false]
    omega

/-- Where nobody waits no step of the framework is held back. -/
theorem holds_of_nobody {r : Reads} (hnobody : r.waiting = ∅) (a : System.Act) :
    r.holds a = false := by
  unfold holds
  split
  · rw [hnobody]
    rfl
  · rfl

/-- Until `stop()` has returned some thread of the framework can take a step, if none waits in
`read`. -/
theorem works_enabled (hin : ∀ n ∈ plan.inNodes, n.type ≠ .CONSUMER) {r : Reads}
    (hR : System.Reached plan dm r.system) (hS : Control.Stopping plan r.system.control)
    (hne : r.system.control.caller ≠ []) (hnobody : r.waiting = ∅) :
    ∃ a, System.Act.works a = true ∧ ∃ u, step plan r (.system a) = some u := by
  obtain ⟨a, ha, s, hs⟩ := System.works_enabled hin hR hS hne
  refine ⟨a, ha, { r with system := s }, ?_⟩
  simp only [step, holds_of_nobody hnobody, hs, Bool.false_eq_true, ite_false, Option.map_some]

/-! ### `stop()` returns -/

/-- `stop()` returns on every schedule on which no thread waits in `read` for ever. No consumer
is an input node, the manager saw registrations only, and the run has come to where `stop()` has
cleared the flags, none of them while its job was still to start. However the run continues, the
steps of the framework's threads are as many as were left, and one for each output queue for
every push, one for every time a thread has woken without reason and one for every time a peer
has let a `read` return. Until `stop()` has returned a thread can take one more, or one waits in
the `read` of a TCP server; and as long as a peer leaves a `read` waiting `stop()` does not
return. -/
theorem stop_returns (hin : ∀ n ∈ plan.inNodes, n.type ≠ .CONSUMER) {conf : DataManagerConf}
    {regs : List (DataManager.Op Msg)} (hregs : ∀ op ∈ regs, op.Registers)
    (hdm : run DataManager.step (.new conf) regs = some dm) {acts : List Act} {r : Reads}
    (hrun : run (step plan) (start plan uninitialised dm) acts = some r)
    (hsettled : Meets (step plan) (ClearsSettled plan) (start plan uninitialised dm) acts)
    (hcleared : ∀ job, .clear job ∉ r.system.control.caller) {later : List Act} {u : Reads}
    (hlater : run (step plan) r later = some u) :
    later.countP Act.works ≤ r.rank + (later.map (Act.adds dm.outQueues.length)).sum ∧
      (u.system.control.caller ≠ [] → u.waiting = ∅ →
        ∃ a, System.Act.works a = true ∧ ∃ v, step plan u (.system a) = some v) ∧
      ∀ i ∈ r.waiting, .unblock i ∉ later → u.system.control.caller ≠ [] := by
  have hreg := DataManager.registered_of_run hregs hdm
  have hall : ∀ {before v}, run (step plan) r before = some v →
      run (step plan) (start plan uninitialised dm) (acts ++ before) = some v := by
    intro before v hv
    exact run_append_eq_some.mpr ⟨r, hrun, hv⟩
  have hreached : ∀ {before v}, run (step plan) r before = some v →
      System.Reached plan dm v.system ∧ Control.Stopping plan v.system.control := by
    intro before v hv
    exact System.stopping_later hreg (run_system hrun) (meets_system hrun hsettled) hcleared
      (run_system hv)
  refine ⟨?_, fun hne hnobody => ?_, fun i hi hno hdone => ?_⟩
  · have hrank := run_rank (G := fun _ _ => False) rank
      (fun a => if Act.works a then 1 else 0) (Act.adds dm.outQueues.length)
      (fun before a _ v w _ hv h => ⟨False.elim, Or.inr
        (rank_step (run_inside (hall hv)) (hreached hv).1 (hreached hv).2 h)⟩) hlater
    rw [sum_counted, false_or] at hrank
    omega
  · obtain ⟨hR, hS⟩ := hreached hlater
    exact works_enabled hin hR hS hne hnobody
  · -- a thread that waits executes a job, and `stop()` has joined the pool when it returns
    obtain ⟨t, ht, _⟩ := run_inside (hall hlater) i (run_waits hlater hi hno)
    have hended := Control.ended_of_run (System.run_control (run_system (hall hlater))) hdone
    exact hended.nothing i t ht

/-- The framework of one server and one consumer. -/
def serverAndConsumer : Plan :=
  ⟨4, [⟨.TCPS, 50000, "TcpServer1"⟩], [⟨.CONSUMER, 50000, "Out1"⟩]⟩

/-- Its manager. -/
def serverAndConsumerData : DataManager Msg :=
  (((DataManager.new ⟨"dm", 8, 8, .BROADCAST⟩).setFeeder "TcpServer1").1.setConsumer "Out1").1

/-- Steps of the framework's threads. -/
def threads (acts : List Control.Act) : List Act := (System.threads acts).map Act.system

/-- Two threads execute the server and one of them waits in `read`, the manager and the consumer
iterate; then `stop()` clears the flags. -/
def stopsWaiting : List Act :=
  System.started.map Act.system ++ threads (List.replicate 4 (.main none) ++ [.threadLoop 3]) ++
    [.block 2] ++ threads (List.replicate 4 (.caller none))

/-- Everything that is left but for the thread that waits. -/
def allButOne : List Act :=
  threads ([.work 0 true, .work 0 true, .work 0 false, .work 0 true, .work 1 true, .work 3 true,
      .main none, .main none] ++ List.replicate 3 (.caller none) ++
    [.threadLoop 0, .threadLoop 1, .threadLoop 3])

/-- `stop()` has come to where it joins the pool, and does not return as long as the thread
waits. When the peer has sent something that thread can go on, and then `stop()` returns. -/
theorem stop_returns_after_read : ∃ r u v w,
    run (step serverAndConsumer) (start serverAndConsumer false serverAndConsumerData)
        stopsWaiting = some r ∧
      run (step serverAndConsumer) r allButOne = some u ∧ u.system.control.caller ≠ [] ∧
      run (step serverAndConsumer) r (allButOne ++ [.unblock 2]) = some v ∧
      (∃ a, System.Act.works a = true ∧
        ∃ v', step serverAndConsumer v (.system a) = some v') ∧
      run (step serverAndConsumer) v (threads [.work 2 true, .threadLoop 2, .caller none]) =
        some w ∧
      w.system.control.caller = [] := by
  have hregs : ∀ op ∈ [.setFeeder "TcpServer1", .setConsumer "Out1"],
      DataManager.Op.Registers (T := Msg) op := by
    simp [DataManager.Op.Registers]
  obtain ⟨r, hrun, hcaller, hwaits⟩ : ∃ r,
      run (step serverAndConsumer) (start serverAndConsumer false serverAndConsumerData)
          stopsWaiting = some r ∧
        r.system.control.caller = [.joinMain, .terminate, .notifyAll, .joinAll] ∧
        2 ∈ r.waiting := ⟨_, rfl, rfl, by decide⟩
  have hcleared : ∀ job, .clear job ∉ r.system.control.caller := by
    intro job
    simp [hcaller]
  obtain ⟨u, hu⟩ : ∃ u, run (step serverAndConsumer) r allButOne = some u := by
    cases hrun
    exact ⟨_, rfl⟩
  obtain ⟨v, hv, hjoins, hnobody⟩ : ∃ v,
      run (step serverAndConsumer) r (allButOne ++ [.unblock 2]) = some v ∧
        v.system.control.caller ≠ [] ∧ v.waiting = ∅ := by
    cases hrun
    exact ⟨_, rfl, by decide, by decide⟩
  obtain ⟨w, hw, hdone⟩ : ∃ w,
      run (step serverAndConsumer) v (threads [.work 2 true, .threadLoop 2, .caller none]) =
        some w ∧ w.system.control.caller = [] := by
    cases hrun
    cases hv
    exact ⟨_, rfl, rfl⟩
  have hstays := (stop_returns (by decide) hregs rfl hrun (by decide) hcleared hu).2.2
  have hgoes := (stop_returns (by decide) hregs rfl hrun (by decide) hcleared hv).2.1
  exact ⟨r, u, v, w, hrun, hu, hstays 2 hwaits (by decide), hv, hgoes hjoins hnobody, hw, hdone⟩

end Reads

end DataPipeline
