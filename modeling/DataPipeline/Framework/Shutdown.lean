import DataPipeline.Broadcast.Backlog
import DataPipeline.Framework.Drain
import DataPipeline.Framework.Places
import DataPipeline.Framework.Running

/-!
# What is left to do for `stop()`

Once `stop()` has cleared all flags, and each of them while its job was not still to start,
every loop is in its last round: the round of `runJobs`, the pass of the manager, what a
consumer or a client has popped. What is left is a number that every step lowers, except
that somebody pushes or that a thread wakes without reason; and until `stop()` has
returned some thread can take a step. The pass of a server is one step here, which it takes
when it returns.
-/

namespace DataPipeline

open Machine
open Function (update)

namespace Control

/-! ### All flags are cleared -/

/-- `stop()` has cleared the flags, each for good, and waits. -/
structure Stopping (plan : Plan) (c : Control) : Prop where
  caller : c.caller <:+ [.joinMain, .terminate, .notifyAll, .joinAll]
  cleared : ∀ job, plan.sets job = true → Cleared plan job c

theorem suffix_of_disjoint {α : Type} {l a b : List α} (h : l <:+ a ++ b) (ha : ∀ x ∈ a, x ∉ l) :
    l <:+ b := by
  induction a with
  | nil => exact h
  | cons x a ih =>
    rcases List.suffix_cons_iff.mp h with rfl | h
    · exact absurd List.mem_cons_self (ha x List.mem_cons_self)
    · exact ih h fun y hy => ha y (List.mem_cons_of_mem x hy)

/-- The jobs that loop on a flag are among those whose flags are cleared. -/
theorem mem_of_sets {plan : Plan} {job : Job} (h : plan.sets job = true) :
    job ∈ .dmRun :: (plan.jobs .input ++ plan.jobs .output) := by
  cases job with
  | dmRun => exact List.mem_cons_self
  | nodeRun side k =>
    have htype : (plan.nodes side)[k]?.map ProxyNode.type = some .CONSUMER := by
      simpa [Plan.sets, Plan.type] using h
    obtain ⟨n, hn, _⟩ := Option.map_eq_some_iff.mp htype
    have hmem : Job.nodeRun side k ∈ plan.jobs side :=
      List.mem_map.mpr ⟨k, List.mem_range.mpr (List.getElem?_eq_some_iff.mp hn).1, rfl⟩
    refine List.mem_cons_of_mem _ (List.mem_append.mpr ?_)
    cases side
    · exact Or.inl hmem
    · exact Or.inr hmem

/-- A flag is still to be cleared, or it is cleared for good. -/
theorem run_clearedOrNot {plan : Plan} {uninitialised : Bool} {acts : List Act} {c : Control}
    (hrun : run (step plan) (start plan uninitialised) acts = some c)
    (hsettled : Meets (step plan) (ClearsSettled plan) (start plan uninitialised) acts)
    {job : Job} (hjob : job ∈ .dmRun :: (plan.jobs .input ++ plan.jobs .output)) :
    .clear job ∈ c.caller ∨ Cleared plan job c := by
  have h := run_invariant_of_meets (C := ClearsSettled plan)
    (I := fun c => Programs plan c ∧ Lowered c ∧ (.clear job ∈ c.caller ∨ Cleared plan job c))
    ?_ ⟨programs_start plan uninitialised, Or.inr rfl, Or.inl ?_⟩ hsettled hrun
  · exact h.2.2
  · rintro c a c' ⟨hP, hL, hI⟩ hS h
    have hstep := step_cases h
    refine ⟨hP.step hstep, hL.step hP hstep, ?_⟩
    rcases hI with hmem | hC
    · rcases hstep.caller_eq with he | ⟨woken, ins, rfl, hc⟩
      · exact Or.inl (he ▸ hmem)
      · rw [hc] at hmem
        rcases List.mem_cons.mp hmem with rfl | hmem
        · simp only [ClearsSettled, hc] at hS
          exact Or.inr (cleared_of_clear hP hL hc hS h)
        · exact Or.inl hmem
    · exact Or.inr (hC.step hP hstep)
  · refine List.mem_append_right _ (List.mem_cons_of_mem _ ?_)
    rcases List.mem_cons.mp hjob with rfl | hjob
    · exact List.mem_append_left _ List.mem_cons_self
    · exact List.mem_append_left _ (List.mem_cons_of_mem _ (List.mem_map.mpr ⟨job, hjob, rfl⟩))

theorem stopping_of_run {plan : Plan} {uninitialised : Bool} {acts : List Act} {c : Control}
    (hrun : run (step plan) (start plan uninitialised) acts = some c)
    (hsettled : Meets (step plan) (ClearsSettled plan) (start plan uninitialised) acts)
    (hcleared : ∀ job, .clear job ∉ c.caller) : Stopping plan c where
  caller := by
    have hsuf := (run_programs hrun).caller
    have hsuf := suffix_of_not_mem (a := plan.run ++ [.lower])
      (by rwa [List.append_assoc]) (hcleared .dmRun)
    refine suffix_of_disjoint hsuf fun ins hins => ?_
    obtain ⟨job, _, rfl⟩ := List.mem_map.mp hins
    exact hcleared job
  cleared := fun job hsets =>
    (run_clearedOrNot hrun hsettled (mem_of_sets hsets)).resolve_left (hcleared job)

theorem Stopping.step {plan : Plan} {c c' : Control} {a : Act} (hS : Stopping plan c)
    (hP : Programs plan c) (h : Step plan c a c') : Stopping plan c' where
  caller := by
    rcases h.caller_eq with he | ⟨_, ins, _, hc⟩
    · exact he ▸ hS.caller
    · exact (hc ▸ List.suffix_cons ins _ : c'.caller <:+ c.caller).trans hS.caller
  cleared := fun job hsets => (hS.cleared job hsets).step hP h

/-- No thread is added. -/
theorem Stopping.length_threads {plan : Plan} {c c' : Control} {a : Act} (hS : Stopping plan c)
    (hP : Programs plan c) (h : Step plan c a c') :
    c'.pool.threads.length ≤ c.pool.threads.length := by
  have hlen := h.threads hP
  have hspawn : c.caller.count .spawn = 0 :=
    List.count_eq_zero.mpr fun hm => absurd (hS.caller.mem hm) (by decide)
  omega

theorem Stopping.isRunning {plan : Plan} {c : Control} (hS : Stopping plan c) :
    c.isRunning = false := (hS.cleared .dmRun rfl).isRunning

/-! ### Who can still go on -/

/-- The `runJobs` thread exists once its creation is past. -/
def Created (c : Control) : Prop := .startMain ∈ c.caller ∨ c.main ≠ .notStarted

theorem Created.step {plan : Plan} {c c' : Control} {a : Act} (hC : Created c)
    (h : Step plan c a c') : Created c' := by
  cases h with
  | @caller woken ins rest d hc hd =>
    rcases hC with hmem | hmain
    · rw [hc] at hmem
      rcases List.mem_cons.mp hmem with rfl | hmem
      · cases exec_cases hd
        exact Or.inr nofun
      · exact Or.inl hmem
    · rcases exec_main hd with he | ⟨_, _, he⟩
      · exact Or.inr fun hn => hmain (he.symm.trans hn)
      · exact Or.inr fun hn => nomatch he.symm.trans hn
  | mainTest hm =>
    refine Or.inr fun hn => ?_
    dsimp only at hn
    split at hn <;> cases hn
  | mainRound => exact Or.inr nofun
  | main => exact Or.inr nofun
  | threadLoop | spurious | work => exact hC

/-- From `terminate` on no thread parks, and `notify_all` has woken those that had. -/
structure Awakened (c : Control) : Prop where
  terminating : c.caller <:+ [.notifyAll, .joinAll] → c.pool.shouldTerminate = true
  woken : c.caller <:+ [.joinAll] → .parked ∉ c.pool.threads

/-- What the calling thread executes last but one, last but two and so on. -/
theorem cons_suffix_of_tail {plan : Plan} {c : Control} (hP : Programs plan c) {ins x : Instr}
    {rest init tail : List Instr} (hprogram : plan.run ++ plan.stop = init ++ x :: tail)
    (hc : c.caller = ins :: rest) (hrest : rest <:+ tail) : ins :: rest <:+ x :: tail := by
  refine List.suffix_of_suffix_length_le (hc ▸ hprogram ▸ hP.caller)
    (List.suffix_append init (x :: tail)) ?_
  simpa using hrest.length_le

theorem program_concat (plan : Plan) :
    ∃ init, plan.run ++ plan.stop = init ++ [.terminate, .notifyAll, .joinAll] :=
  ⟨plan.run ++ .lower :: .clear .dmRun :: (plan.jobs .input ++ plan.jobs .output).map .clear ++
    [.joinMain], by simp [Plan.stop]⟩

/-- Where nobody parks, and no thread is taken back from termination. -/
theorem Awakened.frame {c c' : Control} (hA : Awakened c) (hcaller : c'.caller = c.caller)
    (hterm : c'.pool.shouldTerminate = c.pool.shouldTerminate)
    (hparked : c.pool.shouldTerminate = true → .parked ∈ c'.pool.threads →
      .parked ∈ c.pool.threads) : Awakened c' where
  terminating := fun h => hterm.trans (hA.terminating (hcaller ▸ h))
  woken := fun h hm => by
    rw [hcaller] at h
    exact hA.woken h (hparked (hA.terminating (h.trans (List.suffix_cons _ _))) hm)

theorem parked_goto {c : Control} {i : Nat} {w : Worker Task} (hw : w ≠ .parked)
    (h : .parked ∈ (c.pool.goto i w).threads) : .parked ∈ c.pool.threads :=
  (List.mem_or_eq_of_mem_set h).resolve_right (Ne.symm hw)

theorem Awakened.step {plan : Plan} {c c' : Control} {a : Act} (hA : Awakened c)
    (hP : Programs plan c) (h : Step plan c a c') : Awakened c' := by
  cases h with
  | @caller woken ins rest d hc hd =>
    obtain ⟨init, hprogram⟩ := program_concat plan
    have hexec := exec_cases hd
    constructor
    · intro hrest
      have hsuf := cons_suffix_of_tail hP hprogram hc hrest
      rcases List.suffix_cons_iff.mp hsuf with he | hsuf
      · obtain ⟨rfl, _⟩ := List.cons.inj he
        cases hexec
        rfl
      · have hterm := hA.terminating (hc ▸ hsuf)
        have hins : ins ∈ [Instr.notifyAll, .joinAll] := hsuf.mem List.mem_cons_self
        simp only [List.mem_cons, List.not_mem_nil, or_false] at hins
        rcases hins with rfl | rfl <;> cases hexec <;> exact hterm
    · intro hrest
      have hmiddle : plan.run ++ plan.stop =
          (init ++ [Instr.terminate]) ++ .notifyAll :: [.joinAll] := by
        rw [hprogram, List.append_assoc]
        rfl
      have hsuf := cons_suffix_of_tail hP hmiddle hc hrest
      rcases List.suffix_cons_iff.mp hsuf with he | hsuf
      · obtain ⟨rfl, _⟩ := List.cons.inj he
        cases hexec
        intro hm
        obtain ⟨t, _, ht⟩ := List.mem_map.mp hm
        cases t <;> cases ht
      · have hins : ins ∈ [Instr.joinAll] := hsuf.mem List.mem_cons_self
        obtain rfl := List.mem_singleton.mp hins
        cases hexec
        exact List.not_mem_nil
  | mainTest | mainRound => exact ⟨hA.terminating, hA.woken⟩
  | @main woken ins todo d hm hd =>
    have hins := early_of_main hP hm
    have hcaller := exec_caller hd
    refine hA.frame hcaller (exec_flags hins hd).2 fun _ hparked => ?_
    exact ((exec_early_threads hins hd).2 _ hparked).resolve_right nofun
  | threadLoop hp =>
    obtain ⟨_, ⟨_, rfl⟩ | ⟨hterm, _, rfl⟩ | ⟨_, _, _, _, rfl⟩⟩ := Pool.threadLoop_cases hp
    · exact hA.frame rfl rfl fun _ => parked_goto nofun
    · exact hA.frame rfl rfl fun hup => absurd (hterm.symm.trans hup) nofun
    · exact hA.frame rfl rfl fun _ => parked_goto nofun
  | spurious hp =>
    obtain ⟨_, rfl⟩ := Pool.wake_eq_some hp
    exact hA.frame rfl rfl fun _ => parked_goto nofun
  | work =>
    refine hA.frame rfl rfl fun _ => parked_goto ?_
    split <;> exact nofun

theorem run_waiting {plan : Plan} {uninitialised : Bool} {acts : List Act} {c : Control}
    (hrun : run (step plan) (start plan uninitialised) acts = some c) :
    Created c ∧ Awakened c := by
  have h := run_invariant (I := fun c => Programs plan c ∧ Created c ∧ Awakened c)
    (fun _ _ _ hI h => ⟨hI.1.step (step_cases h), hI.2.1.step (step_cases h),
      hI.2.2.step hI.1 (step_cases h)⟩) ⟨programs_start plan uninitialised, ?_, ?_⟩ hrun
  · exact h.2
  · exact Or.inl (List.mem_append_left _ (List.mem_append_right _ List.mem_cons_self))
  · have hlong : ¬ (start plan uninitialised).caller <:+ [.notifyAll, .joinAll] := fun h => by
      have hlen := h.length_le
      simp [start, Plan.run, Plan.stop] at hlen
      omega
    exact ⟨fun h => absurd h hlong, fun h => absurd (h.trans (List.suffix_cons _ _)) hlong⟩

/-- A thread of the calling program or of a round can go on unless it has to wait. -/
theorem exec_enabled (c : Control) {ins : Instr}
    (h : ins = .notify ∨ ∃ job, ins = .push job) : ∃ woken d, c.exec woken ins = some d := by
  rcases h with rfl | ⟨job, rfl⟩
  · by_cases hparked : c.pool.threads.any Worker.isParked = true
    · obtain ⟨t, hmem, ht⟩ := List.any_eq_true.mp hparked
      cases t with
      | parked =>
        obtain ⟨i, hi⟩ := Pool.mem_threads_iff.mp hmem
        have hi : c.pool.threads[i]? = some .parked := hi
        refine ⟨some i, { c with pool := c.pool.goto i .awake }, ?_⟩
        simp only [exec, Pool.notifyOne, Pool.wake, hi, Option.map_some]
      | awake | running | terminated => cases ht
    · refine ⟨none, c, ?_⟩
      simp only [exec, Pool.notifyOne, hparked, Bool.false_eq_true, ite_false, Option.map_some]
  · exact ⟨none, _, rfl⟩

/-- The `runJobs` thread can go on until it has finished. -/
theorem main_enabled {plan : Plan} {c : Control} (hP : Programs plan c)
    (hstarted : c.main ≠ .notStarted) (hrunning : c.main ≠ .finished) :
    ∃ woken d, step plan c (.main woken) = some d := by
  cases hm : c.main with
  | notStarted => exact absurd hm hstarted
  | finished => exact absurd hm hrunning
  | test => exact ⟨none, _, by simp only [step, hm]; rfl⟩
  | round todo =>
    cases todo with
    | nil => exact ⟨none, _, by simp only [step, hm]; rfl⟩
    | cons ins todo =>
      obtain ⟨woken, d, hd⟩ := exec_enabled c (mem_proxyRun ((hP.main _ hm).mem List.mem_cons_self))
      exact ⟨woken, { d with main := .round todo }, by simp only [step, hm, hd, Option.map_some]⟩

/-- A thread of a terminating pool that has been woken leaves its loop. -/
theorem threadLoop_enabled {plan : Plan} {c : Control} {i : Nat} (hi : c.pool.At i .awake)
    (hterm : c.pool.shouldTerminate = true) : ∃ d, step plan c (.threadLoop i) = some d := by
  have hi : c.pool.threads[i]? = some .awake := hi
  exact ⟨_, by simp only [step, Pool.threadLoop, hi, hterm, ite_true, Option.map_some]; rfl⟩

end Control

/-! ### What is left to do -/

/-- The steps that are left from a place of a job on, apart from those for messages. -/
def Pc.effort : Pc → Nat
  | .enter => 6
  | .body => 5
  | .move => 4
  | .write | .opening => 3
  | .test => 2

/-- The steps that an instruction brings about, of its own thread and of those it wakes. -/
def Instr.effort (threads : Nat) : Instr → Nat
  | .push _ => 7
  | .notify => 2
  | .notifyAll => threads + 1
  | _ => 1

/-- The steps that are left of the round of `runJobs`. -/
def MainThread.effort : MainThread → Nat
  | .notStarted | .finished => 0
  | .test => 1
  | .round todo => (todo.map (Instr.effort 0)).sum + 2

namespace System

/-- The steps that are left of what pool thread `i` is doing. -/
def effort (s : System) (i : Nat) : Worker Task → Nat
  | .awake => 1
  | .parked | .terminated => 0
  | .running t =>
    t.pc.effort + (if t.pc = .write then (s.rest (t.job, i)).length else 0) +
      if t = ⟨.dmRun, .body⟩ then
        s.pipe.sweep.left s.pipe.manager.inQueues.length s.pipe.manager.outQueues.length
      else 0

/-- What is left to do until `stop()` returns. -/
def rank (s : System) : Nat :=
  (s.control.caller.map (Instr.effort s.control.pool.threads.length)).sum +
    s.control.main.effort + 6 * s.control.pool.jobs.length +
    (s.control.pool.threads.mapIdx s.effort).sum + s.pipe.backlog

/-- A step that a thread of the framework takes on its way to the end of `stop()`. -/
def Act.works : Act → Bool
  | .push .. | .control (.spurious _) => false
  | .control _ => true

/-- How much a step adds to what is left. -/
def Act.adds (outQueues : Nat) : Act → Nat
  | .push .. => outQueues
  | .control (.spurious _) => 1
  | .control _ => 0

/-! ### A step of a job -/

/-- Where a thread stands when its job continues at a place, or has returned. -/
def after (job : Job) : Option Pc → Worker Task
  | some pc => .running ⟨job, pc⟩
  | none => .awake

@[simp] theorem effort_awake (s : System) (i : Nat) : s.effort i .awake = 1 := rfl

@[simp] theorem effort_enter (s : System) (i : Nat) (job : Job) :
    s.effort i (.running ⟨job, .enter⟩) = 6 := by
  simp [effort, Pc.effort]

@[simp] theorem effort_test (s : System) (i : Nat) (job : Job) :
    s.effort i (.running ⟨job, .test⟩) = 2 := by
  simp [effort, Pc.effort]

@[simp] theorem effort_move (s : System) (i : Nat) (job : Job) :
    s.effort i (.running ⟨job, .move⟩) = 4 := by
  simp [effort, Pc.effort]

@[simp] theorem effort_write (s : System) (i : Nat) (job : Job) :
    s.effort i (.running ⟨job, .write⟩) = 3 + (s.rest (job, i)).length := by
  simp [effort, Pc.effort]

theorem effort_body (s : System) (i : Nat) :
    s.effort i (.running ⟨.dmRun, .body⟩) =
      5 + s.pipe.sweep.left s.pipe.manager.inQueues.length s.pipe.manager.outQueues.length := by
  simp [effort, Pc.effort]

theorem le_effort (s : System) (i : Nat) (t : Task) : t.pc.effort ≤ s.effort i (.running t) :=
  (Nat.le_add_right _ _).trans (Nat.le_add_right _ _)

/-- A job that neither begins nor loops lowers what is left. -/
theorem Worked.effort {plan : Plan} {s d : System} {i : Nat} {isRunning : Bool} {t : Task}
    {pc' : Option Pc} (h : Worked plan s i isRunning t pc' d) (hT : Tidy plan s)
    (ht : s.control.pool.At i (.running t)) (hw : Pipe.Wired plan.popId s.pipe)
    (hup : plan.sets t.job = true → isRunning = false)
    (hpc : plan.sets t.job = true → t.pc ≠ .enter) :
    d.effort i (after t.job pc') + d.pipe.backlog + 1 ≤
      s.effort i (.running t) + s.pipe.backlog := by
  have hle := s.le_effort i t
  cases h with
  | begins hsets => exact absurd rfl (hpc hsets)
  | swept h hne =>
    have hstep := Pipe.next_cases h
    have hleft := hstep.left hw.sweep hne
    have hbacklog := hstep.backlog_sweep hw.sweep
    simp only [after, effort_body, hstep.inQueues_length, hstep.outQueues_length, hbacklog]
    omega
  | passed h =>
    have hbacklog := (Pipe.next_cases h).backlog_sweep hw.sweep
    simp only [after, effort_test, Pc.effort] at hle ⊢
    omega
  | goesOn hsets hgo => exact absurd (hup hsets) (hgo ▸ nofun)
  | opened =>
    simp only [after, effort_test, Pc.effort] at hle ⊢
    omega
  | found hp hplace h =>
    have hbacklog := (Pipe.next_cases h).backlog_popTest
    rcases hplace with rfl | rfl <;> simp only [after, effort_move, Pc.effort] at hle ⊢ <;> omega
  | foundNothing hp hplace h =>
    have hbacklog := (Pipe.next_cases h).backlog_popTest
    rcases hplace with ⟨rfl, rfl⟩ | ⟨rfl, rfl⟩ <;>
      simp only [after, effort_test, effort_awake, Pc.effort] at hle ⊢ <;> omega
  | @moved job pipe hp h =>
    have hbacklog := (Pipe.next_cases h).backlog_popMove
    have hempty : s.rest (job, i) = [] := by
      by_contra hr
      cases Option.some.inj ((hT.rest job i hr).symm.trans ht)
    simp only [after, effort_write, effort_move, Function.update_self, hempty, List.nil_append]
    omega
  | @handled job it rest hp hr =>
    simp only [after, effort_write, Function.update_self, hr, List.length_cons]
    omega
  | finished hp hr hplace =>
    rcases hplace with rfl | rfl <;> simp only [after, effort_test, effort_awake, effort_write] <;>
      omega
  | @leaves job pc =>
    cases pc <;> simp only [after, effort_awake, Pc.effort] at hle ⊢ <;> omega

/-- What stays of the queues in a step of a job. -/
theorem Worked.frame {plan : Plan} {s d : System} {i : Nat} {isRunning : Bool} {t : Task}
    {pc' : Option Pc} (h : Worked plan s i isRunning t pc' d) :
    d.pipe.manager.inQueues.length = s.pipe.manager.inQueues.length ∧
      d.pipe.manager.outQueues.length = s.pipe.manager.outQueues.length ∧
      (t.job ≠ .dmRun → d.pipe.sweep = s.pipe.sweep) := by
  cases h with
  | swept h | passed h =>
    have hstep := Pipe.next_cases h
    exact ⟨hstep.inQueues_length, hstep.outQueues_length, fun hne => absurd rfl hne⟩
  | found _ _ h | foundNothing _ _ h | moved _ h =>
    have hstep := Pipe.next_cases h
    exact ⟨hstep.inQueues_length, hstep.outQueues_length, fun _ => hstep.sweep_eq nofun⟩
  | begins | goesOn | opened | handled | finished | leaves => exact ⟨rfl, rfl, fun _ => rfl⟩

/-- A step of a job lowers what is left. -/
theorem rank_work {plan : Plan} {s d : System} {i : Nat} {t : Task} {outcome : Bool}
    (hT : Tidy plan s) (hw : Pipe.Wired plan.popId s.pipe)
    (hS : Control.Stopping plan s.control) (hload : s.control.load .dmRun ≤ 1)
    (ht : s.control.pool.At i (.running t)) (he : s.effect plan i t outcome = some d) :
    rank { d with control := s.control.work plan i t outcome } + 1 ≤ rank s := by
  have hworked := worked_of_effect he (s.control.flags t.job)
  have hown := hworked.own hT ht
  obtain ⟨hin, hout, hsweep⟩ := hworked.frame
  have heffort := hworked.effort hT ht hw (fun hsets => (hS.cleared _ hsets).flag)
    fun hsets hpc => ((hS.cleared _ hsets).settled hsets).entering
      (Pool.mem_threads_iff.mpr ⟨i, hpc ▸ ht⟩)
  have hafter : (s.control.work plan i t outcome).pool.threads =
      s.control.pool.threads.set i (after t.job (plan.next (s.control.flags t.job) outcome t)) := by
    unfold Control.work
    cases plan.next (s.control.flags t.job) outcome t <;> rfl
  have hsum := sum_mapIdx_set ht (f := s.effort) (g := d.effort) ?_
    (after t.job (plan.next (s.control.flags t.job) outcome t))
  · have hsame : effort { d with control := s.control.work plan i t outcome } = d.effort := rfl
    rw [← hafter] at hsum
    unfold rank
    simp only [hsame, hafter, List.length_set] at hsum ⊢
    simp only [Control.work, Pool.goto]
    omega
  · intro k x hne hk
    cases x with
    | awake | parked | terminated => rfl
    | running u =>
      have hrest : d.rest (u.job, k) = s.rest (u.job, k) :=
        hown.restOther _ fun h => hne (congrArg Prod.snd h)
      have hleft : u = ⟨.dmRun, .body⟩ → d.pipe.sweep = s.pipe.sweep := by
        rintro rfl
        apply hsweep
        intro hjob
        obtain ⟨job, pc⟩ := t
        obtain rfl : job = .dmRun := hjob
        exact hne (Control.eq_of_running hload ht hk)
      by_cases hu : u = ⟨.dmRun, .body⟩
      · simp only [effort, hrest, hin, hout, hleft hu]
      · simp only [effort, hrest, hu, ite_false]

/-! ### A step of another kind -/

/-- What `notify_all` does to a thread. -/
def notified (w : Worker Task) : Worker Task := if Worker.isParked w then .awake else w

theorem effort_notified (s : System) (i : Nat) (w : Worker Task) :
    s.effort i (notified w) ≤ s.effort i w + 1 := by
  cases w with
  | parked => exact Nat.le_refl 1
  | awake | running | terminated => exact Nat.le_succ _

/-- Waking all parked threads adds a step for each. -/
theorem sum_notified_le {f : Nat → Worker Task → Nat} (hf : ∀ k w, f k (notified w) ≤ f k w + 1)
    (threads : List (Worker Task)) :
    ((threads.map notified).mapIdx f).sum ≤ (threads.mapIdx f).sum + threads.length := by
  induction threads generalizing f with
  | nil => exact Nat.le_refl _
  | cons w threads ih =>
    have htail := ih fun k => hf (k + 1)
    have hhead := hf 0 w
    simp only [List.map_cons, List.mapIdx_cons, List.sum_cons, List.length_cons]
    omega

/-- Moving one thread moves its share. -/
theorem sum_goto {s : System} {i : Nat} {w : Worker Task} (hi : s.control.pool.At i w)
    (w' : Worker Task) :
    ((s.control.pool.goto i w').threads.mapIdx s.effort).sum + s.effort i w =
      (s.control.pool.threads.mapIdx s.effort).sum + s.effort i w' :=
  sum_mapIdx_set hi (fun _ _ _ _ => rfl) w'

theorem length_goto (p : Pool Job Task) (i : Nat) (w : Worker Task) :
    (p.goto i w).threads.length = p.threads.length := List.length_set

/-- An instruction lowers what is left by what it stands for, but for its own step. -/
theorem rank_exec {s : System} {woken : Option Nat} {ins : Instr} {d : Control}
    (hins : ins.late = true ∨ ins = .notify ∨ ∃ job, ins = .push job)
    (h : s.control.exec woken ins = some d) :
    d.pool.threads.length ≤ s.control.pool.threads.length ∧
      6 * d.pool.jobs.length + (d.pool.threads.mapIdx s.effort).sum + 1 ≤
        6 * s.control.pool.jobs.length + (s.control.pool.threads.mapIdx s.effort).sum +
          ins.effort s.control.pool.threads.length := by
  cases Control.exec_cases h with
  | spawn | raise | startMain | lower =>
    rcases hins with hl | he | ⟨_, he⟩
    · cases hl
    · cases he
    · cases he
  | push =>
    refine ⟨Nat.le_refl _, ?_⟩
    simp only [Pool.queueJob, List.length_append, List.length_singleton, Instr.effort]
    omega
  | notifyNobody | clear | joinMain | terminate =>
    refine ⟨Nat.le_refl _, ?_⟩
    simp only [Instr.effort, Pool.terminate]
    omega
  | notify hi =>
    have hsum := sum_goto hi .awake
    refine ⟨Nat.le_of_eq (length_goto ..), ?_⟩
    simp only [Instr.effort, effort, Pool.goto] at hsum ⊢
    omega
  | notifyAll =>
    have hsum := sum_notified_le s.effort_notified s.control.pool.threads
    refine ⟨Nat.le_of_eq (List.length_map _), ?_⟩
    have hthreads : s.control.pool.notifyAll.threads = s.control.pool.threads.map notified := rfl
    simp only [hthreads, Instr.effort]
    simp only [Pool.notifyAll]
    omega
  | joinAll =>
    refine ⟨Nat.zero_le _, ?_⟩
    simp only [List.mapIdx_nil, List.sum_nil, Instr.effort]
    omega

theorem effort_mono (ins : Instr) {k n : Nat} (h : k ≤ n) : ins.effort k ≤ ins.effort n := by
  cases ins with
  | notifyAll => exact Nat.succ_le_succ h
  | spawn | raise | push | notify | startMain | lower | clear | joinMain | terminate | joinAll =>
    exact Nat.le_refl _

theorem sum_effort_mono (program : List Instr) {k n : Nat} (h : k ≤ n) :
    (program.map (Instr.effort k)).sum ≤ (program.map (Instr.effort n)).sum := by
  induction program with
  | nil => exact Nat.le_refl _
  | cons ins program ih => exact Nat.add_le_add (effort_mono ins h) ih

/-- A step of the threads that is not one of a job lowers what is left, except that a thread
wakes without reason. -/
theorem rank_control {plan : Plan} {s : System} {a : Control.Act} {c : Control}
    (hP : Control.Programs plan s.control) (hS : Control.Stopping plan s.control)
    (ha : ∀ i outcome, a ≠ .work i outcome) (h : Control.Step plan s.control a c) (n : Nat) :
    rank { s with control := c } + (if Act.works (.control a) then 1 else 0) ≤
      rank s + Act.adds n (.control a) := by
  have hsame : ∀ c, effort { s with control := c } = s.effort := fun _ => rfl
  cases h with
  | @caller woken ins rest d hc hd =>
    have hmem : ins ∈ [.joinMain, .terminate, .notifyAll, .joinAll] :=
      hS.caller.mem (hc ▸ List.mem_cons_self)
    have hlate : ins.late = true := by
      simp only [List.mem_cons, List.not_mem_nil, or_false] at hmem
      rcases hmem with rfl | rfl | rfl | rfl <;> rfl
    obtain ⟨hlen, hexec⟩ := rank_exec (Or.inl hlate) hd
    have hrest := sum_effort_mono rest hlen
    have hmain : d.main = s.control.main := by
      rcases Control.exec_main hd with he | ⟨rfl, _⟩
      · exact he
      · cases hlate
    simp only [rank, hsame, hc, hmain, List.map_cons, List.sum_cons, Act.works, Act.adds,
      ite_true]
    omega
  | mainTest hm =>
    simp only [rank, hsame, hm, hS.isRunning, Bool.false_eq_true, ite_false, MainThread.effort,
      Act.works, Act.adds, ite_true]
    omega
  | mainRound hm =>
    simp only [rank, hsame, hm, MainThread.effort, List.map_nil, List.sum_nil, Act.works,
      Act.adds, ite_true]
    omega
  | @main woken ins todo d hm hd =>
    have hins := Control.mem_proxyRun ((hP.main _ hm).mem List.mem_cons_self)
    obtain ⟨hlen, hexec⟩ := rank_exec (Or.inr hins) hd
    have hcaller := sum_effort_mono s.control.caller hlen
    have hsmall : ins.effort s.control.pool.threads.length = ins.effort 0 := by
      rcases hins with rfl | ⟨_, rfl⟩ <;> rfl
    have hdcaller := Control.exec_caller hd
    simp only [rank, hsame, hm, hdcaller, MainThread.effort, List.map_cons, List.sum_cons,
      Act.works, Act.adds, ite_true]
    omega
  | threadLoop hp =>
    obtain ⟨hi, ⟨_, rfl⟩ | ⟨_, _, rfl⟩ | ⟨job, jobs, _, hj, rfl⟩⟩ := Pool.threadLoop_cases hp
    · have hsum := sum_goto hi .terminated
      simp only [effort] at hsum
      simp only [rank, hsame, length_goto, Act.works, Act.adds, ite_true]
      simp only [Pool.goto] at hsum ⊢
      omega
    · have hsum := sum_goto hi .parked
      simp only [effort] at hsum
      simp only [rank, hsame, length_goto, Act.works, Act.adds, ite_true]
      simp only [Pool.goto] at hsum ⊢
      omega
    · have hsum := sum_goto hi (.running ⟨job, .enter⟩)
      simp only [rank, hsame, length_goto, hj, List.length_cons, Act.works, Act.adds, ite_true]
      simp only [Pool.goto, effort_awake, effort_enter] at hsum ⊢
      omega
  | spurious hp =>
    obtain ⟨hi, rfl⟩ := Pool.wake_eq_some hp
    have hsum := sum_goto hi .awake
    simp only [effort] at hsum
    simp only [rank, hsame, length_goto, Act.works, Act.adds, Bool.false_eq_true, ite_false]
    simp only [Pool.goto] at hsum ⊢
    omega
  | work => exact absurd rfl (ha _ _)

theorem rank_push {plan : Plan} {s : System} {text pushId : String} {m : Msg}
    {pipe : Pipe Runner Msg} (h : Pipe.next plan.popId s.pipe (.push m pushId) = some pipe)
    (accepted : List Msg) :
    rank { s with pipe, accepted } ≤
      rank s + Act.adds s.pipe.manager.outQueues.length (.push text pushId) := by
  have hstep := Pipe.next_cases h
  have hbacklog := hstep.backlog_push
  have hsame : effort { s with pipe, accepted } = s.effort := by
    funext i w
    cases w with
    | awake | parked | terminated => rfl
    | running t =>
      simp only [effort, hstep.sweep_eq nofun, hstep.inQueues_length, hstep.outQueues_length]
  simp only [rank, hsame, Act.adds]
  omega

/-! ### Along a run -/

/-- No flag is cleared while its job is still to start. -/
def ClearsSettled (plan : Plan) (s : System) : Act → Prop
  | .control a => Control.ClearsSettled plan s.control a
  | .push .. => True

instance (plan : Plan) (s : System) (a : Act) : Decidable (ClearsSettled plan s a) := by
  unfold ClearsSettled
  split <;> infer_instance

variable {plan : Plan} {uninitialised : Bool} {dm : DataManager Msg}

theorem stopping_of_run {acts : List Act} {s : System}
    (hrun : run (step plan) (start plan uninitialised dm) acts = some s)
    (hsettled : Meets (step plan) (ClearsSettled plan) (start plan uninitialised dm) acts)
    (hcleared : ∀ job, .clear job ∉ s.control.caller) : Control.Stopping plan s.control := by
  refine Control.stopping_of_run (run_control hrun) ?_ hcleared
  refine meets_part (f := System.control) (fun _ _ _ _ _ h => step_control h) (fun u a ha => ?_)
    hrun hsettled
  cases a with
  | push => exact meets_nil _ _ u.control
  | control a => exact meets_cons.mpr ⟨ha, fun c _ => meets_nil _ _ c⟩

/-- What is known of every state of a run. -/
structure Reached (plan : Plan) (dm : DataManager Msg) (s : System) : Prop where
  programs : Control.Programs plan s.control
  load : ∀ job, Control.isInput job = false → s.control.load job ≤ 1
  created : Control.Created s.control
  awakened : Control.Awakened s.control
  tidy : Tidy plan s
  wired : Pipe.Wired plan.popId s.pipe
  outQueues : s.pipe.manager.outQueues.length = dm.outQueues.length

theorem reached_of_run (hdm : dm.Registered) {acts : List Act} {s : System}
    (hrun : run (step plan) (start plan uninitialised dm) acts = some s) : Reached plan dm s where
  programs := Control.run_programs (run_control hrun)
  load := fun _ hj => Control.run_load_le (run_control hrun) hj
  created := (Control.run_waiting (run_control hrun)).1
  awakened := (Control.run_waiting (run_control hrun)).2
  tidy := run_tidy hrun
  wired := (run_piped hrun).elim fun _ hp => Pipe.run_wired hdm hp.run
  outQueues := (run_piped hrun).elim fun _ hp => (Pipe.run_sizes hp.run).2.1

/-- Once `stop()` only waits, every step lowers what is left, except that somebody pushes or
that a thread wakes without reason. -/
theorem rank_step {s s' : System} {a : Act} (hR : Reached plan dm s)
    (hS : Control.Stopping plan s.control) (h : step plan s a = some s') :
    rank s' + (if a.works then 1 else 0) ≤ rank s + a.adds dm.outQueues.length := by
  unfold System.step at h
  split at h
  · obtain ⟨pipe, hpipe, h⟩ := Option.bind_eq_some_iff.mp h
    cases h
    rw [← hR.outQueues]
    exact rank_push hpipe _
  · split at h
    · rename_i ht
      obtain ⟨d, hd, rfl⟩ := Option.map_eq_some_iff.mp h
      exact rank_work hR.tidy hR.wired hS (hR.load .dmRun rfl) ht hd
    · contradiction
  · rename_i a hno
    obtain ⟨c, hc, rfl⟩ := Option.map_eq_some_iff.mp h
    exact rank_control hR.programs hS (fun i outcome he => hno i outcome he)
      (Control.step_cases hc) _

/-! ### Somebody can go on -/

theorem popTest_enabled {s : System} (hw : Pipe.Wired plan.popId s.pipe) {r : Runner}
    (hr : s.pipe.calls r = .idle) : ∃ outcome d, s.popTest plan r outcome = some d := by
  obtain ⟨pipe, hpipe⟩ := hw.popTest_enabled hr
  refine ⟨decide (pipe.calls r ≠ .idle), { s with pipe }, ?_⟩
  simp only [popTest, hpipe, Option.bind_eq_bind, Option.bind_some, ite_true]

theorem popMove_enabled {s : System} (hw : Pipe.Wired plan.popId s.pipe) {r : Runner}
    (hr : s.pipe.calls r ≠ .idle) : ∃ d, s.popMove plan r = some d := by
  obtain ⟨pipe, hpipe⟩ := hw.popMove_enabled hr
  exact ⟨_, by simp only [popMove, hpipe, Option.bind_eq_bind, Option.bind_some]; rfl⟩

/-- A job can always take a step, where no consumer is an input node. -/
theorem effect_enabled (hin : ∀ n ∈ plan.inNodes, n.type ≠ .CONSUMER) {s : System}
    (hR : Reached plan dm s) {i : Nat} {t : Task} (ht : s.control.pool.At i (.running t)) :
    ∃ outcome d, s.effect plan i t outcome = some d := by
  obtain ⟨job, pc⟩ := t
  have hidle : pc ≠ .move → s.pipe.calls (job, i) = .idle := fun hpc => by
    by_contra hc
    cases Option.some.inj (((hR.tidy.calls job i).mp hc).symm.trans ht)
    exact hpc rfl
  cases job with
  | dmRun =>
    cases pc with
    | body =>
      obtain ⟨pipe, hpipe⟩ := hR.wired.sweep_enabled
      refine ⟨decide (pipe.sweep ≠ .idle), { s with pipe }, ?_⟩
      have hsweep : s.pipe.sweepNext = some pipe := hpipe
      simp only [effect, dmEffect, hsweep, Option.bind_eq_bind, Option.bind_some, ite_true]
    | enter | opening | test | move | write => exact ⟨true, s, rfl⟩
  | nodeRun side k =>
    simp only [effect]
    split
    · rename_i hc
      have hside : side = .output := by
        cases side with
        | output => rfl
        | input =>
          obtain ⟨n, hn, htype⟩ := Option.map_eq_some_iff.mp hc
          exact absurd htype (hin n (List.mem_of_getElem? hn))
      subst hside
      cases pc with
      | enter | opening | test => exact ⟨false, s, rfl⟩
      | body => exact popTest_enabled hR.wired (hidle (by decide))
      | move =>
        obtain ⟨d, hd⟩ := popMove_enabled hR.wired ((hR.tidy.calls _ i).mpr ht)
        refine ⟨true, d, ?_⟩
        -- one thread executes the job, so nobody else iterates over its vector
        have halone : .running ⟨.nodeRun .output k, .write⟩ ∉ s.control.pool.threads := by
          intro hm
          obtain ⟨x, hx⟩ := Pool.mem_threads_iff.mp hm
          obtain rfl := Control.eq_of_running (hR.load _ rfl) ht hx
          cases Option.some.inj (hx.symm.trans ht)
        simp only [consumerEffect, halone, ite_false, hd]
      | write =>
        cases hr : s.rest (.nodeRun .output k, i) with
        | nil => exact ⟨false, s, by simp only [consumerEffect, hr]⟩
        | cons it rest => exact ⟨true, _, by simp only [consumerEffect, hr]; rfl⟩
    · cases pc with
      | opening | test | body => exact ⟨true, s, rfl⟩
      | enter => exact popTest_enabled hR.wired (hidle (by decide))
      | move =>
        obtain ⟨d, hd⟩ := popMove_enabled hR.wired ((hR.tidy.calls _ i).mpr ht)
        exact ⟨true, d, hd⟩
      | write =>
        cases hr : s.rest (.nodeRun side k, i) with
        | nil => exact ⟨false, s, by simp only [clientEffect, hr]⟩
        | cons it rest => exact ⟨true, _, by simp only [clientEffect, hr]; rfl⟩
    · exact ⟨true, s, rfl⟩

theorem enabled_of_control {s : System} {a : Control.Act} {c : Control}
    (ha : ∀ i outcome, a ≠ .work i outcome) (h : Control.step plan s.control a = some c) :
    ∃ s', step plan s (.control a) = some s' := by
  cases a with
  | work i outcome => exact absurd rfl (ha i outcome)
  | caller | main | threadLoop | spurious =>
    exact ⟨{ s with control := c }, by simp only [step, h, Option.map_some]⟩

/-- While the pool is joined, a thread that has not left its loop can take a step. -/
theorem thread_enabled (hin : ∀ n ∈ plan.inNodes, n.type ≠ .CONSUMER) {s : System}
    (hR : Reached plan dm s) (hjoin : s.control.caller <:+ [.joinAll]) {w : Worker Task}
    (hw : w ∈ s.control.pool.threads) (hne : w ≠ .terminated) :
    ∃ a, Act.works a = true ∧ ∃ s', step plan s a = some s' := by
  obtain ⟨i, hi⟩ := Pool.mem_threads_iff.mp hw
  cases w with
  | terminated => exact absurd rfl hne
  | parked => exact absurd hw (hR.awakened.woken hjoin)
  | awake =>
    have hterm := hR.awakened.terminating (hjoin.trans (List.suffix_cons _ _))
    obtain ⟨c, hc⟩ := Control.threadLoop_enabled hi hterm
    exact ⟨.control (.threadLoop i), rfl, enabled_of_control nofun hc⟩
  | running t =>
    obtain ⟨outcome, d, hd⟩ := effect_enabled hin hR hi
    have hi : s.control.pool.threads[i]? = some (.running t) := hi
    exact ⟨.control (.work i outcome), rfl, _, by simp only [step, hi, hd, Option.map_some]; rfl⟩

/-- Until `stop()` has returned some thread of the framework can take a step. -/
theorem works_enabled (hin : ∀ n ∈ plan.inNodes, n.type ≠ .CONSUMER) {s : System}
    (hR : Reached plan dm s) (hS : Control.Stopping plan s.control)
    (hne : s.control.caller ≠ []) : ∃ a, Act.works a = true ∧ ∃ s', step plan s a = some s' := by
  have hcaller : ∀ {ins rest d}, s.control.caller = ins :: rest →
      s.control.exec none ins = some d →
      ∃ a, Act.works a = true ∧ ∃ s', step plan s a = some s' := by
    intro ins rest d hc hd
    refine ⟨.control (.caller none), rfl,
      enabled_of_control (fun _ _ he => by cases he) (c := { d with caller := rest }) ?_⟩
    simp only [Control.step, hc, hd, Option.map_some]
  have hmem : ∀ ins ∈ s.control.caller,
      ins ∈ [.joinMain, .terminate, .notifyAll, .joinAll] := fun _ h => hS.caller.mem h
  cases hc : s.control.caller with
  | nil => exact absurd hc hne
  | cons ins rest =>
    have hins := hmem ins (hc ▸ List.mem_cons_self)
    simp only [List.mem_cons, List.not_mem_nil, or_false] at hins
    rcases hins with rfl | rfl | rfl | rfl
    · by_cases hfinished : s.control.main = .finished
      · exact hcaller hc (d := s.control) (by simp only [Control.exec, hfinished, ite_true])
      · have hstarted := hR.created.resolve_left fun h => absurd (hmem _ h) (by decide)
        obtain ⟨woken, d, hd⟩ := Control.main_enabled hR.programs hstarted hfinished
        exact ⟨.control (.main woken), rfl,
          enabled_of_control (fun _ _ he => by cases he) hd⟩
    · exact hcaller hc rfl
    · exact hcaller hc rfl
    · have hjoin : s.control.caller <:+ [.joinAll] := by
        have hsuf := hS.caller
        rw [hc] at hsuf ⊢
        exact Control.suffix_of_cons_suffix (a := [Instr.joinMain, .terminate, .notifyAll])
          (b := [.joinAll]) (by decide) hsuf
      by_cases hall : s.control.pool.threads.all Worker.isTerminated = true
      · refine hcaller hc (d := { s.control with pool := { s.control.pool with threads := [] } }) ?_
        simp only [Control.exec, Pool.joinAll, hall, ite_true, Option.map_some]
      · rw [List.all_eq_true] at hall
        obtain ⟨w, hw, hterm⟩ : ∃ w ∈ s.control.pool.threads, ¬ Worker.isTerminated w = true := by
          simpa only [not_forall, exists_prop] using hall
        exact thread_enabled hin hR hjoin hw fun he => hterm (he ▸ rfl)

/-! ### From there on -/

/-- `stop()` goes on waiting with all flags cleared, however the run continues. -/
theorem stopping_later (hdm : dm.Registered) {acts : List Act} {s : System}
    (hrun : run (step plan) (start plan uninitialised dm) acts = some s)
    (hsettled : Meets (step plan) (ClearsSettled plan) (start plan uninitialised dm) acts)
    (hcleared : ∀ job, .clear job ∉ s.control.caller) {later : List Act} {t : System}
    (hlater : run (step plan) s later = some t) :
    Reached plan dm t ∧ Control.Stopping plan t.control := by
  refine run_history (I := fun _ u => Reached plan dm u ∧ Control.Stopping plan u.control)
    ⟨reached_of_run hdm hrun, stopping_of_run hrun hsettled hcleared⟩ ?_ hlater
  rintro before u a v hu ⟨hR, hS⟩ h
  have hv := run_append_eq_some.mpr ⟨s, hrun, run_concat_eq_some.mpr ⟨u, hu, h⟩⟩
  refine ⟨reached_of_run hdm hv, ?_⟩
  rcases (step_cases h).threads with he | ⟨a', ha'⟩
  · exact he ▸ hS
  · exact hS.step hR.programs ha'

end System

end DataPipeline
