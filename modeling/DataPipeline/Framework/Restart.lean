import DataPipeline.Framework.Shutdown

/-!
# `run()` after `stop()`

`ThreadPool::stop` sets `should_terminate`, and nothing clears it. A framework that is run
again gets new threads, which leave at once: what its further calls of `run()` queue, and
what the rounds of `runJobs` queue, is never taken out of the queue.
-/

namespace DataPipeline.Control

open Machine

variable {plan : Plan} {c c' d : Control}

/-- A step of a thread, or the next call of `run()` with the `stop()` that follows it. -/
inductive CycleAct where
  | step (a : Act)
  | again
  deriving DecidableEq, Repr

/-- A framework on which `run()` and `stop()` are called in turn. `stop()` has joined
`m_mainThread`, so that `run()` may assign to it. -/
def cycle (plan : Plan) : Machine Control CycleAct
  | c, .step a => step plan c a
  | c, .again =>
    if c.caller = [] then some { c with caller := plan.run ++ plan.stop, main := .notStarted }
    else none

/-- The pool is terminating and no thread of it executes a job. -/
structure Ended (c : Control) : Prop where
  terminating : c.pool.shouldTerminate = true
  nothing : ∀ i t, ¬ c.pool.At i (.running t)

/-- What is queued for a job, with what the calling thread has still to queue. -/
def demand (c : Control) (job : Job) : Nat :=
  c.pool.jobs.count job + c.caller.count (.push job)

/-- No job is taken out of the queue and none is forgotten. -/
structure Piles (c d : Control) : Prop where
  jobs : c.pool.jobs <+: d.pool.jobs
  demand : ∀ job, c.demand job ≤ d.demand job

theorem Piles.of_eq (hj : d.pool.jobs = c.pool.jobs) (hc : d.caller = c.caller) : Piles c d where
  jobs := by rw [hj]
  demand := fun job => by rw [Control.demand, Control.demand, hj, hc]

/-! ### The steps of the threads -/

/-- An instruction starts no job, and it takes none out of the queue. -/
theorem Exec.ended {woken : Option Nat} {ins : Instr} (h : Exec c woken ins d) (hE : Ended c) :
    Ended d ∧ c.pool.jobs <+: d.pool.jobs ∧
      ∀ job, d.pool.jobs.count job = c.pool.jobs.count job + [ins].count (.push job) := by
  have hsame : ∀ {ins : Instr}, (∀ job, ins ≠ .push job) →
      ∀ job, c.pool.jobs.count job = c.pool.jobs.count job + [ins].count (.push job) := by
    intro ins hne job
    rw [List.count_singleton, beq_false_of_ne (hne job)]
    rfl
  cases h with
  | push =>
    refine ⟨⟨hE.terminating, hE.nothing⟩, List.prefix_append _ _, fun job' => ?_⟩
    simp only [Pool.queueJob, List.count_append, List.count_singleton, beq_iff_eq,
      Instr.push.injEq]
  | spawn =>
    refine ⟨⟨hE.terminating, fun i t hi => ?_⟩, List.prefix_refl _, hsame (by intro _ he; cases he)⟩
    exact hE.nothing i t (Pool.running_spawn.mp hi)
  | notify hi =>
    refine ⟨⟨hE.terminating, fun k t hk => ?_⟩, List.prefix_refl _, hsame (by intro _ he; cases he)⟩
    exact hE.nothing k t ((Pool.running_wake hi).mp hk)
  | notifyAll =>
    refine ⟨⟨hE.terminating, fun i t hi => ?_⟩, List.prefix_refl _, hsame (by intro _ he; cases he)⟩
    exact hE.nothing i t (Pool.running_notifyAll.mp hi)
  | joinAll =>
    exact ⟨⟨hE.terminating, by intro _ _ hi; cases hi⟩, List.prefix_refl _, hsame (by intro _ he; cases he)⟩
  | terminate => exact ⟨⟨rfl, hE.nothing⟩, List.prefix_refl _, hsame (by intro _ he; cases he)⟩
  | raise | notifyNobody | startMain | lower | clear | joinMain =>
    exact ⟨⟨hE.terminating, hE.nothing⟩, List.prefix_refl _, hsame (by intro _ he; cases he)⟩

theorem Ended.goto (hE : Ended c) {i : Nat} {a : Worker Task} (ha : ∀ t, a ≠ .running t) :
    Ended { c with pool := c.pool.goto i a } where
  terminating := hE.terminating
  nothing := fun k t hk => by
    rcases Pool.at_goto hk with ⟨_, he⟩ | ⟨_, hk⟩
    · exact ha t he.symm
    · exact hE.nothing k t hk

/-- A thread that is awake leaves, and no other one gets a job. -/
theorem Ended.step {a : Act} (hE : Ended c) (h : Step plan c a c') : Ended c' ∧ Piles c c' := by
  cases h with
  | @caller woken ins rest d hc hd =>
    obtain ⟨hD, hjobs, hcount⟩ := (exec_cases hd).ended hE
    refine ⟨⟨hD.terminating, hD.nothing⟩, hjobs, fun job => ?_⟩
    simp only [demand, hc, hcount job, List.count_cons, List.count_nil]
    omega
  | @main woken ins todo d hm hd =>
    obtain ⟨hD, hjobs, hcount⟩ := (exec_cases hd).ended hE
    refine ⟨⟨hD.terminating, hD.nothing⟩, hjobs, fun job => ?_⟩
    simp only [demand, exec_caller hd, hcount job]
    omega
  | mainTest | mainRound => exact ⟨⟨hE.terminating, hE.nothing⟩, .of_eq rfl rfl⟩
  | threadLoop hp =>
    obtain ⟨_, ⟨_, rfl⟩ | ⟨hup, _⟩ | ⟨_, _, hup, _⟩⟩ := Pool.threadLoop_cases hp
    · exact ⟨hE.goto nofun, .of_eq rfl rfl⟩
    · exact absurd (hE.terminating.symm.trans hup) nofun
    · exact absurd (hE.terminating.symm.trans hup) nofun
  | spurious hp =>
    obtain ⟨_, rfl⟩ := Pool.wake_eq_some hp
    exact ⟨hE.goto nofun, .of_eq rfl rfl⟩
  | work ht => exact absurd ht (hE.nothing _ _)

/-! ### Whole runs -/

/-- When the first `stop()` has returned the pool has no threads and is terminating. -/
theorem ended_of_run {uninitialised : Bool} {acts : List Act}
    (hrun : run (step plan) (start plan uninitialised) acts = some c) (hdone : c.caller = []) :
    Ended c where
  terminating := (run_waiting hrun).2.terminating (hdone ▸ List.nil_suffix)
  nothing := fun i t hi => by
    have hjoined := run_invariant (I := fun c => Programs plan c ∧ Joined c)
      (fun _ _ _ hI h => ⟨hI.1.step (step_cases h), hI.2.step hI.1 (step_cases h)⟩)
      ⟨programs_start plan uninitialised, fun _ => rfl⟩ hrun
    have hmem := Pool.mem_threads_iff.mpr ⟨i, hi⟩
    rw [hjoined.2 hdone] at hmem
    exact absurd hmem List.not_mem_nil

/-- `run()` queues the job of the manager and those of the output nodes. -/
theorem one_le_count_run {job : Job} (hjob : job ∈ .dmRun :: plan.jobs .output) :
    1 ≤ (plan.run ++ plan.stop).count (.push job) := by
  apply List.one_le_count_iff.mpr
  apply List.mem_append_left
  simp only [Plan.run, Plan.proxyRun, queueJob, List.mem_append, List.mem_cons, List.mem_flatMap]
  rcases List.mem_cons.mp hjob with rfl | hjob
  · exact Or.inl (Or.inl (Or.inr (Or.inr (Or.inl rfl))))
  · exact Or.inl (Or.inr ⟨job, hjob, Or.inl rfl⟩)

/-- After the first `stop()` the framework does nothing any more. However often `run()` and
`stop()` are called again, and however the threads interleave, no thread executes a job and no
job leaves the queue; when the calls have returned, each `run()` has left there the job of the
manager and one for every output node. -/
theorem never_restarts {uninitialised : Bool} {acts : List Act}
    (hrun : run (step plan) (start plan uninitialised) acts = some c) (hdone : c.caller = [])
    {later : List CycleAct} (hlater : run (cycle plan) c later = some d) :
    (∀ i t, ¬ d.pool.At i (.running t)) ∧ c.pool.jobs <+: d.pool.jobs ∧
      (d.caller = [] → ∀ job ∈ .dmRun :: plan.jobs .output,
        c.pool.jobs.count job + later.count .again ≤ d.pool.jobs.count job) := by
  have h := run_history (I := fun later d => Ended d ∧ c.pool.jobs <+: d.pool.jobs ∧
      ∀ job ∈ .dmRun :: plan.jobs .output, c.demand job + later.count .again ≤ d.demand job)
    ⟨ended_of_run hrun hdone, List.prefix_refl _, fun _ _ => Nat.le_refl _⟩ ?_ hlater
  · obtain ⟨hE, hjobs, hdemand⟩ := h
    refine ⟨hE.nothing, hjobs, fun hnil job hjob => ?_⟩
    have := hdemand job hjob
    rwa [demand, demand, hdone, hnil, List.count_nil, Nat.add_zero] at this
  rintro before u a v hu ⟨hE, hjobs, hdemand⟩ h
  cases a with
  | step a =>
    obtain ⟨hE', hpiles⟩ := hE.step (step_cases h)
    refine ⟨hE', hjobs.trans hpiles.jobs, fun job hjob => ?_⟩
    have hsame : [CycleAct.step a].count .again = 0 := List.count_eq_zero_of_not_mem (by simp)
    rw [List.count_append, hsame]
    exact (hdemand job hjob).trans (hpiles.demand job)
  | again =>
    obtain ⟨hnil, he⟩ := Option.ite_none_right_eq_some.mp h
    obtain rfl := Option.some.inj he
    refine ⟨⟨hE.terminating, hE.nothing⟩, hjobs, fun job hjob => ?_⟩
    have hone := one_le_count_run hjob
    have hold := hdemand job hjob
    simp only [demand, hnil, List.count_nil] at hold
    simp only [demand, List.count_append, List.count_singleton_self] at hone ⊢
    omega

/-- One worker, one server and one consumer. -/
def oneWorker : Plan :=
  ⟨1, [⟨.TCPS, 50000, "TcpServer1"⟩], [⟨.CONSUMER, 50000, "Out1"⟩]⟩

/-- `run()` and `stop()`, the worker's first critical section coming when it is to leave. -/
def runAndStop : List Act :=
  List.replicate 11 (.caller none) ++ [.main none] ++ List.replicate 3 (.caller none) ++
    [.threadLoop 0, .caller none]

/-- Called twice, `run()` has queued the manager's job twice. -/
theorem never_restarts_one_worker : ∃ c d,
    run (step oneWorker) (start oneWorker false) runAndStop = some c ∧
      run (cycle oneWorker) c (.again :: runAndStop.map .step) = some d ∧
      c.pool.jobs.count .dmRun + 1 ≤ d.pool.jobs.count .dmRun := by
  obtain ⟨c, hrun, hdone⟩ : ∃ c, run (step oneWorker) (start oneWorker false) runAndStop = some c ∧
      c.caller = [] := ⟨_, rfl, rfl⟩
  obtain ⟨d, hlater, hnil⟩ : ∃ d,
      run (cycle oneWorker) c (.again :: runAndStop.map .step) = some d ∧ d.caller = [] := by
    cases hrun
    exact ⟨_, rfl, rfl⟩
  exact ⟨c, d, hrun, hlater,
    (never_restarts hrun hdone hlater).2.2 hnil .dmRun List.mem_cons_self⟩

end DataPipeline.Control
