import DataPipeline.Framework.Control
import DataPipeline.Topology.Wiring

/-!
# Whether a stop is lost

`stop()` clears the running flags, but the jobs themselves set them when a worker gets
to their first instruction. A cleared flag stays clear if, when it is cleared, no such
job is still to start: none in the queue, none at its first instruction, and none that
the current round of `runJobs` is going to queue.
-/

namespace DataPipeline

open Machine

/-- The instructions of `stop()` after the first. -/
def Instr.late : Instr → Bool
  | .clear _ | .joinMain | .terminate | .notifyAll | .joinAll => true
  | _ => false

namespace Control

/-! ### The order of the instructions -/

/-- A suffix that begins with something the first part does not have is in the second. -/
theorem suffix_of_cons_suffix {α : Type} {x : α} {l a b : List α} (hx : x ∉ a)
    (h : x :: l <:+ a ++ b) : x :: l <:+ b := by
  induction a with
  | nil => exact h
  | cons y a ih =>
    rcases List.suffix_cons_iff.mp h with he | h
    · exact absurd (List.mem_cons.mpr (Or.inl (List.cons.inj he).1)) hx
    · exact ih (fun hm => hx (List.mem_cons_of_mem y hm)) h

/-- The instructions of `Proxy::run`. -/
theorem mem_proxyRun {plan : Plan} {side : Side} {ins : Instr} (h : ins ∈ plan.proxyRun side) :
    ins = .notify ∨ ∃ job, ins = .push job := by
  obtain ⟨job, _, hmem⟩ := List.mem_flatMap.mp h
  simp only [queueJob, List.mem_cons, List.not_mem_nil, or_false] at hmem
  exact hmem.elim (fun he => Or.inr ⟨job, he⟩) Or.inl

theorem mem_run {plan : Plan} {ins : Instr} (h : ins ∈ plan.run) :
    ins = .spawn ∨ ins = .raise ∨ ins = .notify ∨ ins = .startMain ∨ ∃ job, ins = .push job := by
  simp only [Plan.run, queueJob, List.mem_append, List.mem_cons, List.not_mem_nil, or_false] at h
  rcases h with ((h | h | h | h) | h) | h
  · exact Or.inl (List.eq_of_mem_replicate h)
  · exact Or.inr (Or.inl h)
  · exact Or.inr (Or.inr (Or.inr (Or.inr ⟨_, h⟩)))
  · exact Or.inr (Or.inr (Or.inl h))
  · rcases mem_proxyRun h with h | ⟨job, h⟩
    · exact Or.inr (Or.inr (Or.inl h))
    · exact Or.inr (Or.inr (Or.inr (Or.inr ⟨job, h⟩)))
  · exact Or.inr (Or.inr (Or.inr (Or.inl h)))

theorem stop_eq (plan : Plan) :
    ∃ tail, plan.stop = .lower :: tail ∧ ∀ ins ∈ tail, ins.late = true := by
  refine ⟨_, rfl, fun ins h => ?_⟩
  simp only [List.append_eq, List.mem_append, List.mem_cons, List.not_mem_nil, or_false,
    List.mem_map] at h
  rcases h with (rfl | ⟨_, _, rfl⟩) | rfl | rfl | rfl | rfl <;> rfl

/-- Once a flag is to be cleared, only instructions of `stop()` are left. -/
theorem Programs.late {plan : Plan} {c : Control} (hP : Programs plan c) {job : Job}
    {rest : List Instr} (hc : c.caller = .clear job :: rest) : ∀ ins ∈ rest, ins.late = true := by
  obtain ⟨tail, hstop, htail⟩ := stop_eq plan
  have hsuf := hP.caller
  rw [hc, hstop, List.append_cons] at hsuf
  have hnot : Instr.clear job ∉ plan.run ++ [.lower] := by
    intro hm
    rcases List.mem_append.mp hm with hm | hm
    · rcases mem_run hm with he | he | he | he | ⟨_, he⟩ <;> cases he
    · cases List.mem_singleton.mp hm
  have hrest := suffix_of_cons_suffix hnot hsuf
  exact fun ins hins => htail ins (hrest.mem (List.mem_cons_of_mem _ hins))

/-- The framework's flag is raised before it is lowered. -/
theorem Programs.lower_mem {plan : Plan} {c : Control} (hP : Programs plan c)
    {rest : List Instr} (hc : c.caller = .raise :: rest) : .lower ∈ rest := by
  obtain ⟨tail, hstop, htail⟩ := stop_eq plan
  have hsuf := hP.caller
  rw [hc, hstop] at hsuf
  rcases List.suffix_or_suffix_of_suffix hsuf (List.suffix_append plan.run _) with h | h
  · rcases List.mem_cons.mp (h.mem (List.mem_cons_self ..)) with he | hm
    · cases he
    · cases htail _ hm
  · rcases List.suffix_cons_iff.mp h with he | h
    · cases (List.cons.inj he).1
    · exact h.mem (List.mem_cons_self ..)

theorem exec_isRunning {c d : Control} {woken : Option Nat} {ins : Instr}
    (h : c.exec woken ins = some d) :
    d.isRunning = if ins = .raise then true else if ins = .lower then false else c.isRunning := by
  cases exec_cases h <;> rfl

/-- After `stop()` has begun the framework's flag is down. -/
def Lowered (c : Control) : Prop := .lower ∈ c.caller ∨ c.isRunning = false

theorem Lowered.step {plan : Plan} {c c' : Control} {a : Act} (hL : Lowered c)
    (hP : Programs plan c) (h : Step plan c a c') : Lowered c' := by
  cases h with
  | @caller woken ins rest d hc hd =>
    unfold Lowered
    rw [exec_isRunning hd]
    by_cases hraise : ins = .raise
    · subst hraise
      exact Or.inl (hP.lower_mem hc)
    by_cases hlower : ins = .lower
    · subst hlower
      exact Or.inr rfl
    rw [if_neg hraise, if_neg hlower]
    apply hL.imp_left
    intro hm
    rw [hc] at hm
    exact (List.mem_cons.mp hm).resolve_left (Ne.symm hlower)
  | @main woken ins todo d hm hd =>
    have hins : ins ∈ plan.proxyRun .input := (hP.main _ hm).mem (List.mem_cons_self ..)
    unfold Lowered
    rw [exec_isRunning hd, exec_caller hd]
    rcases mem_proxyRun hins with rfl | ⟨_, rfl⟩ <;> exact hL
  | mainTest | mainRound | threadLoop | spurious | work => exact hL

theorem run_lowered {plan : Plan} {uninitialised : Bool} {acts : List Act} {c : Control}
    (hrun : run (step plan) (start plan uninitialised) acts = some c) : Lowered c := by
  have h := run_invariant (I := fun c => Programs plan c ∧ Lowered c)
    (fun _ _ _ hI h => ⟨hI.1.step (step_cases h), hI.2.step hI.1 (step_cases h)⟩)
    ⟨programs_start plan uninitialised, Or.inr rfl⟩ hrun
  exact h.2

/-! ### A flag that is cleared when its job is settled -/

/-- No job that would set the flag of `job` is still to start. -/
structure Settled (c : Control) (job : Job) : Prop where
  queue : job ∉ c.pool.jobs
  entering : .running ⟨job, .enter⟩ ∉ c.pool.threads
  main : .push job ∉ c.main.todo

instance (c : Control) (job : Job) : Decidable (Settled c job) :=
  decidable_of_iff (_ ∧ _ ∧ _)
    ⟨fun h => ⟨h.1, h.2.1, h.2.2⟩, fun h => ⟨h.queue, h.entering, h.main⟩⟩

/-- The flag of `job` is cleared for good: nothing is left that would set it. -/
structure Cleared (plan : Plan) (job : Job) (c : Control) : Prop where
  flag : c.flags job = false
  settled : plan.sets job = true → Settled c job
  isRunning : c.isRunning = false
  caller : ∀ ins ∈ c.caller, ins.late = true

/-- What is left to do elsewhere neither sets the flag nor starts a job that would. -/
theorem Cleared.exec {plan : Plan} {job : Job} {c d : Control} (hC : Cleared plan job c)
    {woken : Option Nat} {ins : Instr}
    (hins : ins.late = true ∨ ins = .notify ∨ ∃ j, ins = .push j)
    (hpush : plan.sets job = true → ins ≠ .push job) (h : c.exec woken ins = some d) :
    d.flags job = false ∧ (plan.sets job = true → job ∉ d.pool.jobs ∧
      .running ⟨job, .enter⟩ ∉ d.pool.threads) := by
  have hsame : plan.sets job = true → job ∉ c.pool.jobs ∧
      .running ⟨job, .enter⟩ ∉ c.pool.threads :=
    fun hsets => ⟨(hC.settled hsets).queue, (hC.settled hsets).entering⟩
  cases exec_cases h with
  | spawn | raise | startMain | lower =>
    rcases hins with hl | he | ⟨_, he⟩
    · cases hl
    · cases he
    · cases he
  | @push _ j =>
    refine ⟨hC.flag, fun hsets => ⟨fun hm => ?_, (hsame hsets).2⟩⟩
    rcases List.mem_append.mp hm with hm | hm
    · exact (hsame hsets).1 hm
    · exact hpush hsets (congrArg Instr.push (List.mem_singleton.mp hm).symm)
  | @clear _ j =>
    refine ⟨?_, hsame⟩
    by_cases he : job = j
    · subst he
      exact Function.update_self ..
    · exact (Function.update_of_ne he ..).trans hC.flag
  | notifyNobody | joinMain | terminate => exact ⟨hC.flag, hsame⟩
  | notifyAll =>
    refine ⟨hC.flag, fun hsets => ⟨(hsame hsets).1, fun hm => ?_⟩⟩
    obtain ⟨i, hi⟩ := Pool.mem_threads_iff.mp hm
    exact (hsame hsets).2 (Pool.mem_threads_iff.mpr ⟨i, Pool.running_notifyAll.mp hi⟩)
  | notify hi =>
    refine ⟨hC.flag, fun hsets => ⟨(hsame hsets).1, fun hm => ?_⟩⟩
    obtain ⟨k, hk⟩ := Pool.mem_threads_iff.mp hm
    exact (hsame hsets).2 (Pool.mem_threads_iff.mpr ⟨k, (Pool.running_wake hi).mp hk⟩)
  | joinAll => exact ⟨hC.flag, fun hsets => ⟨(hsame hsets).1, List.not_mem_nil⟩⟩

/-- No job goes back to its first instruction. -/
theorem next_ne_enter (plan : Plan) (isRunning outcome : Bool) (t : Task) :
    plan.next isRunning outcome t ≠ some .enter := by
  obtain ⟨job, pc⟩ := t
  unfold Plan.next
  split
  · cases pc <;> cases isRunning <;> cases outcome <;> exact nofun
  · split
    · cases pc <;> cases isRunning <;> cases outcome <;> exact nofun
    · cases pc <;> cases outcome <;> exact nofun
    · exact nofun

theorem Cleared.work {plan : Plan} {job : Job} {c : Control} (hC : Cleared plan job c) {i : Nat}
    {t : Task} (ht : c.pool.At i (.running t)) (outcome : Bool) :
    Cleared plan job (c.work plan i t outcome) where
  flag := by
    unfold Control.work
    dsimp only
    split
    · rename_i hset
      by_cases he : job = t.job
      · subst he
        have hpc := hset.1
        obtain ⟨tjob, tpc⟩ := t
        dsimp only at hpc
        subst hpc
        exact absurd (Pool.mem_threads_iff.mpr ⟨i, ht⟩) (hC.settled hset.2).entering
      · exact (Function.update_of_ne he ..).trans hC.flag
    · exact hC.flag
  settled := fun hsets => by
    have hS := hC.settled hsets
    refine ⟨hS.queue, fun hm => ?_, hS.main⟩
    obtain ⟨k, hk⟩ := Pool.mem_threads_iff.mp hm
    rcases Pool.at_goto hk with ⟨_, he⟩ | ⟨_, hk⟩
    · split at he
      · rename_i pc hn
        cases he
        exact next_ne_enter plan _ _ _ hn
      · cases he
    · exact hS.entering (Pool.mem_threads_iff.mpr ⟨k, hk⟩)
  isRunning := hC.isRunning
  caller := hC.caller

/-- Moving one thread keeps a flag clear unless it starts the job. -/
theorem Cleared.goto {plan : Plan} {job : Job} {c : Control} (hC : Cleared plan job c)
    {jobs : List Job} (hjobs : ∀ j ∈ jobs, j ∈ c.pool.jobs) {i : Nat} {t : Worker Task}
    (ht : plan.sets job = true → t ≠ .running ⟨job, .enter⟩) :
    Cleared plan job { c with pool := { c.pool with jobs }.goto i t } where
  flag := hC.flag
  settled := fun hsets => by
    have hS := hC.settled hsets
    refine ⟨fun hm => hS.queue (hjobs job hm), fun hm => ?_, hS.main⟩
    obtain ⟨k, hk⟩ := Pool.mem_threads_iff.mp hm
    rcases Pool.at_goto hk with ⟨_, he⟩ | ⟨_, hk⟩
    · exact ht hsets he.symm
    · exact hS.entering (Pool.mem_threads_iff.mpr ⟨k, hk⟩)
  isRunning := hC.isRunning
  caller := hC.caller

theorem Cleared.step {plan : Plan} {job : Job} {c c' : Control} {a : Act}
    (hC : Cleared plan job c) (hP : Programs plan c) (h : Step plan c a c') :
    Cleared plan job c' := by
  cases h with
  | @caller woken ins rest d hc hd =>
    have hlate : ins.late = true := hC.caller ins (hc ▸ List.mem_cons_self ..)
    have hpush : ∀ j, ins ≠ .push j := by rintro j rfl; cases hlate
    obtain ⟨hflag, hset⟩ := hC.exec (Or.inl hlate) (fun _ => hpush job) hd
    refine ⟨hflag, fun hsets => ⟨(hset hsets).1, (hset hsets).2, ?_⟩, ?_, ?_⟩
    · rcases exec_main hd with he | ⟨_, _, he⟩ <;> dsimp only <;> rw [he]
      · exact (hC.settled hsets).main
      · exact List.not_mem_nil
    · rw [exec_isRunning hd, hC.isRunning, if_neg, ite_self]
      rintro rfl
      cases hlate
    · exact fun ins' hins => hC.caller ins' (hc ▸ List.mem_cons_of_mem _ hins)
  | mainTest hm =>
    refine ⟨hC.flag, fun hsets => ?_, hC.isRunning, hC.caller⟩
    have hS := hC.settled hsets
    refine ⟨hS.queue, hS.entering, ?_⟩
    rw [hC.isRunning]
    exact List.not_mem_nil
  | mainRound hm =>
    refine ⟨hC.flag, fun hsets => ?_, hC.isRunning, hC.caller⟩
    have hS := hC.settled hsets
    exact ⟨hS.queue, hS.entering, List.not_mem_nil⟩
  | @main woken ins todo d hm hd =>
    have hins := mem_proxyRun ((hP.main _ hm).mem (List.mem_cons_self ..))
    have hpush : plan.sets job = true → ins ≠ .push job := by
      rintro hsets rfl
      exact (hC.settled hsets).main (hm ▸ List.mem_cons_self ..)
    obtain ⟨hflag, hset⟩ := hC.exec (Or.inr hins) hpush hd
    refine ⟨hflag, fun hsets => ⟨(hset hsets).1, (hset hsets).2, fun hmem => ?_⟩, ?_, ?_⟩
    · exact (hC.settled hsets).main (hm ▸ List.mem_cons_of_mem _ hmem)
    · rw [exec_isRunning hd, hC.isRunning]
      rcases hins with rfl | ⟨_, rfl⟩ <;> rfl
    · rw [exec_caller hd]
      exact hC.caller
  | threadLoop hp =>
    obtain ⟨_, ⟨_, rfl⟩ | ⟨_, _, rfl⟩ | ⟨j, jobs, _, hj, rfl⟩⟩ := Pool.threadLoop_cases hp
    · exact hC.goto (fun _ hm => hm) fun _ => nofun
    · exact hC.goto (fun _ hm => hm) fun _ => nofun
    · apply hC.goto (fun k hk => hj ▸ List.mem_cons_of_mem j hk)
      intro hsets he
      obtain rfl : j = job := congrArg Task.job (Worker.running.inj he)
      exact (hC.settled hsets).queue (hj ▸ List.mem_cons_self ..)
  | spurious hp =>
    obtain ⟨_, rfl⟩ := Pool.wake_eq_some hp
    exact hC.goto (fun _ hm => hm) fun _ => nofun
  | work ht => exact hC.work ht _

/-! ### A stop that is not lost -/

/-- A flag is only cleared when no job that would set it is still to start. -/
def ClearsSettled (plan : Plan) (c : Control) : Act → Prop
  | .caller _ =>
    match c.caller with
    | .clear job :: _ => plan.sets job = true → Settled c job
    | _ => True
  | _ => True

instance (plan : Plan) (c : Control) (a : Act) : Decidable (ClearsSettled plan c a) := by
  unfold ClearsSettled
  split
  · split <;> infer_instance
  · infer_instance

theorem cleared_of_clear {plan : Plan} {c c' : Control} {woken : Option Nat} {job : Job}
    {rest : List Instr} (hP : Programs plan c) (hL : Lowered c)
    (hcaller : c.caller = .clear job :: rest) (hS : plan.sets job = true → Settled c job)
    (h : step plan c (.caller woken) = some c') : Cleared plan job c' := by
  have hlate := hP.late hcaller
  have hdown : c.isRunning = false := by
    rcases hL with hm | hdown
    · rw [hcaller] at hm
      cases hlate .lower ((List.mem_cons.mp hm).resolve_left nofun)
    · exact hdown
  simp only [step, hcaller, Control.exec, Option.map_some, Option.some.injEq] at h
  subst h
  exact ⟨Function.update_self .., fun hsets => ⟨(hS hsets).queue, (hS hsets).entering,
    (hS hsets).main⟩, hdown, hlate⟩

/-- A loop whose flag is down leaves at its next test. -/
theorem next_test_of_not_running (plan : Plan) (outcome : Bool) (job : Job) :
    plan.next false outcome ⟨job, .test⟩ = none := by
  unfold Plan.next
  split
  · rfl
  · split <;> rfl

/-- In a run that clears flags only when their jobs are settled, a cleared flag is never set
again, and every loop on it that is in execution leaves at its next test. -/
theorem stop_not_lost {plan : Plan} {uninitialised : Bool} {before after : List Act}
    {woken : Option Nat} {c c' : Control} {job : Job} {rest : List Instr}
    (hsettled : Meets (step plan) (ClearsSettled plan) (start plan uninitialised)
      (before ++ .caller woken :: after))
    (hbefore : run (step plan) (start plan uninitialised) before = some c)
    (hclear : c.caller = .clear job :: rest)
    (hrun : run (step plan) (start plan uninitialised) (before ++ .caller woken :: after) =
      some c') :
    c'.flags job = false ∧ ∀ i outcome c'', c'.pool.At i (.running ⟨job, .test⟩) →
      step plan c' (.work i outcome) = some c'' → c''.pool.At i .awake := by
  have hP := run_programs hbefore
  have hS := hsettled before (.caller woken) after c rfl hbefore
  simp only [ClearsSettled, hclear] at hS
  obtain ⟨d, hd, hafter⟩ := Option.bind_eq_some_iff.mp (run_from hbefore hrun)
  have hcleared := run_invariant
    (I := fun c => Programs plan c ∧ Cleared plan job c)
    (fun _ _ _ hI h => ⟨hI.1.step (step_cases h), hI.2.step hI.1 (step_cases h)⟩)
    ⟨hP.step (step_cases hd), cleared_of_clear hP (run_lowered hbefore) hclear hS hd⟩ hafter
  refine ⟨hcleared.2.flag, fun i outcome c'' hi h => ?_⟩
  have hi' : c'.pool.threads[i]? = some (.running ⟨job, .test⟩) := hi
  simp only [step, hi', Control.work, hcleared.2.flag, next_test_of_not_running,
    Option.some.injEq] at h
  subst h
  exact Pool.at_goto_self hi _

/-- The manager's job is past its first instruction when its flag is cleared. -/
theorem stop_not_lost_running_manager :
    ∃ c', run (step ⟨1, [⟨.TCPS, 50000, "TcpServer1"⟩], []⟩)
        (start ⟨1, [⟨.TCPS, 50000, "TcpServer1"⟩], []⟩ true)
        ((List.replicate 5 (.caller none) ++ [.threadLoop 0, .work 0 false, .caller none]) ++
          .caller none :: [.work 0 false]) = some c' ∧
      c'.flags .dmRun = false := by
  obtain ⟨c', hrun⟩ : ∃ c', run (step ⟨1, [⟨.TCPS, 50000, "TcpServer1"⟩], []⟩)
      (start ⟨1, [⟨.TCPS, 50000, "TcpServer1"⟩], []⟩ true)
      ((List.replicate 5 (.caller none) ++ [.threadLoop 0, .work 0 false, .caller none]) ++
        .caller none :: [.work 0 false]) = some c' := ⟨_, rfl⟩
  exact ⟨c', hrun, (stop_not_lost (by decide) rfl rfl hrun).1⟩

/-- The manager's job starts after `stop()` has cleared its flag: it sets the flag again and
iterates while the pool waits to join its worker. -/
theorem stop_lost_by_late_start :
    ∃ w before after c c',
      parseConf .plain (some (oneToOne "CONSUMER")) World.fresh = some (true, w) ∧
      run (step w.plan) (start w.plan false) before = some c ∧
      .clear .dmRun ∉ c.caller ∧ c.flags .dmRun = false ∧
      run (step w.plan) c after = some c' ∧
      c'.flags .dmRun = true ∧ c'.caller = [.joinAll] ∧
      c'.pool.At 0 (.running ⟨.dmRun, .body⟩) := by
  obtain ⟨w, hparse, hpool, -, hin, hout⟩ := oneToOne_built
  have hplan : w.plan = ⟨4, [⟨.TCPS, 50000, "TcpServer1"⟩], [⟨.CONSUMER, 50000, "Out1"⟩]⟩ :=
    World.plan_eq hpool hin hout
  refine ⟨w, List.replicate 12 (.caller none), List.replicate 2 (.caller none) ++
    [.main none, .threadLoop 0, .work 0 false] ++ List.replicate 3 (.caller none) ++
    [.work 0 false, .work 0 false], ?_⟩
  rw [hplan]
  refine ⟨_, _, hparse, rfl, ?_, rfl, rfl, ?_, ?_, ?_⟩
  · decide
  · rfl
  · rfl
  · rfl

end Control

end DataPipeline
