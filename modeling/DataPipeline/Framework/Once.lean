import DataPipeline.Framework.Outstanding

/-!
# The jobs of the output nodes

`run()` queues the job of an output node once, and `runJobs` never does. So such a job is
to be queued, queued, or executed by one thread, or it has returned for good.
-/

namespace DataPipeline.Control

open Machine

/-- The executions of a job that are still to come or going on, as far as the calling
thread brings them about. -/
def load (c : Control) (job : Job) : Nat :=
  (c.caller.flatMap Instr.pushed).count job + c.outstanding job

/-- The job is to be queued by the calling thread, or it is in the queue. -/
def Unstarted (c : Control) (job : Job) : Prop :=
  job ∈ c.caller.flatMap Instr.pushed ∨ job ∈ c.pool.jobs

/-- The `runJobs` thread queues input nodes only. -/
theorem count_pushed_round {plan : Plan} {c : Control} (hP : Programs plan c) {ins : Instr}
    {todo : List Instr} (hm : c.main = .round (ins :: todo)) {job : Job}
    (hj : isInput job = false) : ins.pushed.count job = 0 := by
  apply List.count_eq_zero_of_not_mem
  intro hmem
  have hins : job ∈ (plan.proxyRun .input).flatMap Instr.pushed :=
    List.mem_flatMap.mpr ⟨ins, (hP.main _ hm).mem (List.mem_cons_self ..), hmem⟩
  rw [pushed_proxyRun] at hins
  exact Bool.false_ne_true (hj.symm.trans ((isInput_jobs hins).mpr rfl))

/-- A step takes from the load of an output node's job what returns in it. -/
theorem Step.load {plan : Plan} {c c' : Control} {a : Act} (h : Step plan c a c')
    (hP : Programs plan c) {job : Job} (hj : isInput job = false) :
    c'.load job + (returned plan c a).count job = c.load job := by
  have hout := h.outstanding job
  unfold Control.load
  cases h with
  | @caller woken ins rest d hc hd =>
    simp only [queued, hc, List.take_succ_cons, List.take_zero, List.flatMap_cons, List.flatMap_nil,
      List.append_nil, List.count_append] at hout ⊢
    omega
  | @main woken ins todo d hm hd =>
    simp only [queued, hm, List.take_succ_cons, List.take_zero, List.flatMap_cons, List.flatMap_nil,
      List.append_nil, count_pushed_round hP hm hj] at hout
    rw [← exec_caller hd]
    dsimp only at hout ⊢
    omega
  | mainTest hm | mainRound hm =>
    simp only [queued, hm, List.take_nil, List.flatMap_nil, List.count_nil] at hout
    dsimp only at hout ⊢
    omega
  | threadLoop | spurious | work =>
    simp only [queued, List.count_nil] at hout
    dsimp only [Control.work] at hout ⊢
    omega

theorem load_start_eq (plan : Plan) (uninitialised : Bool) (job : Job) :
    (start plan uninitialised).load job = (.dmRun :: plan.jobs .output).count job := by
  have hnone : (start plan uninitialised).outstanding job = 0 := rfl
  rw [load, hnone, start, pushed_caller, Nat.add_zero]

theorem nodup_pushed (plan : Plan) : (.dmRun :: plan.jobs .output).Nodup := by
  have hinj : Function.Injective (Job.nodeRun .output) := fun _ _ he => (Job.nodeRun.inj he).2
  refine List.nodup_cons.mpr ⟨fun hm => ?_, List.nodup_range.map hinj⟩
  obtain ⟨_, _, he⟩ := List.mem_map.mp hm
  cases he

theorem load_start (plan : Plan) (uninitialised : Bool) (job : Job) :
    (start plan uninitialised).load job ≤ 1 := by
  rw [load_start_eq]
  exact List.nodup_iff_count_le_one.mp (nodup_pushed plan) job

/-- The load of a job that only the calling thread queues never exceeds one. -/
theorem run_load_le {plan : Plan} {uninitialised : Bool} {acts : List Act} {c : Control}
    (hrun : run (step plan) (start plan uninitialised) acts = some c) {job : Job}
    (hj : isInput job = false) : c.load job ≤ 1 := by
  have h := run_invariant (I := fun c => Programs plan c ∧ c.load job ≤ 1)
    (fun c a c' hI h => ⟨hI.1.step (step_cases h), ?_⟩)
    ⟨programs_start plan uninitialised, load_start plan uninitialised job⟩ hrun
  · exact h.2
  · have hload := (step_cases h).load hI.1 hj
    have hle := hI.2
    omega

/-! ### What a load of one means -/

theorem executes_pos {c : Control} {i : Nat} {t : Task} (h : c.pool.At i (.running t)) :
    0 < c.pool.threads.countP (Worker.executes t.job) :=
  List.countP_pos_iff.mpr ⟨_, Pool.mem_threads_iff.mpr ⟨i, h⟩, beq_self_eq_true t.job⟩

/-- What a list has once is at one position. -/
theorem eq_of_countP_le_one {α : Type} {f : α → Bool} {l : List α} (hl : l.countP f ≤ 1)
    {p q : Nat} {a b : α} (hp : l[p]? = some a) (hq : l[q]? = some b) (ha : f a = true)
    (hb : f b = true) : p = q := by
  induction l generalizing p q with
  | nil => cases hp
  | cons c l ih =>
    have hpos : ∀ {k : Nat} {x : α}, l[k]? = some x → f x = true → 0 < l.countP f :=
      fun hk hx => List.countP_pos_iff.mpr ⟨_, List.mem_of_getElem? hk, hx⟩
    rw [List.countP_cons] at hl
    cases p with
    | zero =>
      cases q with
      | zero => rfl
      | succ q =>
        obtain rfl : c = a := Option.some.inj hp
        have := hpos hq hb
        rw [if_pos ha] at hl
        omega
    | succ p =>
      cases q with
      | zero =>
        obtain rfl : c = b := Option.some.inj hq
        have := hpos hp ha
        rw [if_pos hb] at hl
        omega
      | succ q => exact congrArg _ (ih (Nat.le_of_add_right_le hl) hp hq)

/-- One thread executes the job. -/
theorem eq_of_running {c : Control} {job : Job} (hc : c.load job ≤ 1) {i k : Nat} {pc pc' : Pc}
    (hi : c.pool.At i (.running ⟨job, pc⟩)) (hk : c.pool.At k (.running ⟨job, pc'⟩)) : k = i := by
  refine eq_of_countP_le_one (f := Worker.executes job) ?_ hk hi (beq_self_eq_true job)
    (beq_self_eq_true job)
  unfold load outstanding at hc
  omega

/-- What is executed is not going to be executed again. -/
theorem not_unstarted {c : Control} {job : Job} (hc : c.load job ≤ 1) {i : Nat} {pc : Pc}
    (hi : c.pool.At i (.running ⟨job, pc⟩)) : ¬ c.Unstarted job := by
  have hpos := executes_pos hi
  unfold load outstanding at hc
  rintro (h | h) <;>
  · have := List.count_pos_iff.mpr h
    dsimp only at hpos
    omega

/-- Nothing is left of a job without load. -/
theorem not_running_of_load {c : Control} {job : Job} (hc : c.load job = 0) (i : Nat) (pc : Pc) :
    ¬ c.pool.At i (.running ⟨job, pc⟩) := by
  intro hi
  have hpos := executes_pos hi
  unfold load outstanding at hc
  dsimp only at hpos
  omega

/-! ### Who executes what after a step -/

theorem exec_running {c d : Control} {woken : Option Nat} {ins : Instr}
    (h : c.exec woken ins = some d) {i : Nat} {t : Task} :
    d.pool.At i (.running t) ↔ c.pool.At i (.running t) := by
  cases exec_cases h with
  | spawn => exact Pool.running_spawn
  | notify hi => exact Pool.running_wake hi
  | notifyAll => exact Pool.running_notifyAll
  | joinAll hterm =>
    refine iff_of_false (fun hi => ?_) fun hi => ?_
    · cases hi
    · cases hterm _ (Pool.mem_threads_iff.mpr ⟨i, hi⟩)
  | raise | push | notifyNobody | startMain | lower | clear | joinMain | terminate => exact Iff.rfl

theorem exec_jobs {c d : Control} {woken : Option Nat} {ins : Instr}
    (h : c.exec woken ins = some d) : d.pool.jobs = c.pool.jobs ++ ins.pushed := by
  cases exec_cases h with
  | push => rfl
  | spawn | raise | notifyNobody | notify | startMain | lower | clear | joinMain | terminate
    | notifyAll | joinAll => exact (List.append_nil _).symm

/-- A thread that executes something goes on with it until it takes a step of its own. -/
theorem Step.keeps {plan : Plan} {c c' : Control} {a : Act} (h : Step plan c a c')
    (ha : ∀ i outcome, a ≠ .work i outcome) {i : Nat} {t : Task}
    (hi : c.pool.At i (.running t)) : c'.pool.At i (.running t) := by
  have hne : ∀ {k : Nat} {b : Worker Task}, c.pool.At k b → b ≠ .running t → i ≠ k := by
    rintro k b hk hb rfl
    exact hb (Option.some.inj (hk.symm.trans hi))
  cases h with
  | caller hc hd | main hm hd => exact (exec_running hd).mpr hi
  | mainTest | mainRound => exact hi
  | threadLoop hp =>
    obtain ⟨hk, ⟨_, rfl⟩ | ⟨_, _, rfl⟩ | ⟨_, _, _, _, rfl⟩⟩ := Pool.threadLoop_cases hp <;>
      exact Pool.at_goto_of_ne (hne hk nofun) _ hi
  | spurious hp =>
    obtain ⟨hk, rfl⟩ := Pool.wake_eq_some hp
    exact Pool.at_goto_of_ne (hne hk nofun) _ hi
  | work => exact absurd rfl (ha _ _)

/-- What a thread executes it has executed before, or it has taken it from the queue. -/
theorem Step.running {plan : Plan} {c c' : Control} {a : Act} (h : Step plan c a c')
    (ha : ∀ i outcome, a ≠ .work i outcome) {i : Nat} {t : Task}
    (hi : c'.pool.At i (.running t)) :
    c.pool.At i (.running t) ∨ (t.pc = .enter ∧ t.job ∈ c.pool.jobs) := by
  cases h with
  | caller hc hd | main hm hd => exact Or.inl ((exec_running hd).mp hi)
  | mainTest | mainRound => exact Or.inl hi
  | threadLoop hp =>
    obtain ⟨_, ⟨_, rfl⟩ | ⟨_, _, rfl⟩ | ⟨job, jobs, _, hj, rfl⟩⟩ := Pool.threadLoop_cases hp <;>
      rcases Pool.at_goto hi with ⟨_, he⟩ | ⟨_, hi⟩
    · cases he
    · exact Or.inl hi
    · cases he
    · exact Or.inl hi
    · cases he
      exact Or.inr ⟨rfl, hj ▸ List.mem_cons_self ..⟩
    · exact Or.inl hi
  | spurious hp =>
    obtain ⟨_, rfl⟩ := Pool.wake_eq_some hp
    rcases Pool.at_goto hi with ⟨_, he⟩ | ⟨_, hi⟩
    · cases he
    · exact Or.inl hi
  | work => exact absurd rfl (ha _ _)

/-- No step puts the job of an output node back. -/
theorem Step.unstarted {plan : Plan} {c c' : Control} {a : Act} (h : Step plan c a c')
    (hP : Programs plan c) {job : Job} (hj : isInput job = false) (hu : c'.Unstarted job) :
    c.Unstarted job := by
  cases h with
  | @caller woken ins rest d hc hd =>
    unfold Unstarted at hu ⊢
    rw [hc, List.flatMap_cons, List.mem_append]
    rw [exec_jobs hd, List.mem_append] at hu
    tauto
  | @main woken ins todo d hm hd =>
    unfold Unstarted at hu ⊢
    rw [exec_jobs hd, List.mem_append, exec_caller hd] at hu
    have hno : job ∉ ins.pushed := List.count_eq_zero.mp (count_pushed_round hP hm hj)
    tauto
  | mainTest | mainRound | work => exact hu
  | threadLoop hp =>
    obtain ⟨_, ⟨_, rfl⟩ | ⟨_, _, rfl⟩ | ⟨_, _, _, hjobs, rfl⟩⟩ := Pool.threadLoop_cases hp
    · exact hu
    · exact hu
    · exact hu.imp_right fun hm => hjobs ▸ List.mem_cons_of_mem _ hm
  | spurious hp =>
    obtain ⟨_, rfl⟩ := Pool.wake_eq_some hp
    exact hu

/-- After a step of its own a thread is at the next place of its job, every other thread is
where it was. -/
theorem running_work {plan : Plan} {c : Control} {i k : Nat} {t t' : Task} {outcome : Bool}
    (h : (c.work plan i t outcome).pool.At k (.running t')) :
    (k = i ∧ plan.next (c.flags t.job) outcome t = some t'.pc ∧ t'.job = t.job) ∨
      (k ≠ i ∧ c.pool.At k (.running t')) := by
  rcases Pool.at_goto h with ⟨hk, he⟩ | hk
  · split at he
    · rename_i pc hn
      cases he
      exact Or.inl ⟨hk, hn, rfl⟩
    · cases he
  · exact Or.inr hk

/-! ### The end of `stop()` -/

/-- The calling thread executes its next instruction, or its program stays. -/
theorem Step.caller_eq {plan : Plan} {c c' : Control} {a : Act} (h : Step plan c a c') :
    c'.caller = c.caller ∨ ∃ woken ins, a = .caller woken ∧ c.caller = ins :: c'.caller := by
  cases h with
  | @caller woken ins rest d hc hd => exact Or.inr ⟨woken, ins, rfl, hc⟩
  | main hm hd =>
    have he := exec_caller hd
    exact Or.inl he
  | mainTest | mainRound | threadLoop | spurious | work => exact Or.inl rfl

/-- When `stop()` has returned the pool has no threads. -/
def Joined (c : Control) : Prop := c.caller = [] → c.pool.threads = []

theorem stop_concat (plan : Plan) : ∃ init, plan.stop = init ++ [.joinAll] :=
  ⟨.lower :: .clear .dmRun :: (plan.jobs .input ++ plan.jobs .output).map .clear ++
    [.joinMain, .terminate, .notifyAll], by simp [Plan.stop]⟩

theorem Joined.step {plan : Plan} {c c' : Control} {a : Act} (hJ : Joined c)
    (hP : Programs plan c) (h : Step plan c a c') : Joined c' := by
  intro hnil
  have hlen := h.threads hP
  rw [hnil, List.count_nil, Nat.add_zero] at hlen
  cases h with
  | @caller woken ins rest d hc hd =>
    -- the last instruction of the program joins the pool
    obtain rfl : rest = [] := hnil
    obtain ⟨before, hprogram⟩ := hc ▸ hP.caller
    obtain ⟨init, hstop⟩ := stop_concat plan
    rw [hstop, ← List.append_assoc] at hprogram
    obtain rfl : ins = .joinAll := (List.cons.inj (List.append_inj_right' hprogram rfl)).1
    cases exec_cases hd
    rfl
  | main hm hd =>
    have hcaller := exec_caller hd
    dsimp only at hnil
    rw [hJ (hcaller.symm.trans hnil), ← hcaller, hnil] at hlen
    exact List.length_eq_zero_iff.mp (Nat.le_zero.mp hlen)
  | mainTest | mainRound => exact hJ hnil
  | threadLoop | spurious | work =>
    replace hnil : c.caller = [] := hnil
    rw [hJ hnil, hnil] at hlen
    exact List.length_eq_zero_iff.mp (Nat.le_zero.mp hlen)

end DataPipeline.Control
