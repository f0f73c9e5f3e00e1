import DataPipeline.Framework.Starvation

/-!
# Whether the output nodes keep being served

`run()` queues the job of every output node once. A consumer stays in it until `stop()`, but
a UDP client pops once and returns, and nobody queues it again. With two threads it comes to
that; a single thread never gets past the manager's job.
-/

namespace DataPipeline.Control

open Machine

/-- Every output node that is a UDP client, or a consumer that has not failed to open its file,
has a job in the queue or in execution. -/
def Serves (plan : Plan) (uninitialised : Bool) (acts : List Act) (c : Control) : Prop :=
  ∀ k, plan.type (.nodeRun .output k) = some .UDPTX ∨
      (plan.type (.nodeRun .output k) = some .CONSUMER ∧
        Meets (step plan) (fun c a => ¬ FailsToOpen (.nodeRun .output k) c a)
          (start plan uninitialised) acts) →
    0 < c.outstanding (.nodeRun .output k)

/-! ### What has not returned is outstanding -/

theorem pushed_stop (plan : Plan) : plan.stop.flatMap Instr.pushed = [] := by
  refine List.flatMap_eq_nil_iff.mpr fun ins hins => ?_
  obtain ⟨tail, hstop, htail⟩ := stop_eq plan
  rw [hstop] at hins
  rcases List.mem_cons.mp hins with rfl | hins
  · rfl
  · have hlate := htail ins hins
    cases ins <;> first | rfl | cases hlate

/-- A job that never returns keeps its load. -/
theorem run_load_eq {plan : Plan} {uninitialised : Bool} {acts : List Act} {c : Control}
    (hrun : run (step plan) (start plan uninitialised) acts = some c) {job : Job}
    (hj : isInput job = false)
    (hstays : Meets (step plan) (fun c a => job ∉ returned plan c a) (start plan uninitialised)
      acts) :
    c.load job = (start plan uninitialised).load job := by
  have h := run_invariant_of_meets (I := fun c => Programs plan c ∧
      c.load job = (start plan uninitialised).load job)
    (fun c a c' hI hC h => ⟨hI.1.step (step_cases h), ?_⟩)
    ⟨programs_start plan uninitialised, rfl⟩ hstays hrun
  · exact h.2
  · have hload := (step_cases h).load hI.1 hj
    rw [List.count_eq_zero_of_not_mem hC] at hload
    exact hload.trans hI.2

/-- What `run()` has queued and what has never returned is outstanding. -/
theorem outstanding_pos {plan : Plan} {uninitialised : Bool} {acts : List Act} {c : Control}
    (hrun : run (step plan) (start plan uninitialised) acts = some c) (hc : c.caller = plan.stop)
    {job : Job} (hmem : job ∈ .dmRun :: plan.jobs .output)
    (hstays : Meets (step plan) (fun c a => job ∉ returned plan c a) (start plan uninitialised)
      acts) :
    0 < c.outstanding job := by
  have hload := run_load_eq hrun (isInput_pushed hmem) hstays
  rw [load_start_eq, load, hc, pushed_stop, List.count_nil, Nat.zero_add] at hload
  exact hload ▸ List.count_pos_iff.mpr hmem

/-- A consumer that does not fail to open its file stays until `stop()`. -/
theorem consumer_stays {plan : Plan} {uninitialised : Bool} {acts : List Act} {c : Control}
    (hrun : run (step plan) (start plan uninitialised) acts = some c) (hb : BeforeStop plan c)
    {job : Job} (hsets : plan.sets job = true)
    (hopens : Meets (step plan) (fun c a => ¬ FailsToOpen job c a) (start plan uninitialised)
      acts) :
    Meets (step plan) (fun c a => job ∉ returned plan c a) (start plan uninitialised) acts := by
  intro before a after u he hu hmem
  exact hopens before a after u he hu
    (((run_raised hu (hb.of_run (run_from hu (he ▸ hrun)))).failsToOpen hsets hmem).2)

/-- The manager's job stays until `stop()`. -/
theorem manager_stays {plan : Plan} {c : Control} (hR : Raised plan c) (a : Act) :
    .dmRun ∉ returned plan c a := fun hmem =>
  nomatch (hR.failsToOpen rfl hmem).1

/-! ### A single thread -/

/-- When the `runJobs` thread is there, `run()` has nothing left to queue. -/
theorem pushed_of_startMain {plan : Plan} {c : Control} (hP : Programs plan c) {rest : List Instr}
    (hc : c.caller = .startMain :: rest) : rest.flatMap Instr.pushed = [] := by
  have hsuf := hP.caller
  rw [hc, program_eq, afterRaise, ← List.cons_append, ← List.append_assoc] at hsuf
  have hnot : .startMain ∉ List.replicate plan.nproc .spawn ++
      .raise :: (Job.dmRun :: plan.jobs .output).flatMap queueJob := by
    intro hm
    rcases List.mem_append.mp hm with hm | hm
    · cases List.eq_of_mem_replicate hm
    · rcases List.mem_cons.mp hm with he | hm
      · cases he
      · obtain ⟨job, _, hmem⟩ := List.mem_flatMap.mp hm
        simp only [queueJob, List.mem_cons, reduceCtorEq, List.not_mem_nil, or_self] at hmem
  have hrest : rest <:+ plan.stop := by
    rcases List.suffix_cons_iff.mp (suffix_of_cons_suffix hnot hsuf) with he | h
    · exact (List.cons.inj he).2 ▸ List.suffix_refl _
    · exact (List.suffix_cons ..).trans h
  exact List.flatMap_eq_nil_iff.mpr fun ins hins =>
    List.flatMap_eq_nil_iff.mp (pushed_stop plan) ins (hrest.mem hins)

/-- Before the `runJobs` thread exists, or with nothing left for `run()` to queue. -/
def QueuedFirst (c : Control) : Prop :=
  c.main = .notStarted ∨ c.caller.flatMap Instr.pushed = []

theorem QueuedFirst.step {plan : Plan} {c c' : Control} {a : Act} (hQ : QueuedFirst c)
    (hP : Programs plan c) (h : Step plan c a c') : QueuedFirst c' := by
  cases h with
  | @caller woken ins rest d hc hd =>
    by_cases hstart : ins = .startMain
    · subst hstart
      exact Or.inr (pushed_of_startMain hP hc)
    · have hmain := (exec_main hd).resolve_right fun hs => hstart hs.1
      refine hQ.imp (fun hm => hmain.trans hm) fun hnil => ?_
      rw [hc, List.flatMap_cons] at hnil
      exact (List.append_eq_nil_iff.mp hnil).2
  | @main woken ins todo d hm hd =>
    refine Or.inr ?_
    dsimp only
    rw [exec_caller hd]
    exact hQ.resolve_left (by rw [hm]; exact nofun)
  | mainTest hm | mainRound hm => exact Or.inr (hQ.resolve_left (by rw [hm]; exact nofun))
  | threadLoop | spurious | work => exact hQ

/-- One thread executes the manager's job, or none executes any and that job comes first. -/
def ManagerFirst (c : Control) : Prop :=
  (∃ i pc, c.pool.At i (.running ⟨.dmRun, pc⟩)) ∨
    ((∀ i t, ¬ c.pool.At i (.running t)) ∧
      (c.pool.jobs ++ c.caller.flatMap Instr.pushed).head? = some .dmRun)

/-- A thread whose job does not return stays in it. -/
theorem Step.stays {plan : Plan} {c c' : Control} {a : Act} (h : Step plan c a c') {i : Nat}
    {job : Job} {pc : Pc} (hi : c.pool.At i (.running ⟨job, pc⟩)) (hno : job ∉ returned plan c a) :
    ∃ pc', c'.pool.At i (.running ⟨job, pc'⟩) := by
  by_cases ha : ∀ k outcome, a ≠ .work k outcome
  · exact ⟨pc, h.keeps ha hi⟩
  · cases h with
    | @work k outcome t ht =>
      by_cases hk : i = k
      · subst hk
        obtain rfl := Worker.running.inj (Option.some.inj (ht.symm.trans hi))
        have hthread : c.pool.threads[i]? = some (.running ⟨job, pc⟩) := hi
        cases hn : plan.next (c.flags job) outcome ⟨job, pc⟩ with
        | none =>
          refine absurd ?_ hno
          simp only [returned, hthread, hn, ite_true, List.mem_singleton]
        | some pc' =>
          refine ⟨pc', ?_⟩
          simp only [Control.work, hn]
          exact Pool.at_goto_self ht _
      · exact ⟨pc, Pool.at_goto_of_ne hk _ hi⟩
    | caller | main | mainTest | mainRound | threadLoop | spurious =>
      exact absurd (fun _ _ he => by cases he) ha

theorem ManagerFirst.step {plan : Plan} {c c' : Control} {a : Act} (hM : ManagerFirst c)
    (hR : Raised plan c) (hQ : QueuedFirst c) (h : Step plan c a c') : ManagerFirst c' := by
  rcases hM with ⟨i, pc, hi⟩ | ⟨hnone, hfirst⟩
  · obtain ⟨pc', hi'⟩ := h.stays hi (manager_stays hR a)
    exact Or.inl ⟨i, pc', hi'⟩
  · have hidle : ∀ {i : Nat} {b : Worker Task}, (∀ t, b ≠ .running t) →
        ∀ k t, ¬ (c.pool.goto i b).At k (.running t) := fun hb k t hk => by
      rcases Pool.at_goto hk with ⟨_, he⟩ | ⟨_, hk⟩
      · exact hb t he.symm
      · exact hnone k t hk
    cases h with
    | @caller woken ins rest d hc hd =>
      refine Or.inr ⟨fun i t hi => hnone i t ((exec_running hd).mp hi), ?_⟩
      rw [hc, List.flatMap_cons, ← List.append_assoc, ← exec_jobs hd] at hfirst
      exact hfirst
    | @main woken ins todo d hm hd =>
      refine Or.inr ⟨fun i t hi => hnone i t ((exec_running hd).mp hi), ?_⟩
      have hnil := hQ.resolve_left (by rw [hm]; exact nofun)
      dsimp only
      rw [exec_jobs hd, exec_caller hd, hnil, List.append_nil]
      rw [hnil, List.append_nil] at hfirst
      rw [List.head?_append, hfirst]
      rfl
    | mainTest | mainRound => exact Or.inr ⟨hnone, hfirst⟩
    | @threadLoop i pool hp =>
      obtain ⟨hi, ⟨_, rfl⟩ | ⟨_, _, rfl⟩ | ⟨job, jobs, _, hj, rfl⟩⟩ := Pool.threadLoop_cases hp
      · exact Or.inr ⟨hidle nofun, hfirst⟩
      · exact Or.inr ⟨hidle nofun, hfirst⟩
      · rw [hj] at hfirst
        obtain rfl : job = .dmRun := Option.some.inj hfirst
        exact Or.inl ⟨i, .enter, Pool.at_goto_self hi _⟩
    | spurious hp =>
      obtain ⟨_, rfl⟩ := Pool.wake_eq_some hp
      exact Or.inr ⟨hidle nofun, hfirst⟩
    | work ht => exact absurd ht (hnone _ _)

theorem run_managerFirst {plan : Plan} {uninitialised : Bool} {acts : List Act} {c : Control}
    (hrun : run (step plan) (start plan uninitialised) acts = some c) (hb : BeforeStop plan c) :
    ManagerFirst c := by
  have h := run_beforeStop (I := fun c => Raised plan c ∧ QueuedFirst c ∧ ManagerFirst c) ?_
    (fun c a c' hP hb' hI h => ⟨hI.1.step hP hb' h, hI.2.1.step hP h,
      hI.2.2.step hI.1 hI.2.1 h⟩) hrun hb
  · exact h.2.2
  · refine ⟨raised_start plan uninitialised, Or.inl rfl, Or.inr ⟨fun i t hi => (nomatch hi), ?_⟩⟩
    rw [start, pushed_caller]
    rfl

theorem running_of_returned {plan : Plan} {c : Control} {a : Act} {job : Job}
    (h : job ∈ returned plan c a) : ∃ i pc, c.pool.At i (.running ⟨job, pc⟩) := by
  unfold returned at h
  split at h
  · rename_i i outcome
    split at h
    · rename_i t ht
      obtain rfl := List.mem_singleton.mp (List.mem_ite_nil_right.mp h).2
      exact ⟨i, t.pc, ht⟩
    · exact absurd h List.not_mem_nil
  · exact absurd h List.not_mem_nil

/-- A single thread stays in the manager's job. -/
theorem single_stays {plan : Plan} {uninitialised : Bool} {acts : List Act} {c : Control}
    (hrun : run (step plan) (start plan uninitialised) acts = some c) (hb : BeforeStop plan c)
    (hsingle : plan.nproc ≤ 1) {job : Job} (hne : job ≠ .dmRun) :
    Meets (step plan) (fun c a => job ∉ returned plan c a) (start plan uninitialised) acts := by
  intro before a after u he hu hmem
  obtain ⟨i, pc, hi⟩ := running_of_returned hmem
  have hfew := (run_threads hu).trans hsingle
  have hzero : ∀ {k : Nat} {b : Worker Task}, u.pool.At k b → k = 0 := fun hk => by
    have hlt := (List.getElem?_eq_some_iff.mp hk).1
    omega
  rcases run_managerFirst hu (hb.of_run (run_from hu (he ▸ hrun))) with ⟨k, pc', hk⟩ | ⟨hnone, _⟩
  · obtain rfl := hzero hi
    obtain rfl := hzero hk
    cases hi.symm.trans hk
    exact hne rfl
  · exact hnone i _ hi

/-! ### Two threads -/

/-- A job of a node can return at once. -/
theorem run_return {plan : Plan} {c : Control} {i : Nat} {side : Side} {k : Nat}
    (ht : c.pool.At i (.running ⟨.nodeRun side k, .enter⟩)) :
    ∃ acts flags, run (step plan) c acts =
      some { c with pool := c.pool.goto i .awake, flags } := by
  by_cases hsets : plan.sets (.nodeRun side k) = true
  · -- a consumer that cannot open its file
    have htype : plan.type (.nodeRun side k) = some .CONSUMER := by
      simpa [Plan.sets] using hsets
    have hfirst : step plan c (.work i false) = some { c with
        pool := c.pool.goto i (.running ⟨.nodeRun side k, .opening⟩)
        flags := Function.update c.flags (.nodeRun side k) true } := by
      rw [step_work ht]
      simp only [Control.work, Plan.next, htype, consumerNext, hsets, and_self, ite_true]
    have hsecond : step plan { c with
        pool := c.pool.goto i (.running ⟨.nodeRun side k, .opening⟩)
        flags := Function.update c.flags (.nodeRun side k) true } (.work i false) =
          some { c with
            pool := c.pool.goto i .awake
            flags := Function.update c.flags (.nodeRun side k) true } := by
      rw [step_work (Pool.at_goto_self ht _)]
      simp only [Control.work, Plan.next, htype, consumerNext, Pool.goto_goto, reduceCtorEq,
        Bool.false_eq_true, false_and, ite_false]
    refine ⟨[.work i false, .work i false], Function.update c.flags (.nodeRun side k) true, ?_⟩
    simp only [run_cons, hfirst, hsecond, Option.bind_some, run_nil]
  · obtain ⟨acts, _, hacts⟩ := run_release ht (Bool.not_eq_true _ ▸ hsets)
    exact ⟨acts, c.flags, hacts⟩

/-- One thread can take every job in the queue and return from it, as long as the manager's is
not among them. -/
theorem run_serve (plan : Plan) (jobs : List Job) {c : Control} {i : Nat}
    (hterm : c.pool.shouldTerminate = false) (hi : c.pool.At i .awake) (hj : c.pool.jobs = jobs)
    (hne : .dmRun ∉ jobs) :
    ∃ acts flags, run (step plan) c acts =
      some { c with pool := { c.pool with jobs := [] }, flags } := by
  induction jobs generalizing c with
  | nil =>
    refine ⟨[], c.flags, ?_⟩
    rw [← hj]
    rfl
  | cons job jobs ih =>
    obtain ⟨side, k, rfl⟩ : ∃ side k, job = .nodeRun side k := by
      cases job with
      | dmRun => exact absurd (List.mem_cons_self ..) hne
      | nodeRun side k => exact ⟨side, k, rfl⟩
    have htake : step plan c (.threadLoop i) = some { c with
        pool := { c.pool with jobs }.goto i (.running ⟨.nodeRun side k, .enter⟩) } := by
      rw [step, Pool.threadLoop_take hi hterm hj]
      rfl
    obtain ⟨acts, flags, hacts⟩ : ∃ acts flags, run (step plan) { c with
        pool := { c.pool with jobs }.goto i (.running ⟨.nodeRun side k, .enter⟩) } acts = _ :=
      run_return (Pool.at_goto_self (p := { c.pool with jobs }) hi _)
    rw [Pool.goto_goto, Pool.goto_eq_self (p := { c.pool with jobs }) hi] at hacts
    obtain ⟨acts', flags', hacts'⟩ := ih (c := { c with pool := { c.pool with jobs }, flags })
      hterm hi rfl fun hm => hne (List.mem_cons_of_mem _ hm)
    refine ⟨.threadLoop i :: (acts ++ acts'), flags', ?_⟩
    rw [run_cons, htake, Option.bind_some]
    exact run_append_eq_some.mpr ⟨_, hacts, hacts'⟩

/-- The state in which `run()` returns, with one thread in the manager's job. -/
def managing (plan : Plan) (uninitialised : Bool) : Control :=
  { ready plan uninitialised with
    pool := ⟨plan.jobs .output, false,
      (List.replicate plan.nproc .awake).set 0 (.running ⟨.dmRun, .enter⟩)⟩ }

theorem executes_managing (plan : Plan) (uninitialised : Bool) (k : Nat) :
    (managing plan uninitialised).pool.threads.countP
      (Worker.executes (.nodeRun .output k)) = 0 := by
  refine List.countP_eq_zero.mpr fun t ht => ?_
  rcases List.mem_or_eq_of_mem_set ht with ht | rfl
  · rw [List.eq_of_mem_replicate ht]
    exact Bool.false_ne_true
  · exact Bool.false_ne_true

/-- With a thread beside the manager's, the job of every output node can return for good. -/
theorem run_served_out (plan : Plan) (uninitialised : Bool) (hmany : 1 < plan.nproc) :
    ∃ acts c, run (step plan) (start plan uninitialised) acts = some c ∧ c.caller = plan.stop ∧
      ∀ k, c.outstanding (.nodeRun .output k) = 0 := by
  obtain ⟨acts, hready⟩ := run_ready plan uninitialised
  have hawake : ∀ i < plan.nproc, (ready plan uninitialised).pool.At i .awake := fun i hi => by
    have hlength : i < (List.replicate plan.nproc (Worker.awake : Worker Task)).length := by
      rwa [List.length_replicate]
    exact (List.getElem?_eq_getElem hlength).trans (congrArg some (List.getElem_replicate ..))
  have htake : step plan (ready plan uninitialised) (.threadLoop 0) =
      some (managing plan uninitialised) := by
    rw [step, Pool.threadLoop_take (hawake 0 (Nat.lt_of_succ_lt hmany)) rfl rfl]
    rfl
  have hsecond : (managing plan uninitialised).pool.At 1 .awake :=
    Pool.at_goto_of_ne Nat.one_ne_zero _ (hawake 1 hmany)
  have hne : .dmRun ∉ plan.jobs .output := (List.nodup_cons.mp (nodup_pushed plan)).1
  obtain ⟨rest, flags, hrest⟩ := run_serve plan (plan.jobs .output) rfl hsecond rfl hne
  refine ⟨acts ++ .threadLoop 0 :: rest, { managing plan uninitialised with
    pool := { (managing plan uninitialised).pool with jobs := [] }, flags },
    run_append_eq_some.mpr ⟨_, hready, ?_⟩, rfl, fun k => ?_⟩
  · rw [run_cons, htake, Option.bind_some]
    exact hrest
  · exact (Nat.zero_add _).trans (executes_managing plan uninitialised k)

/-! ### When every output node keeps being served -/

/-- When `run()` has returned and `stop()` has not begun, every output node has a job queued or
in execution, exactly if no output node is a UDP client or there is at most one thread. -/
theorem served_iff (plan : Plan) (uninitialised : Bool) :
    (∀ acts c, run (step plan) (start plan uninitialised) acts = some c → c.caller = plan.stop →
      Serves plan uninitialised acts c) ↔
        (∀ node ∈ plan.outNodes, node.type ≠ .UDPTX) ∨ plan.nproc ≤ 1 := by
  constructor
  · intro h
    rw [or_iff_not_imp_right]
    intro hmany node hnode htype
    obtain ⟨k, hk, rfl⟩ := List.getElem_of_mem hnode
    obtain ⟨acts, c, hrun, hc, hnone⟩ :=
      run_served_out plan uninitialised (Nat.lt_of_not_le hmany)
    have hclient : plan.type (.nodeRun .output k) = some .UDPTX := by
      simp [Plan.type, Plan.nodes, hk, htype]
    exact (h acts c hrun hc k (Or.inl hclient)).ne' (hnone k)
  · intro hplan acts c hrun hc k hk
    have hb : BeforeStop plan c := by
      unfold BeforeStop
      rw [hc]
    have hmem : .nodeRun .output k ∈ plan.jobs .output :=
      hk.elim mem_jobs_of_type fun h => mem_jobs_of_type h.1
    refine outstanding_pos hrun hc (List.mem_cons_of_mem _ hmem) ?_
    rcases hk with hclient | ⟨hconsumer, hopens⟩
    · rcases hplan with hnone | hsingle
      · obtain ⟨node, hnode, htype⟩ := Option.map_eq_some_iff.mp hclient
        exact absurd htype (hnone node (List.mem_of_getElem? hnode))
      · exact single_stays hrun hb hsingle fun he => by cases he
    · have hsets : plan.sets (.nodeRun .output k) = true := by
        simp [Plan.sets, hconsumer]
      exact consumer_stays hrun hb hsets hopens

/-- The UDP client of a framework with four threads has returned from its only job. -/
theorem client_not_served :
    ∃ w acts c, parseConf .plain (some (oneToOne "UDP_Tx")) World.fresh = some (true, w) ∧
      run (step w.plan) (start w.plan false) acts = some c ∧ c.caller = w.plan.stop ∧
      w.plan.type (.nodeRun .output 0) = some .UDPTX ∧
      c.outstanding (.nodeRun .output 0) = 0 := by
  refine ⟨_, List.replicate 10 (.caller none) ++ [.threadLoop 0, .threadLoop 1, .work 1 false], _,
    rfl, rfl, rfl, rfl, ?_⟩
  decide

end DataPipeline.Control
