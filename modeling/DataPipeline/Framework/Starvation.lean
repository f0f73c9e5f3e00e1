import DataPipeline.Framework.Running

/-!
# Whether the pool is left a thread

The manager's job and the job of a consumer loop on a flag until `stop()`, and each keeps a
thread. A thread with anything else in its hands comes back for the front of the queue. So
either the threads of the pool can empty the queue at any time, or they can all be kept:
what decides is how many threads there are, how many consumers, and on which side.
-/

namespace DataPipeline

open Machine

/-- The thread executes a job that loops on a flag. -/
def Worker.loops (plan : Plan) : Worker Task → Bool
  | .running t => plan.sets t.job
  | _ => false

/-- The thread does not. -/
def Worker.free (plan : Plan) (t : Worker Task) : Bool := !t.loops plan

namespace Control

/-- A step of a thread of the pool. -/
def Act.ofPool : Act → Bool
  | .threadLoop _ | .spurious _ | .work _ _ => true
  | .caller _ | .main _ => false

/-- Some thread of the pool executes neither `dm_run` nor a consumer. -/
def SomeFree (plan : Plan) (c : Control) : Prop := ∃ t ∈ c.pool.threads, t.loops plan = false

instance (plan : Plan) (c : Control) : Decidable (SomeFree plan c) :=
  inferInstanceAs (Decidable (∃ t ∈ c.pool.threads, t.loops plan = false))

/-- The threads of the pool can come to take every job in the queue, nobody else doing anything
and the passes of the servers returning. -/
def CanEmpty (plan : Plan) (c : Control) : Prop :=
  ∃ acts d, (∀ a ∈ acts, a.ofPool = true) ∧ run (step plan) c acts = some d ∧ d.pool.jobs = []

/-! ### What a free thread does -/

theorem step_work {plan : Plan} {c : Control} {i : Nat} {t : Task}
    (h : c.pool.At i (.running t)) (outcome : Bool) :
    step plan c (.work i outcome) = some (c.work plan i t outcome) := by
  have h : c.pool.threads[i]? = some (.running t) := h
  simp only [step, h]

/-- A job that does not loop sets no flag. -/
theorem work_flags_of_not_sets {plan : Plan} {c : Control} {i : Nat} {t : Task}
    (hfree : plan.sets t.job = false) (outcome : Bool) :
    (c.work plan i t outcome).flags = c.flags := by
  refine if_neg fun h => ?_
  rw [hfree] at h
  exact Bool.false_ne_true h.2

/-- A job that does not loop goes on or returns. -/
theorem step_work_of_not_sets {plan : Plan} {c : Control} {i : Nat} {t : Task} {outcome : Bool}
    (ht : c.pool.At i (.running t)) (hfree : plan.sets t.job = false) :
    step plan c (.work i outcome) = some { c with
      pool := c.pool.goto i (((plan.next (c.flags t.job) outcome t).map
        fun pc => .running ⟨t.job, pc⟩).getD .awake) } := by
  have hflags := work_flags_of_not_sets (c := c) (i := i) hfree outcome
  rw [step_work ht]
  cases hn : plan.next (c.flags t.job) outcome t with
  | none | some pc =>
    simp only [Control.work, hn] at hflags ⊢
    rw [hflags]
    rfl

theorem step_next {plan : Plan} {c : Control} {i : Nat} {t : Task} {outcome : Bool} {pc : Pc}
    (ht : c.pool.At i (.running t)) (hfree : plan.sets t.job = false)
    (hn : plan.next (c.flags t.job) outcome t = some pc) :
    step plan c (.work i outcome) =
      some { c with pool := c.pool.goto i (.running ⟨t.job, pc⟩) } := by
  rw [step_work_of_not_sets ht hfree, hn]
  rfl

theorem step_return {plan : Plan} {c : Control} {i : Nat} {t : Task} {outcome : Bool}
    (ht : c.pool.At i (.running t)) (hfree : plan.sets t.job = false)
    (hn : plan.next (c.flags t.job) outcome t = none) :
    step plan c (.work i outcome) = some { c with pool := c.pool.goto i .awake } := by
  rw [step_work_of_not_sets ht hfree, hn]
  rfl

/-- If nothing more turns out well, a job that does not loop returns in two steps. -/
theorem next_of_not_sets {plan : Plan} {t : Task} (hfree : plan.sets t.job = false)
    (isRunning : Bool) :
    plan.next isRunning false t = none ∨ (plan.next isRunning false t = some .write ∧
      plan.next isRunning false ⟨t.job, .write⟩ = none) := by
  obtain ⟨job, pc⟩ := t
  cases job with
  | dmRun => cases hfree
  | nodeRun side k =>
    have hno : plan.type (.nodeRun side k) ≠ some .CONSUMER := by
      simpa [Plan.sets] using hfree
    unfold Plan.next
    dsimp only
    split
    · contradiction
    · cases pc with
      | move => exact Or.inr ⟨rfl, rfl⟩
      | enter | opening | test | body | write => exact Or.inl rfl
    · exact Or.inl rfl

/-- A thread that executes a job that does not loop can return from it. -/
theorem run_release {plan : Plan} {c : Control} {i : Nat} {t : Task}
    (ht : c.pool.At i (.running t)) (hfree : plan.sets t.job = false) :
    ∃ acts, (∀ a ∈ acts, a.ofPool = true) ∧
      run (step plan) c acts = some { c with pool := c.pool.goto i .awake } := by
  rcases next_of_not_sets hfree (c.flags t.job) with hn | ⟨hn, hn'⟩
  · refine ⟨[.work i false], fun a ha => List.mem_singleton.mp ha ▸ rfl, ?_⟩
    rw [run_cons, step_return ht hfree hn]
    rfl
  · refine ⟨List.replicate 2 (.work i false), fun a ha => List.eq_of_mem_replicate ha ▸ rfl, ?_⟩
    have hsecond : step plan { c with pool := c.pool.goto i (.running ⟨t.job, .write⟩) }
        (.work i false) = some { c with
          pool := (c.pool.goto i (.running ⟨t.job, .write⟩)).goto i .awake } :=
      step_return (t := ⟨t.job, .write⟩) (Pool.at_goto_self ht _) hfree hn'
    rw [Pool.goto_goto] at hsecond
    simp only [List.replicate, run_cons, step_next ht hfree hn, Option.bind_some, hsecond, run_nil]

/-- A free thread can come to test the predicate again. -/
theorem run_awake {plan : Plan} {c : Control} (hA : Alive plan c) {i : Nat} {t : Worker Task}
    (ht : c.pool.At i t) (hfree : t.loops plan = false) :
    ∃ acts, (∀ a ∈ acts, a.ofPool = true) ∧
      run (step plan) c acts = some { c with pool := c.pool.goto i .awake } := by
  cases t with
  | awake =>
    refine ⟨[], fun a ha => absurd ha List.not_mem_nil, ?_⟩
    rw [Pool.goto_eq_self ht]
    rfl
  | parked =>
    refine ⟨[.spurious i], fun a ha => List.mem_singleton.mp ha ▸ rfl, ?_⟩
    have ht : c.pool.threads[i]? = some .parked := ht
    simp only [run_cons, step, Pool.wake, ht, Option.map_some, Option.bind_some, run_nil]
  | running t => exact run_release ht hfree
  | terminated => exact absurd (Pool.mem_threads_iff.mpr ⟨i, ht⟩) hA.noneTerminated

/-- A free thread can take the job at the front of the queue. -/
theorem run_take {plan : Plan} {c : Control} (hA : Alive plan c) {i : Nat} {t : Worker Task}
    (ht : c.pool.At i t) (hfree : t.loops plan = false) {job : Job} {jobs : List Job}
    (hj : c.pool.jobs = job :: jobs) :
    ∃ acts, (∀ a ∈ acts, a.ofPool = true) ∧ run (step plan) c acts =
      some { c with pool := { c.pool with jobs }.goto i (.running ⟨job, .enter⟩) } := by
  obtain ⟨acts, hacts, hrun⟩ := run_awake hA ht hfree
  refine ⟨acts ++ [.threadLoop i], ?_, run_append_eq_some.mpr ⟨_, hrun, ?_⟩⟩
  · exact List.forall_mem_append.mpr ⟨hacts, fun a ha => List.mem_singleton.mp ha ▸ rfl⟩
  · have htake : (c.pool.goto i .awake).threadLoop (fun job => Task.mk job .enter) i = _ :=
      Pool.threadLoop_take (Pool.at_goto_self ht .awake) hA.notTerminating hj
    rw [run_cons, step, htake]
    exact congrArg (fun pool => some { c with pool })
      (Pool.goto_goto { c.pool with jobs } i .awake (.running ⟨job, .enter⟩))

/-! ### Every thread can be kept -/

/-- Where the queue has a looping job for every free thread, all threads can come to be kept. -/
theorem run_keep (plan : Plan) (jobs : List Job) {c : Control} (hA : Alive plan c)
    (hj : c.pool.jobs = jobs)
    (hfree : c.pool.threads.countP (Worker.free plan) ≤ jobs.countP plan.sets) :
    ∃ acts d, run (step plan) c acts = some d ∧ d.isRunning = c.isRunning ∧ ¬ SomeFree plan d := by
  induction jobs generalizing c with
  | nil =>
    refine ⟨[], c, rfl, rfl, ?_⟩
    rintro ⟨t, hmem, ht⟩
    have hpos : 0 < c.pool.threads.countP (Worker.free plan) :=
      List.countP_pos_iff.mpr ⟨t, hmem, by rw [Worker.free, ht]; rfl⟩
    exact absurd hpos (Nat.not_lt.mpr hfree)
  | cons job jobs ih =>
    by_cases hsome : SomeFree plan c
    · obtain ⟨t, hmem, ht⟩ := hsome
      obtain ⟨i, hi⟩ := Pool.mem_threads_iff.mp hmem
      obtain ⟨acts, -, hrun⟩ := run_take hA hi ht hj
      -- a looping job takes a free thread and itself out of the count, any other neither
      have hbound : (c.pool.goto i (.running ⟨job, .enter⟩)).threads.countP (Worker.free plan) ≤
          jobs.countP plan.sets := by
        have hcount := Pool.countP_goto hi (Worker.free plan) (.running ⟨job, .enter⟩)
        have hold : [t].countP (Worker.free plan) = 1 := by
          rw [List.countP_singleton, Worker.free, ht]
          rfl
        have hnew : [.running ⟨job, .enter⟩].countP (Worker.free plan) +
            [job].countP plan.sets = 1 := by
          rw [List.countP_singleton, List.countP_singleton, Worker.free, Worker.loops]
          cases plan.sets job <;> rfl
        rw [← List.singleton_append, List.countP_append] at hfree
        omega
      obtain ⟨acts', d, hrun', hup, hkept⟩ :=
        ih (hA.goto (i := i) (t := .running ⟨job, .enter⟩) nofun c.flags) rfl hbound
      exact ⟨acts ++ acts', d, run_append_eq_some.mpr ⟨_, hrun, hrun'⟩, hup, hkept⟩
    · exact ⟨[], c, rfl, rfl, hsome⟩

/-! ### A thread is left -/

/-- The job that a thread executes. -/
def jobOf : Worker Task → Option Job
  | .running t => some t.job
  | _ => none

/-- The jobs in execution. -/
def executing (c : Control) : List Job := c.pool.threads.filterMap jobOf

theorem count_executing (c : Control) (job : Job) :
    c.executing.count job = c.pool.threads.countP (Worker.executes job) := by
  rw [executing, List.count_filterMap]
  refine List.countP_congr fun t _ => ?_
  cases t <;> rfl

theorem countP_executing (plan : Plan) (c : Control) :
    c.executing.countP plan.sets = c.pool.threads.countP (Worker.loops plan) := by
  rw [executing, List.countP_filterMap]
  refine List.countP_congr fun t _ => ?_
  cases t <;> rfl

theorem mem_jobs_of_type {plan : Plan} {side : Side} {k : Nat} {type : ProxyType}
    (h : plan.type (.nodeRun side k) = some type) : .nodeRun side k ∈ plan.jobs side := by
  obtain ⟨node, hnode, _⟩ := Option.map_eq_some_iff.mp h
  exact List.mem_map_of_mem (List.mem_range.mpr (List.getElem?_eq_some_iff.mp hnode).1)

/-- The looping jobs of a plan without input consumers are those that `run()` queues. -/
theorem mem_pushed_of_sets {plan : Plan} (hin : ∀ node ∈ plan.inNodes, node.type ≠ .CONSUMER)
    {job : Job} (hsets : plan.sets job = true) : job ∈ .dmRun :: plan.jobs .output := by
  cases job with
  | dmRun => exact List.mem_cons_self ..
  | nodeRun side k =>
    have htype : plan.type (.nodeRun side k) = some .CONSUMER := by
      simpa [Plan.sets] using hsets
    cases side with
    | input =>
      obtain ⟨node, hnode, hconsumer⟩ := Option.map_eq_some_iff.mp htype
      exact absurd hconsumer (hin node (List.mem_of_getElem? hnode))
    | output => exact List.mem_cons_of_mem _ (mem_jobs_of_type htype)

theorem countP_loops_le {plan : Plan} {uninitialised : Bool} {acts : List Act} {c : Control}
    (hrun : run (step plan) (start plan uninitialised) acts = some c)
    (hin : ∀ node ∈ plan.inNodes, node.type ≠ .CONSUMER) :
    c.pool.threads.countP (Worker.loops plan) ≤
      (Job.dmRun :: plan.jobs .output).countP plan.sets := by
  have honce : (c.executing.filter plan.sets).Nodup := by
    refine List.nodup_iff_count_le_one.mpr fun job => ?_
    by_cases hsets : plan.sets job = true
    · have hload := run_load_le hrun (isInput_pushed (mem_pushed_of_sets hin hsets))
      rw [List.count_filter hsets, count_executing]
      unfold load outstanding at hload
      omega
    · rw [List.count_eq_zero_of_not_mem fun hm => hsets (List.mem_filter.mp hm).2]
      exact Nat.zero_le 1
  have hsub : c.executing.filter plan.sets ⊆
      (Job.dmRun :: plan.jobs .output).filter plan.sets := fun job hm => by
    obtain ⟨_, hsets⟩ := List.mem_filter.mp hm
    exact List.mem_filter.mpr ⟨mem_pushed_of_sets hin hsets, hsets⟩
  rw [← countP_executing, List.countP_eq_length_filter, List.countP_eq_length_filter]
  exact (List.subperm_of_subset honce hsub).length_le

/-- The looping jobs among those of a proxy are those of its consumers. -/
theorem countP_sets_jobs (plan : Plan) (side : Side) :
    (plan.jobs side).countP plan.sets =
      (plan.nodes side).countP fun node => node.type == .CONSUMER := by
  have htype : plan.sets ∘ Job.nodeRun side =
      fun k => (plan.nodes side)[k]?.map ProxyNode.type == some .CONSUMER := rfl
  rw [Plan.jobs, List.countP_map, htype]
  generalize plan.nodes side = nodes
  induction nodes with
  | nil => rfl
  | cons node nodes ih =>
    rw [List.length_cons, List.range_succ_eq_map, List.countP_cons, List.countP_map,
      List.countP_cons, ← ih]
    rfl

theorem countP_sets_pushed (plan : Plan) :
    (Job.dmRun :: plan.jobs .output).countP plan.sets =
      1 + plan.outNodes.countP fun node => node.type == .CONSUMER := by
  rw [List.countP_cons, countP_sets_jobs]
  exact Nat.add_comm _ 1

/-- The threads of a running framework: all have been created, and none has terminated. -/
theorem alive_of_isRunning {plan : Plan} {uninitialised : Bool} {acts : List Act} {c : Control}
    (hrun : run (step plan) (start plan uninitialised) acts = some c) (hup : c.isRunning = true) :
    Alive plan c ∧ c.pool.threads.length = plan.nproc := by
  have hP := run_programs hrun
  have hA := run_alive hrun (beforeStop_of_isRunning hP (run_lowered hrun) hup)
  have hlength := hA.threads
  rw [count_spawn_of_isRunning hP (run_raisedOnce hrun) hup] at hlength
  exact ⟨hA, hlength⟩

theorem someFree_of_lt {plan : Plan} {uninitialised : Bool} {acts : List Act} {c : Control}
    (hrun : run (step plan) (start plan uninitialised) acts = some c) (hup : c.isRunning = true)
    (hin : ∀ node ∈ plan.inNodes, node.type ≠ .CONSUMER)
    (hlt : 1 + plan.outNodes.countP (fun node => node.type == .CONSUMER) < plan.nproc) :
    SomeFree plan c := by
  by_contra hnone
  have hall : c.pool.threads.countP (Worker.loops plan) = c.pool.threads.length :=
    List.countP_eq_length.mpr fun t ht =>
      eq_true_of_ne_false fun hfree => hnone ⟨t, ht, hfree⟩
  have hle := countP_loops_le hrun hin
  rw [hall, (alive_of_isRunning hrun hup).2, countP_sets_pushed] at hle
  omega

/-- If some thread is always left, the threads can empty the queue. -/
theorem canEmpty_of_someFree {plan : Plan} {uninitialised : Bool}
    (hleft : ∀ acts c, run (step plan) (start plan uninitialised) acts = some c →
      c.isRunning = true → SomeFree plan c) (jobs : List Job) {acts : List Act} {c : Control}
    (hrun : run (step plan) (start plan uninitialised) acts = some c) (hup : c.isRunning = true)
    (hj : c.pool.jobs = jobs) : CanEmpty plan c := by
  induction jobs generalizing acts c with
  | nil => exact ⟨[], c, fun a ha => absurd ha List.not_mem_nil, rfl, hj⟩
  | cons job jobs ih =>
    obtain ⟨t, hmem, ht⟩ := hleft acts c hrun hup
    obtain ⟨i, hi⟩ := Pool.mem_threads_iff.mp hmem
    obtain ⟨first, hfirst, htake⟩ := run_take (alive_of_isRunning hrun hup).1 hi ht hj
    obtain ⟨rest, d, hrest, hd, hempty⟩ :=
      ih (run_append_eq_some.mpr ⟨c, hrun, htake⟩) hup rfl
    have hacts := List.forall_mem_append.mpr ⟨hfirst, hrest⟩
    exact ⟨first ++ rest, d, hacts, run_append_eq_some.mpr ⟨_, htake, hd⟩, hempty⟩

/-! ### When a thread is always left -/

/-- In every state of the running framework some thread of the pool executes neither `dm_run`
nor a consumer, and the threads can come to take every job in the queue if the passes of the
servers return, exactly if no input node is a consumer and there are more threads than consumers
and the manager. -/
theorem never_starved_iff (plan : Plan) (uninitialised : Bool) :
    (∀ acts c, run (step plan) (start plan uninitialised) acts = some c → c.isRunning = true →
      SomeFree plan c ∧ CanEmpty plan c) ↔
        (∀ node ∈ plan.inNodes, node.type ≠ .CONSUMER) ∧
          1 + plan.outNodes.countP (fun node => node.type == .CONSUMER) < plan.nproc := by
  constructor
  · intro h
    -- from a state whose queue has as many looping jobs as there are threads, all can be kept
    have hstarves : ∀ acts c, run (step plan) (start plan uninitialised) acts = some c →
        c.isRunning = true → c.pool.jobs.countP plan.sets < plan.nproc := by
      intro acts c hrun hup
      obtain ⟨hA, hlength⟩ := alive_of_isRunning hrun hup
      by_contra hle
      have hfree : c.pool.threads.countP (Worker.free plan) ≤ c.pool.jobs.countP plan.sets :=
        List.countP_le_length.trans (hlength.le.trans (Nat.le_of_not_lt hle))
      obtain ⟨rest, d, hrest, hd, hkept⟩ := run_keep plan _ hA rfl hfree
      exact hkept (h _ d (run_append_eq_some.mpr ⟨c, hrun, hrest⟩) (hd.trans hup)).1
    obtain ⟨acts, hready⟩ := run_ready plan uninitialised
    refine ⟨fun node hnode hconsumer => ?_, ?_⟩
    · obtain ⟨k, hk, rfl⟩ := List.getElem_of_mem hnode
      obtain ⟨rounds, c, hrounds, hc, hcount⟩ :=
        spinning_rounds plan (spinning_ready plan uninitialised) plan.nproc
      have hsets : plan.sets (.nodeRun .input k) = true := by
        simp [Plan.sets, Plan.type, Plan.nodes, hk, hconsumer]
      have hlt := hstarves _ c (run_append_eq_some.mpr ⟨_, hready, hrounds⟩) hc.isRunning
      have hmany := hcount (.nodeRun .input k)
      rw [count_jobs hk, Nat.mul_one] at hmany
      have hle : c.pool.jobs.count (.nodeRun .input k) ≤ c.pool.jobs.countP plan.sets :=
        List.countP_mono_left fun job _ he => eq_of_beq he ▸ hsets
      omega
    · have hlt := hstarves _ _ hready rfl
      rw [ready, countP_sets_pushed] at hlt
      exact hlt
  · rintro ⟨hin, hlt⟩ acts c hrun hup
    have hleft : ∀ acts c, run (step plan) (start plan uninitialised) acts = some c →
        c.isRunning = true → SomeFree plan c := fun acts c hrun hup =>
      someFree_of_lt hrun hup hin hlt
    exact ⟨hleft acts c hrun hup, canEmpty_of_someFree hleft _ hrun hup rfl⟩

/-- A TCP server and a consumer, with no number of threads. -/
def unsized : PTree :=
  .node "" [
    ("dataManager", .node "" [("name", .node "dm" []), ("mode", .node "broadcast" [])]),
    ("inProxy", .node "" [("", .node "" [("type", .node "TCP_Server" []),
      ("port", .node "50000" []), ("name", .node "TcpServer1" [])])]),
    ("outProxy", .node "" [("", .node "" [("type", .node "CONSUMER" []),
      ("port", .node "50000" []), ("name", .node "Out1" [])])])]

/-- The only thread of the default pool is kept by the manager while `run()` has returned and
the server waits in the queue. -/
theorem default_pool_starved :
    ∃ w acts c, parseConf .plain (some unsized) World.fresh = some (true, w) ∧
      run (step w.plan) (start w.plan false) acts = some c ∧ c.isRunning = true ∧
      c.caller = w.plan.stop ∧ .nodeRun .input 0 ∈ c.pool.jobs ∧ ¬ SomeFree w.plan c := by
  refine ⟨_, List.replicate 7 (.caller none) ++ List.replicate 2 (.main none) ++ [.threadLoop 0],
    _, rfl, rfl, rfl, rfl, ?_, ?_⟩
  · decide
  · decide

end Control

end DataPipeline
