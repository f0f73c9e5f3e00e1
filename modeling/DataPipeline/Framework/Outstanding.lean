import DataPipeline.Framework.Control
import DataPipeline.Topology.Wiring
import Mathlib.Data.List.Count

/-!
# The jobs of the input nodes

`runJobs` queues every input node in turn, over and over, and never asks whether the
last job of a node has been executed. So what is outstanding of a node is what was
queued and has not returned; the nodes are queued evenly; the workers bound how much is
executed at once; and nothing bounds how much waits.
-/

namespace DataPipeline

open Machine

/-- The thread executes `job`. -/
def Worker.executes (job : Job) : Worker Task → Bool
  | .running t => t.job == job
  | _ => false

/-- The thread executes some job. -/
def Worker.isRunning : Worker Task → Bool
  | .running _ => true
  | _ => false

/-- The job that an instruction pushes. -/
def Instr.pushed : Instr → List Job
  | .push job => [job]
  | _ => []

namespace Control

/-- The run() jobs of an object that are queued or being executed. -/
def outstanding (c : Control) (job : Job) : Nat :=
  c.pool.jobs.count job + c.pool.threads.countP (Worker.executes job)

/-- The job that a step queues. -/
def queued (c : Control) : Act → List Job
  | .caller _ => (c.caller.take 1).flatMap Instr.pushed
  | .main _ =>
    match c.main with
    | .round todo => (todo.take 1).flatMap Instr.pushed
    | _ => []
  | _ => []

/-- The job that returns in a step. -/
def returned (plan : Plan) (c : Control) : Act → List Job
  | .work i outcome =>
    match c.pool.threads[i]? with
    | some (.running t) => if plan.next (c.flags t.job) outcome t = none then [t.job] else []
    | _ => []
  | _ => []

/-! ### What is outstanding was queued and has not returned -/

/-- The head of a list counts on its own. -/
theorem count_cons_eq {α : Type} [DecidableEq α] (x : α) (l : List α) (a : α) :
    (x :: l).count a = [x].count a + l.count a := by
  rw [← List.singleton_append, List.count_append]

theorem countP_running (t : Task) (job : Job) :
    [Worker.running t].countP (Worker.executes job) = [t.job].count job := rfl

theorem countP_idle {t : Worker Task} {job : Job} (h : t.executes job = false) :
    [t].countP (Worker.executes job) = 0 := by
  rw [List.countP_singleton, h, if_neg Bool.false_ne_true]

theorem executes_wake (job : Job) (t : Worker Task) :
    (Worker.executes job (if t.isParked then .awake else t)) = Worker.executes job t := by
  cases t <;> rfl

/-- An instruction queues what it pushes and ends no job. -/
theorem exec_outstanding {c d : Control} {woken : Option Nat} {ins : Instr}
    (h : c.exec woken ins = some d) (job : Job) :
    d.outstanding job = c.outstanding job + ins.pushed.count job := by
  cases exec_cases h with
  | spawn =>
    simp only [outstanding, Pool.spawn, List.countP_append, Instr.pushed, List.count_nil]
    rfl
  | push =>
    simp only [outstanding, Pool.queueJob, List.count_append, Instr.pushed]
    omega
  | notify hi =>
    have hcount := Pool.countP_goto hi (Worker.executes job) .awake
    rw [countP_idle rfl, countP_idle rfl, Nat.add_zero, Nat.add_zero] at hcount
    simp only [outstanding, hcount, Instr.pushed, List.count_nil, Nat.add_zero]
    rfl
  | notifyAll =>
    have hcomp : Worker.executes job ∘ (fun t => if t.isParked then Worker.awake else t) =
        Worker.executes job := funext (executes_wake job)
    simp only [outstanding, Pool.notifyAll, List.countP_map, hcomp, Instr.pushed, List.count_nil,
      Nat.add_zero]
  | joinAll hterm =>
    have hzero : c.pool.threads.countP (Worker.executes job) = 0 := by
      apply List.countP_eq_zero.mpr
      intro t ht
      rw [hterm t ht]
      exact Bool.false_ne_true
    simp only [outstanding, hzero, List.countP_nil, Instr.pushed, List.count_nil, Nat.add_zero]
  | raise | notifyNobody | startMain | lower | clear | joinMain | terminate => rfl

/-- One step changes what is outstanding by what it queues and what returns in it. -/
theorem Step.outstanding {plan : Plan} {c c' : Control} {a : Act} (h : Step plan c a c')
    (job : Job) :
    c'.outstanding job + (returned plan c a).count job =
      c.outstanding job + (queued c a).count job := by
  cases h with
  | caller hc hd =>
    have he := exec_outstanding hd job
    simp only [queued, hc, List.take_succ_cons, List.take_zero, List.flatMap_cons, List.flatMap_nil,
      List.append_nil, returned, List.count_nil, Nat.add_zero]
    exact he
  | main hm hd =>
    have he := exec_outstanding hd job
    simp only [queued, hm, List.take_succ_cons, List.take_zero, List.flatMap_cons, List.flatMap_nil,
      List.append_nil, returned, List.count_nil, Nat.add_zero]
    exact he
  | mainTest hm | mainRound hm =>
    simp only [queued, hm, List.take_nil, List.flatMap_nil, returned, List.count_nil, Nat.add_zero]
    rfl
  | threadLoop hp =>
    simp only [queued, returned, List.count_nil, Nat.add_zero]
    obtain ⟨hi, ⟨_, rfl⟩ | ⟨_, _, rfl⟩ | ⟨job', jobs, _, hj, rfl⟩⟩ := Pool.threadLoop_cases hp
    · have hcount := Pool.countP_goto hi (Worker.executes job) .terminated
      rw [countP_idle rfl, countP_idle rfl, Nat.add_zero, Nat.add_zero] at hcount
      simp only [Control.outstanding, hcount]
      rfl
    · have hcount := Pool.countP_goto hi (Worker.executes job) .parked
      rw [countP_idle rfl, countP_idle rfl, Nat.add_zero, Nat.add_zero] at hcount
      simp only [Control.outstanding, hcount]
      rfl
    · have hcount := Pool.countP_goto (p := { c.pool with jobs }) hi (Worker.executes job)
        (.running ⟨job', .enter⟩)
      rw [countP_idle rfl, countP_running, Nat.add_zero] at hcount
      have hcons := count_cons_eq job' jobs job
      simp only [Control.outstanding, hj, hcons, hcount]
      simp only [Pool.goto]
      omega
  | spurious hp =>
    obtain ⟨hi, rfl⟩ := Pool.wake_eq_some hp
    have hcount := Pool.countP_goto hi (Worker.executes job) .awake
    rw [countP_idle rfl, countP_idle rfl, Nat.add_zero, Nat.add_zero] at hcount
    simp only [queued, returned, List.count_nil, Nat.add_zero, Control.outstanding, hcount]
    rfl
  | @work i outcome t ht =>
    have hcount := Pool.countP_goto ht (Worker.executes job)
    have ht' : c.pool.threads[i]? = some (.running t) := ht
    simp only [queued, List.count_nil, Nat.add_zero, returned, ht', Control.outstanding,
      Control.work]
    cases hn : plan.next (c.flags t.job) outcome t with
    | none =>
      have hawake := hcount .awake
      rw [countP_running, countP_idle (t := .awake) rfl, Nat.add_zero] at hawake
      simp only [ite_true, Pool.goto] at hawake ⊢
      omega
    | some pc =>
      have hnext := hcount (.running ⟨t.job, pc⟩)
      rw [countP_running, countP_running] at hnext
      simp only [reduceCtorEq, ite_false, List.count_nil, Pool.goto] at hnext ⊢
      omega

/-- All jobs queued in a run, in order. -/
def queuedIn (plan : Plan) (uninitialised : Bool) (acts : List Act) : List Job :=
  observe (step plan) queued (start plan uninitialised) acts

/-- All jobs that returned in a run, in order. -/
def returnedIn (plan : Plan) (uninitialised : Bool) (acts : List Act) : List Job :=
  observe (step plan) (returned plan) (start plan uninitialised) acts

theorem run_outstanding {plan : Plan} {uninitialised : Bool} {acts : List Act} {c : Control}
    (hrun : run (step plan) (start plan uninitialised) acts = some c) (job : Job) :
    c.outstanding job + (returnedIn plan uninitialised acts).count job =
      (queuedIn plan uninitialised acts).count job := by
  refine run_history (I := fun acts c => c.outstanding job +
    (returnedIn plan uninitialised acts).count job =
      (queuedIn plan uninitialised acts).count job) rfl ?_ hrun
  intro acts u a v hu hI h
  have hstep := (step_cases h).outstanding job
  rw [returnedIn, queuedIn, observe_concat _ hu, observe_concat _ hu, List.count_append,
    List.count_append]
  rw [returnedIn, queuedIn] at hI
  omega

/-! ### How often each input node is queued -/

/-- The jobs of input nodes. -/
def isInput : Job → Bool
  | .nodeRun .input _ => true
  | _ => false

/-- `runJobs` has queued whole rounds and a part of one, whose rest is to come. -/
structure Rounds (plan : Plan) (log : List Job) (c : Control) : Prop where
  caller : ∀ job ∈ c.caller.flatMap Instr.pushed, isInput job = false
  rounds : ∃ r part, log.filter isInput = (List.replicate r (plan.jobs .input)).flatten ++ part ∧
    match c.main with
    | .round todo => part ++ todo.flatMap Instr.pushed = plan.jobs .input
    | _ => part = []

theorem pushed_proxyRun (plan : Plan) (side : Side) :
    (plan.proxyRun side).flatMap Instr.pushed = plan.jobs side := by
  unfold Plan.proxyRun
  induction plan.jobs side with
  | nil => rfl
  | cons job jobs ih =>
    rw [List.flatMap_cons, List.flatMap_append, ih]
    rfl

theorem isInput_jobs {plan : Plan} {side : Side} {job : Job} (h : job ∈ plan.jobs side) :
    isInput job = true ↔ side = .input := by
  obtain ⟨k, _, rfl⟩ := List.mem_map.mp h
  cases side
  · exact iff_of_true rfl rfl
  · exact iff_of_false Bool.false_ne_true nofun

/-- The jobs that `run()` queues are not those of input nodes. -/
theorem isInput_pushed {plan : Plan} {job : Job} (h : job ∈ .dmRun :: plan.jobs .output) :
    isInput job = false := by
  rcases List.mem_cons.mp h with rfl | hj
  · rfl
  · exact Bool.not_eq_true _ ▸ fun h => nomatch (isInput_jobs hj).mp h

/-- The calling thread queues the manager's job and then the output nodes. -/
theorem pushed_caller (plan : Plan) :
    (plan.run ++ plan.stop).flatMap Instr.pushed = .dmRun :: plan.jobs .output := by
  have hspawn : (List.replicate plan.nproc Instr.spawn).flatMap Instr.pushed = [] :=
    List.flatMap_eq_nil_iff.mpr fun ins hins => by rw [List.eq_of_mem_replicate hins]; rfl
  have hclear : ∀ jobs : List Job, (jobs.map Instr.clear).flatMap Instr.pushed = [] := fun jobs =>
    List.flatMap_eq_nil_iff.mpr fun ins hins => by
      obtain ⟨_, _, rfl⟩ := List.mem_map.mp hins
      rfl
  simp only [Plan.run, Plan.stop, queueJob, List.flatMap_append, List.flatMap_cons, hspawn, hclear,
    pushed_proxyRun, Instr.pushed, List.flatMap_nil, List.nil_append, List.append_nil,
    List.singleton_append]

theorem rounds_start (plan : Plan) (uninitialised : Bool) :
    Rounds plan [] (start plan uninitialised) where
  caller := by
    intro job hj
    rw [start, pushed_caller] at hj
    exact isInput_pushed hj
  rounds := ⟨0, [], rfl, rfl⟩

theorem Rounds.step {plan : Plan} {log : List Job} {c c' : Control} {a : Act}
    (hR : Rounds plan log c) (h : Step plan c a c') : Rounds plan (log ++ queued c a) c' := by
  obtain ⟨hcaller, r, part, hlog, hpart⟩ := hR
  cases h with
  | @caller woken ins rest d hc hd =>
    rw [hc, List.flatMap_cons] at hcaller
    have hnil : ins.pushed.filter isInput = [] := List.filter_eq_nil_iff.mpr fun job hj =>
      (hcaller job (List.mem_append_left _ hj)) ▸ Bool.false_ne_true
    refine ⟨fun job hj => hcaller job (List.mem_append_right _ hj), r, part, ?_, ?_⟩
    · simp only [queued, hc, List.take_succ_cons, List.take_zero, List.flatMap_cons,
        List.flatMap_nil, List.append_nil, List.filter_append, hnil, hlog]
    · rcases exec_main hd with he | ⟨_, hm, he⟩
      · simp only [he]
        exact hpart
      · simp only [he]
        rw [hm] at hpart
        exact hpart
  | mainTest hm =>
    rw [hm] at hpart
    obtain rfl : part = [] := hpart
    refine ⟨hcaller, r, [], ?_, ?_⟩
    · simp only [queued, hm, List.append_nil, hlog]
    · cases c.isRunning
      · rfl
      · exact pushed_proxyRun plan .input
  | mainRound hm =>
    -- the round is complete
    rw [hm] at hpart
    obtain rfl : part = plan.jobs .input := (List.append_nil part).symm.trans hpart
    refine ⟨hcaller, r + 1, [], ?_, rfl⟩
    simp only [queued, hm, List.take_nil, List.flatMap_nil, List.append_nil, hlog,
      List.replicate_succ', List.flatten_append, List.flatten_singleton]
  | @main woken ins todo d hm hd =>
    rw [hm] at hpart
    have hsplit : part ++ (ins.pushed ++ todo.flatMap Instr.pushed) = plan.jobs .input := hpart
    have hall : ins.pushed.filter isInput = ins.pushed := List.filter_eq_self.mpr fun job hj =>
      (isInput_jobs (hsplit ▸ List.mem_append_right _ (List.mem_append_left _ hj))).mpr rfl
    refine ⟨(exec_caller hd).symm ▸ hcaller, r, part ++ ins.pushed, ?_, ?_⟩
    · simp only [queued, hm, List.take_succ_cons, List.take_zero, List.flatMap_cons,
        List.flatMap_nil, List.append_nil, List.filter_append, hall, hlog, List.append_assoc]
    · exact (List.append_assoc ..).trans hsplit
  | threadLoop | spurious | work =>
    refine ⟨hcaller, r, part, ?_, hpart⟩
    simp only [queued, List.append_nil, hlog]

theorem run_rounds {plan : Plan} {uninitialised : Bool} {acts : List Act} {c : Control}
    (hrun : run (step plan) (start plan uninitialised) acts = some c) :
    Rounds plan (queuedIn plan uninitialised acts) c := by
  refine run_history (I := fun acts c => Rounds plan (queuedIn plan uninitialised acts) c)
    (rounds_start plan uninitialised) ?_ hrun
  intro acts u a v hu hR h
  rw [queuedIn, observe_concat _ hu]
  exact hR.step (step_cases h)

/-- In a part of one round every node has been queued once or not at all. -/
theorem count_part {plan : Plan} {part rest : List Job} (h : part ++ rest = plan.jobs .input)
    (k : Nat) : part.count (.nodeRun .input k) = if k < part.length then 1 else 0 := by
  have hinj : Function.Injective (Job.nodeRun .input) := fun _ _ he => (Job.nodeRun.inj he).2
  have hlen : part.length ≤ plan.inNodes.length := by
    have hl := congrArg List.length h
    rw [List.length_append, Plan.jobs, List.length_map, List.length_range] at hl
    exact Nat.le.intro hl
  have hpart : part = (List.range part.length).map (Job.nodeRun .input) := by
    have ht := congrArg (List.take part.length) h
    rw [List.take_left, Plan.jobs, ← List.map_take, List.take_range] at ht
    exact (Nat.min_eq_left hlen) ▸ ht
  rw [hpart, List.count_map_of_injective _ _ hinj, List.length_map, List.length_range,
    List.nodup_range.count]
  simp only [List.mem_range]

theorem count_jobs {plan : Plan} {k : Nat} (hk : k < plan.inNodes.length) :
    (plan.jobs .input).count (.nodeRun .input k) = 1 := by
  rw [count_part (List.append_nil _), if_pos]
  rwa [Plan.jobs, List.length_map, List.length_range]

/-- The input nodes are queued in turn: an earlier one as often as a later one, or once more. -/
theorem Rounds.even {plan : Plan} {log : List Job} {c : Control} (hR : Rounds plan log c)
    {j k : Nat} (hjk : j ≤ k) (hk : k < plan.inNodes.length) :
    log.count (.nodeRun .input k) ≤ log.count (.nodeRun .input j) ∧
      log.count (.nodeRun .input j) ≤ log.count (.nodeRun .input k) + 1 := by
  obtain ⟨r, part, hlog, hpart⟩ := hR.rounds
  have hrest : ∃ rest, part ++ rest = plan.jobs .input := by
    split at hpart
    · exact ⟨_, hpart⟩
    · exact ⟨_, hpart ▸ List.nil_append _⟩
  obtain ⟨rest, hrest⟩ := hrest
  have hcount : ∀ i < plan.inNodes.length, log.count (.nodeRun .input i) =
      r + if i < part.length then 1 else 0 := by
    intro i hi
    rw [← List.count_filter (p := isInput) rfl, hlog, List.count_append, List.count_flatten,
      List.map_replicate, List.sum_replicate_nat, count_jobs hi, Nat.mul_one, count_part hrest]
  rw [hcount j (Nat.lt_of_le_of_lt hjk hk), hcount k hk]
  split <;> split <;> omega

/-! ### How many jobs are executed at once -/

theorem exec_threads {c d : Control} {woken : Option Nat} {ins : Instr}
    (h : c.exec woken ins = some d) :
    d.pool.threads.length ≤ c.pool.threads.length + [ins].count .spawn := by
  cases exec_cases h with
  | spawn => exact Nat.le_of_eq List.length_append
  | notify => exact Nat.le_of_eq List.length_set
  | notifyAll => exact Nat.le_of_eq (List.length_map _)
  | joinAll => exact Nat.zero_le _
  | raise | push | notifyNobody | startMain | lower | clear | joinMain | terminate =>
    exact Nat.le_refl _

/-- The `runJobs` thread creates none. -/
theorem count_spawn_proxyRun (plan : Plan) (side : Side) :
    (plan.proxyRun side).count .spawn = 0 := by
  apply List.count_eq_zero.mpr
  intro h
  obtain ⟨job, _, hmem⟩ := List.mem_flatMap.mp h
  simp only [queueJob, List.mem_cons, reduceCtorEq, List.not_mem_nil, or_self] at hmem

theorem Step.threads {plan : Plan} {c c' : Control} {a : Act} (hP : Programs plan c)
    (h : Step plan c a c') :
    c'.pool.threads.length + c'.caller.count .spawn ≤
      c.pool.threads.length + c.caller.count .spawn := by
  cases h with
  | @caller woken ins rest d hc hd =>
    have hlen := exec_threads hd
    have hcons : c.caller.count .spawn = [ins].count .spawn + rest.count .spawn := by
      rw [hc, count_cons_eq]
    dsimp only
    omega
  | mainTest | mainRound => exact Nat.le_refl _
  | @main woken ins todo d hm hd =>
    have hlen := exec_threads hd
    have hzero : [ins].count .spawn = 0 := by
      have hsub := (hP.main _ hm).sublist.count_le .spawn
      have hcons := count_cons_eq ins todo .spawn
      rw [count_spawn_proxyRun] at hsub
      omega
    dsimp only
    rw [exec_caller hd]
    omega
  | threadLoop hp =>
    obtain ⟨_, ⟨_, rfl⟩ | ⟨_, _, rfl⟩ | ⟨_, _, _, _, rfl⟩⟩ := Pool.threadLoop_cases hp <;>
      exact Nat.le_of_eq (congrArg (· + _) List.length_set)
  | spurious hp =>
    obtain ⟨_, rfl⟩ := Pool.wake_eq_some hp
    exact Nat.le_of_eq (congrArg (· + _) List.length_set)
  | work => exact Nat.le_of_eq (congrArg (· + _) List.length_set)

theorem count_spawn_program (plan : Plan) :
    (plan.run ++ plan.stop).count .spawn = plan.nproc := by
  have hclear : ∀ jobs : List Job, (jobs.map Instr.clear).count .spawn = 0 := fun jobs =>
    List.count_eq_zero.mpr fun h => by
      obtain ⟨_, _, he⟩ := List.mem_map.mp h
      cases he
  simp only [Plan.run, Plan.stop, queueJob, List.count_append, List.count_replicate_self,
    List.count_cons, hclear, count_spawn_proxyRun, List.count_nil, List.cons_append]
  rfl

/-- The calling thread creates no more threads than the pool is told to have. -/
theorem run_threads {plan : Plan} {uninitialised : Bool} {acts : List Act} {c : Control}
    (hrun : run (step plan) (start plan uninitialised) acts = some c) :
    c.pool.threads.length ≤ plan.nproc := by
  have h := run_invariant (I := fun c => Programs plan c ∧
      c.pool.threads.length + c.caller.count .spawn ≤ plan.nproc)
    (fun _ _ _ hI h => ⟨hI.1.step (step_cases h),
      ((step_cases h).threads hI.1).trans hI.2⟩)
    ⟨programs_start plan uninitialised, ?_⟩ hrun
  · omega
  · rw [start, count_spawn_program]
    exact Nat.le_of_eq (Nat.zero_add _)

/-! ### Nothing bounds the queue

A run in which the threads of the pool never get the processor. -/

/-- The state after more jobs were queued. -/
def withJobs (c : Control) (jobs : List Job) : Control :=
  { c with pool := { c.pool with jobs := c.pool.jobs ++ jobs } }

/-- A thread that queues one job in two steps while nobody is parked queues any number of them;
`put` sets the instructions it has before it. -/
theorem queues_jobs (plan : Plan) {a : Act} (put : Control → List Instr → Control)
    (hjob : ∀ c job rest, c.pool.threads.any Worker.isParked = false →
      run (step plan) (put c (queueJob job ++ rest)) [a, a] = some (put (c.withJobs [job]) rest))
    (jobs : List Job) (rest : List Instr) {c : Control}
    (hpark : c.pool.threads.any Worker.isParked = false) :
    ∃ acts, run (step plan) (put c (jobs.flatMap queueJob ++ rest)) acts =
      some (put (c.withJobs jobs) rest) := by
  induction jobs generalizing c with
  | nil => exact ⟨[], by simp only [withJobs, List.flatMap_nil, List.nil_append, List.append_nil,
      run_nil]⟩
  | cons job jobs ih =>
    obtain ⟨acts, hacts⟩ := ih (c := c.withJobs [job]) hpark
    refine ⟨[a, a] ++ acts, run_append_eq_some.mpr ⟨put (c.withJobs [job]) _, ?_, hacts.trans ?_⟩⟩
    · rw [List.flatMap_cons, List.append_assoc]
      exact hjob c job _ hpark
    · simp only [withJobs, List.append_assoc, List.singleton_append]

/-- The calling thread queues jobs while nobody is parked. -/
theorem caller_queues (plan : Plan) {jobs : List Job} {rest : List Instr} {c : Control}
    (hc : c.caller = jobs.flatMap queueJob ++ rest)
    (hpark : c.pool.threads.any Worker.isParked = false) :
    ∃ acts, run (step plan) c acts = some { c.withJobs jobs with caller := rest } := by
  have hcaller := queues_jobs plan (a := .caller none)
    (fun c prog => { c with caller := prog }) (fun c job rest hpark => ?_) jobs rest hpark
  · rwa [← hc] at hcaller
  · simp only [queueJob, run_cons, run_nil, step, List.cons_append, List.nil_append, exec,
      Option.map_some, Option.bind_some, Pool.notifyOne, Pool.queueJob, hpark, Bool.false_eq_true,
      ite_false, withJobs]

/-- The `runJobs` thread queues jobs while nobody is parked. -/
theorem main_queues (plan : Plan) {jobs : List Job} {c : Control}
    (hc : c.main = .round (jobs.flatMap queueJob))
    (hpark : c.pool.threads.any Worker.isParked = false) :
    ∃ acts, run (step plan) c acts = some { c.withJobs jobs with main := .round [] } := by
  have hmain := queues_jobs plan (a := .main none)
    (fun c prog => { c with main := .round prog }) (fun c job rest hpark => ?_) jobs [] hpark
  · rwa [List.append_nil, ← hc] at hmain
  · simp only [queueJob, run_cons, run_nil, step, List.cons_append, List.nil_append, exec,
      Option.map_some, Option.bind_some, Pool.notifyOne, Pool.queueJob, hpark, Bool.false_eq_true,
      ite_false, withJobs]

/-- The calling thread creates threads while no other thread gets the processor. -/
theorem caller_spawns (plan : Plan) {n : Nat} {rest : List Instr} {c : Control}
    (hc : c.caller = List.replicate n .spawn ++ rest) :
    ∃ acts, run (step plan) c acts = some { c with
      pool := { c.pool with threads := c.pool.threads ++ List.replicate n .awake }
      caller := rest } := by
  induction n generalizing c with
  | zero =>
    refine ⟨[], ?_⟩
    rw [List.replicate_zero, List.nil_append] at hc
    subst hc
    simp only [List.replicate_zero, List.append_nil, run_nil]
  | succ n ih =>
    rw [List.replicate_succ, List.cons_append] at hc
    obtain ⟨acts, hacts⟩ :=
      ih (c := { c with pool := c.pool.spawn, caller := List.replicate n .spawn ++ rest }) rfl
    refine ⟨.caller none :: acts, ?_⟩
    simp only [run_cons, step, hc, exec, Option.map_some, Option.bind_some]
    apply hacts.trans
    simp only [Pool.spawn, List.append_assoc, List.singleton_append, List.replicate_succ]

/-- The framework is running and the `runJobs` thread is at its loop condition. -/
structure Spinning (c : Control) : Prop where
  isRunning : c.isRunning = true
  main : c.main = .test
  noneParked : c.pool.threads.any Worker.isParked = false

/-- What is left of `run()` once it has raised the flag, and all of `stop()`. -/
def afterRaise (plan : Plan) : List Instr :=
  (Job.dmRun :: plan.jobs .output).flatMap queueJob ++ .startMain :: plan.stop

theorem program_eq (plan : Plan) :
    plan.run ++ plan.stop = List.replicate plan.nproc .spawn ++ .raise :: afterRaise plan := by
  simp only [Plan.run, Plan.proxyRun, afterRaise, List.append_assoc, List.cons_append,
    List.nil_append, List.flatMap_cons]

theorem none_parked_replicate (n : Nat) :
    (List.replicate n (Worker.awake : Worker Task)).any Worker.isParked = false :=
  List.any_eq_false.mpr fun t ht => by rw [List.eq_of_mem_replicate ht]; exact Bool.false_ne_true

/-- The state in which `run()` returns if no other thread has got the processor. -/
def ready (plan : Plan) (uninitialised : Bool) : Control where
  pool := ⟨.dmRun :: plan.jobs .output, false, List.replicate plan.nproc .awake⟩
  isRunning := true
  flags := fun job => job == .dmRun && uninitialised
  caller := plan.stop
  main := .test

theorem run_ready (plan : Plan) (uninitialised : Bool) :
    ∃ acts, run (step plan) (start plan uninitialised) acts = some (ready plan uninitialised) := by
  obtain ⟨spawns, hspawns⟩ := caller_spawns plan
    (c := start plan uninitialised) (program_eq plan)
  obtain ⟨queues, hqueues⟩ := caller_queues plan
    (c := { start plan uninitialised with
      pool := ⟨[], false, List.replicate plan.nproc .awake⟩
      isRunning := true
      caller := (Job.dmRun :: plan.jobs .output).flatMap queueJob ++ .startMain :: plan.stop }) rfl
    (none_parked_replicate plan.nproc)
  refine ⟨spawns ++ .caller none :: (queues ++ [.caller none]),
    run_append_eq_some.mpr ⟨_, hspawns, ?_⟩⟩
  rw [run_cons]
  exact Option.bind_eq_some_iff.mpr ⟨_, rfl, run_append_eq_some.mpr ⟨_, hqueues, rfl⟩⟩

theorem spinning_ready (plan : Plan) (uninitialised : Bool) : Spinning (ready plan uninitialised) :=
  ⟨rfl, rfl, none_parked_replicate plan.nproc⟩

/-- One round of `runJobs`. -/
theorem spinning_round (plan : Plan) {c : Control} (hc : Spinning c) :
    ∃ acts, run (step plan) c acts = some (c.withJobs (plan.jobs .input)) ∧
      Spinning (c.withJobs (plan.jobs .input)) := by
  obtain ⟨acts, hacts⟩ := main_queues plan
    (c := { c with main := .round ((plan.jobs .input).flatMap queueJob) }) rfl hc.noneParked
  refine ⟨.main none :: (acts ++ [.main none]), ?_, hc.isRunning, hc.main, hc.noneParked⟩
  have hbegin : step plan c (.main none) =
      some { c with main := .round ((plan.jobs .input).flatMap queueJob) } := by
    simp only [step, hc.main, hc.isRunning, ite_true, Plan.proxyRun]
  rw [run_cons, hbegin, Option.bind_some]
  refine run_append_eq_some.mpr ⟨_, hacts, ?_⟩
  simp only [run_cons, run_nil, step, Option.bind_some, withJobs, ← hc.main]

/-- While only the `runJobs` thread gets the processor, the queue grows by a round each time. -/
theorem spinning_rounds (plan : Plan) {c : Control} (hc : Spinning c) (n : Nat) :
    ∃ acts d, run (step plan) c acts = some d ∧ Spinning d ∧
      ∀ job, n * (plan.jobs .input).count job ≤ d.pool.jobs.count job := by
  induction n with
  | zero => exact ⟨[], c, rfl, hc, fun job => by rw [Nat.zero_mul]; exact Nat.zero_le _⟩
  | succ n ih =>
    obtain ⟨acts, d, hacts, hd, hcount⟩ := ih
    obtain ⟨acts', hacts', hd'⟩ := spinning_round plan hd
    refine ⟨acts ++ acts', _, run_append_eq_some.mpr ⟨d, hacts, hacts'⟩, hd', fun job => ?_⟩
    have := hcount job
    rw [withJobs, List.count_append, Nat.succ_mul]
    omega

/-- The jobs of the input nodes, for every plan, so for that of every accepted topology. In
every reachable state the outstanding jobs of an object are those queued less those that
returned; the input nodes were queued evenly, in turn; and at most `nproc` jobs are being
executed. Nothing else bounds them: the framework can reach, while it is running, more
than any number of jobs of every input node in the queue. -/
theorem outstanding_jobs (plan : Plan) (uninitialised : Bool) :
    (∀ acts c, run (step plan) (start plan uninitialised) acts = some c →
      (∀ job, c.outstanding job + (returnedIn plan uninitialised acts).count job =
        (queuedIn plan uninitialised acts).count job) ∧
      (∀ j k, j ≤ k → k < plan.inNodes.length →
        (queuedIn plan uninitialised acts).count (.nodeRun .input k) ≤
            (queuedIn plan uninitialised acts).count (.nodeRun .input j) ∧
          (queuedIn plan uninitialised acts).count (.nodeRun .input j) ≤
            (queuedIn plan uninitialised acts).count (.nodeRun .input k) + 1) ∧
      c.pool.threads.countP Worker.isRunning ≤ plan.nproc) ∧
    ∀ n, ∃ acts c, run (step plan) (start plan uninitialised) acts = some c ∧
      c.isRunning = true ∧
      ∀ k < plan.inNodes.length, n < c.pool.jobs.count (.nodeRun .input k) := by
  refine ⟨fun acts c hrun => ⟨run_outstanding hrun, fun j k hjk hk => ?_, ?_⟩, fun n => ?_⟩
  · exact (run_rounds hrun).even hjk hk
  · exact List.countP_le_length.trans (run_threads hrun)
  · obtain ⟨acts, hacts⟩ := run_ready plan uninitialised
    obtain ⟨acts', d, hacts', hd, hcount⟩ :=
      spinning_rounds plan (spinning_ready plan uninitialised) (n + 1)
    refine ⟨acts ++ acts', d, run_append_eq_some.mpr ⟨_, hacts, hacts'⟩, hd.isRunning, ?_⟩
    intro k hk
    have hk' := hcount (.nodeRun .input k)
    rw [count_jobs hk, Nat.mul_one] at hk'
    exact hk'

/-- After the first round of a framework with one worker its only job so far is counted. -/
theorem outstanding_jobs_first_round :
    ∃ c, run (step ⟨1, [⟨.TCPS, 50000, "TcpServer1"⟩], []⟩)
        (start ⟨1, [⟨.TCPS, 50000, "TcpServer1"⟩], []⟩ false)
        (List.replicate 5 (.caller none) ++ List.replicate 3 (.main none)) = some c ∧
      c.outstanding (.nodeRun .input 0) = 1 := by
  refine ⟨_, rfl, ?_⟩
  exact ((outstanding_jobs ⟨1, [⟨.TCPS, 50000, "TcpServer1"⟩], []⟩ false).1
    (List.replicate 5 (.caller none) ++ List.replicate 3 (.main none)) _ rfl).1
    (.nodeRun .input 0)

/-- With one TCP server, one consumer and four workers, two workers are inside the same
`run()` of the server, and more jobs wait than there are nodes and the manager. -/
theorem two_jobs_of_one_node :
    ∃ w acts c, parseConf .plain (some (oneToOne "CONSUMER")) World.fresh = some (true, w) ∧
      run (step w.plan) (start w.plan false) acts = some c ∧ c.isRunning = true ∧
      c.pool.At 2 (.running ⟨.nodeRun .input 0, .enter⟩) ∧
      c.pool.At 3 (.running ⟨.nodeRun .input 0, .enter⟩) ∧
      1 < c.outstanding (.nodeRun .input 0) ∧
      w.plan.inNodes.length + w.plan.outNodes.length + 1 < c.pool.jobs.length := by
  obtain ⟨w, hparse, hpool, -, hin, hout⟩ := oneToOne_built
  have hplan : w.plan = ⟨4, [⟨.TCPS, 50000, "TcpServer1"⟩], [⟨.CONSUMER, 50000, "Out1"⟩]⟩ :=
    World.plan_eq hpool hin hout
  refine ⟨w, List.replicate 10 (.caller none) ++ List.replicate 40 (.main none) ++
    [.threadLoop 0, .threadLoop 1, .threadLoop 2, .threadLoop 3], ?_⟩
  rw [hplan]
  refine ⟨_, hparse, rfl, rfl, ?_, ?_, ?_, ?_⟩
  · rfl
  · rfl
  · decide
  · decide

end Control

end DataPipeline
