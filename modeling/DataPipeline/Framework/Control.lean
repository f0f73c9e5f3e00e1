import DataPipeline.Core.Machine
import DataPipeline.Pool.State
import DataPipeline.Topology.Config
import Mathlib.Logic.Function.Basic

/-!
# Running and stopping a framework

The threads of a framework between `DataFramework::run()` and the return of
`DataFramework::stop()`: the thread that calls both, the thread that executes `runJobs`,
and the threads of the pool. The two calls are lists of instructions, one for each step
that other threads can see. A job of the pool is `run()` of one object, and every such
object has one running flag. What a job does with the queues is not part of this
machine: where its next step depends on them, or on the file system, the label says
how it turns out.
-/

namespace DataPipeline

open Function (update)

/-- The two proxies. -/
inductive Side where
  | input
  | output
  deriving DecidableEq, Repr

/-- A job of the pool: `run()` of the data manager or of one node of a proxy. -/
inductive Job where
  | dmRun
  | nodeRun (side : Side) (k : Nat)
  deriving DecidableEq, Repr

/-- What a configured framework consists of. -/
structure Plan where
  nproc : Nat
  inNodes : List ProxyNode
  outNodes : List ProxyNode

/-- The framework that `parseConf` leaves. -/
def World.plan (w : World) : Plan where
  nproc := (w.framework.threadPool.getD 0).toNat
  inNodes := w.nodes "in"
  outNodes := w.nodes "out"

theorem World.plan_eq {w : World} {nproc : UInt32} {inNodes outNodes : List ProxyNode}
    (hpool : w.framework.threadPool = some nproc) (hin : w.nodes "in" = inNodes)
    (hout : w.nodes "out" = outNodes) : w.plan = ⟨nproc.toNat, inNodes, outNodes⟩ := by
  rw [World.plan, hpool, hin, hout]
  rfl

/-! ### The jobs -/

/-- Places inside the `run()` of an object. -/
inductive Pc where
  /-- The first instruction. -/
  | enter
  /-- `Consumer::run` is about to open its file. -/
  | opening
  /-- The condition of the loop. -/
  | test
  /-- The body of the loop: a pass of the manager, the `pop` of a consumer. -/
  | body
  /-- Inside `pop`, before `Q::move`. -/
  | move
  /-- The loop over what was popped. -/
  | write
  deriving DecidableEq, Repr

/-- A job in execution. -/
structure Task where
  job : Job
  pc : Pc
  deriving DecidableEq, Repr

instance : LawfulBEq (Worker Task) := inferInstance

/-- `DataManager::run`, a `do`-`while` loop. `more`: the pass goes on. -/
def dmNext (isRunning more : Bool) : Pc → Option Pc
  | .enter => some .body
  | .body => some (if more then .body else .test)
  | .test => if isRunning then some .body else none
  | _ => none

/-- `Consumer::run`. `outcome`: the file is open, `pop` finds messages, or there is
one more message to write. -/
def consumerNext (isRunning outcome : Bool) : Pc → Option Pc
  | .enter => some .opening
  | .opening => if outcome then some .test else none
  | .test => if isRunning then some .body else none
  | .body => some (if outcome then .move else .test)
  | .move => some .write
  | .write => some (if outcome then .write else .test)

/-- `UdpClient::run`, which pops once and sends what it got. -/
def clientNext (outcome : Bool) : Pc → Option Pc
  | .enter => if outcome then some .move else none
  | .move => some .write
  | .write => if outcome then some .write else none
  | _ => none

namespace Plan

/-- The nodes of a proxy. -/
def nodes (plan : Plan) : Side → List ProxyNode
  | .input => plan.inNodes
  | .output => plan.outNodes

/-- The type of the node that a job runs. -/
def type (plan : Plan) : Job → Option ProxyType
  | .dmRun => none
  | .nodeRun side k => (plan.nodes side)[k]?.map ProxyNode.type

/-- The jobs that set their object's running flag when they start. -/
def sets (plan : Plan) (job : Job) : Bool :=
  job == .dmRun || plan.type job == some .CONSUMER

/-- Where a job goes on, or `none` when it returns. The pass of a server node is one step, which
it takes when it returns; `Reads` has the calls of `read` inside it that wait. -/
def next (plan : Plan) (isRunning outcome : Bool) (t : Task) : Option Pc :=
  match t.job with
  | .dmRun => dmNext isRunning outcome t.pc
  | .nodeRun _ _ =>
    match plan.type t.job with
    | some .CONSUMER => consumerNext isRunning outcome t.pc
    | some .UDPTX => clientNext outcome t.pc
    | _ => none

/-- The jobs of the nodes of a proxy, in the order of its list. -/
def jobs (plan : Plan) (side : Side) : List Job :=
  (List.range (plan.nodes side).length).map (Job.nodeRun side)

end Plan

/-! ### The instructions of `run()` and `stop()` -/

/-- One step of the calling thread or of the `runJobs` thread. -/
inductive Instr where
  /-- `ThreadPool::start` creates one thread. -/
  | spawn
  /-- `m_isRunning = true`. -/
  | raise
  /-- `QueueJob` pushes a job. -/
  | push (job : Job)
  /-- `QueueJob` calls `notify_one`. -/
  | notify
  /-- `m_mainThread` is created. -/
  | startMain
  /-- `m_isRunning = false`. -/
  | lower
  /-- `stop()` of the object that a job runs. -/
  | clear (job : Job)
  /-- `m_mainThread.join()`. -/
  | joinMain
  /-- `ThreadPool::stop` sets `should_terminate`. -/
  | terminate
  /-- `ThreadPool::stop` calls `notify_all`. -/
  | notifyAll
  /-- `ThreadPool::stop` joins its threads. -/
  | joinAll
  deriving DecidableEq, Repr

/-- `ThreadPool::QueueJob`. -/
def queueJob (job : Job) : List Instr := [.push job, .notify]

namespace Plan

/-- `Proxy::run`. -/
def proxyRun (plan : Plan) (side : Side) : List Instr := (plan.jobs side).flatMap queueJob

/-- `DataFramework::run`. -/
def run (plan : Plan) : List Instr :=
  List.replicate plan.nproc .spawn ++ .raise :: queueJob .dmRun ++ plan.proxyRun .output ++
    [.startMain]

/-- `DataFramework::stop`. Every `stop()` it calls returns `true`, so `&&` skips none. -/
def stop (plan : Plan) : List Instr :=
  .lower :: .clear .dmRun :: (plan.jobs .input ++ plan.jobs .output).map .clear ++
    [.joinMain, .terminate, .notifyAll, .joinAll]

end Plan

/-! ### The machine -/

/-- Where the `runJobs` thread stands. -/
inductive MainThread where
  | notStarted
  /-- At the loop condition. -/
  | test
  /-- Inside `m_inProxyPtr->run()`, with instructions to go. -/
  | round (todo : List Instr)
  | finished
  deriving DecidableEq, Repr

/-- The instructions of a round that are left. -/
def MainThread.todo : MainThread → List Instr
  | .round todo => todo
  | _ => []

/-- The threads of a framework. -/
structure Control where
  pool : Pool Job Task
  /-- `m_isRunning` of the framework. -/
  isRunning : Bool
  /-- `isRunning_` of the manager and `m_isRunning` of the nodes. -/
  flags : Job → Bool
  /-- What is left of the calls of `run()` and `stop()`. -/
  caller : List Instr
  main : MainThread

namespace Control

/-- Before `run()`. The manager's flag is not initialised by its constructor. -/
def start (plan : Plan) (uninitialised : Bool) : Control where
  pool := .new
  isRunning := false
  flags := fun job => job == .dmRun && uninitialised
  caller := plan.run ++ plan.stop
  main := .notStarted

/-- What an instruction does; `woken` is the choice of `notify_one`. -/
def exec (c : Control) (woken : Option Nat) : Instr → Option Control
  | .spawn => some { c with pool := c.pool.spawn }
  | .raise => some { c with isRunning := true }
  | .push job => some { c with pool := c.pool.queueJob job }
  | .notify => (c.pool.notifyOne woken).map fun pool => { c with pool }
  -- assigning to a joinable thread object would end the program
  | .startMain => if c.main = .notStarted then some { c with main := .test } else none
  | .lower => some { c with isRunning := false }
  | .clear job => some { c with flags := update c.flags job false }
  | .joinMain => if c.main = .finished then some c else none
  | .terminate => some { c with pool := c.pool.terminate }
  | .notifyAll => some { c with pool := c.pool.notifyAll }
  | .joinAll => c.pool.joinAll.map fun pool => { c with pool }

/-- A step of one thread. -/
inductive Act where
  | caller (woken : Option Nat)
  | main (woken : Option Nat)
  /-- Pool thread `i` enters the critical section of `ThreadLoop`. -/
  | threadLoop (i : Nat)
  /-- Pool thread `i` wakes without notification. -/
  | spurious (i : Nat)
  /-- Pool thread `i` takes one step of its job. -/
  | work (i : Nat) (outcome : Bool)
  deriving DecidableEq, Repr

/-- The step of pool thread `i` inside job `t`. -/
def work (plan : Plan) (c : Control) (i : Nat) (t : Task) (outcome : Bool) : Control :=
  { c with
    flags := if t.pc = .enter ∧ plan.sets t.job then update c.flags t.job true else c.flags
    pool := c.pool.goto i
      (match plan.next (c.flags t.job) outcome t with
        | some pc => .running ⟨t.job, pc⟩
        | none => .awake) }

/-- The framework as a machine. -/
def step (plan : Plan) : Machine Control Act
  | c, .caller woken =>
    match c.caller with
    | [] => none
    | ins :: rest => (c.exec woken ins).map fun d => { d with caller := rest }
  | c, .main woken =>
    match c.main with
    | .test =>
      some { c with main := if c.isRunning then .round (plan.proxyRun .input) else .finished }
    | .round [] => some { c with main := .test }
    | .round (ins :: todo) => (c.exec woken ins).map fun d => { d with main := .round todo }
    | _ => none
  | c, .threadLoop i =>
    (c.pool.threadLoop (fun job => ⟨job, .enter⟩) i).map fun pool => { c with pool }
  | c, .spurious i => (c.pool.wake i).map fun pool => { c with pool }
  | c, .work i outcome =>
    match c.pool.threads[i]? with
    | some (.running t) => some (c.work plan i t outcome)
    | _ => none

/-- The steps of the machine, one constructor for each branch. -/
inductive Step (plan : Plan) (c : Control) : Act → Control → Prop where
  | caller {woken ins rest d} (hc : c.caller = ins :: rest) (hd : c.exec woken ins = some d) :
      Step plan c (.caller woken) { d with caller := rest }
  | mainTest {woken} (hm : c.main = .test) :
      Step plan c (.main woken)
        { c with main := if c.isRunning then .round (plan.proxyRun .input) else .finished }
  | mainRound {woken} (hm : c.main = .round []) : Step plan c (.main woken) { c with main := .test }
  | main {woken ins todo d} (hm : c.main = .round (ins :: todo)) (hd : c.exec woken ins = some d) :
      Step plan c (.main woken) { d with main := .round todo }
  | threadLoop {i pool} (hp : c.pool.threadLoop (fun job => ⟨job, .enter⟩) i = some pool) :
      Step plan c (.threadLoop i) { c with pool }
  | spurious {i pool} (hp : c.pool.wake i = some pool) : Step plan c (.spurious i) { c with pool }
  | work {i outcome t} (ht : c.pool.At i (.running t)) :
      Step plan c (.work i outcome) (c.work plan i t outcome)

/-- Every step of the machine is one of the branches. -/
theorem step_cases {plan : Plan} {c c' : Control} {a : Act} (h : step plan c a = some c') :
    Step plan c a c' := by
  cases a with
  | caller woken =>
    simp only [step] at h
    split at h
    · contradiction
    · rename_i hc
      obtain ⟨d, hd, rfl⟩ := Option.map_eq_some_iff.mp h
      exact Step.caller hc hd
  | main woken =>
    simp only [step] at h
    split at h
    · rename_i hm
      cases h
      exact Step.mainTest hm
    · rename_i hm
      cases h
      exact Step.mainRound hm
    · rename_i hm
      obtain ⟨d, hd, rfl⟩ := Option.map_eq_some_iff.mp h
      exact Step.main hm hd
    · contradiction
  | threadLoop i =>
    obtain ⟨pool, hp, rfl⟩ := Option.map_eq_some_iff.mp h
    exact Step.threadLoop hp
  | spurious i =>
    obtain ⟨pool, hp, rfl⟩ := Option.map_eq_some_iff.mp h
    exact Step.spurious hp
  | work i outcome =>
    simp only [step] at h
    split at h
    · rename_i ht
      cases h
      exact Step.work ht
    · contradiction

/-- The instructions, one constructor for each way one is executed. -/
inductive Exec (c : Control) : Option Nat → Instr → Control → Prop where
  | spawn {woken} : Exec c woken .spawn { c with pool := c.pool.spawn }
  | raise {woken} : Exec c woken .raise { c with isRunning := true }
  | push {woken job} : Exec c woken (.push job) { c with pool := c.pool.queueJob job }
  | notifyNobody : Exec c none .notify c
  | notify {i} (hi : c.pool.At i .parked) :
      Exec c (some i) .notify { c with pool := c.pool.goto i .awake }
  | startMain {woken} (hm : c.main = .notStarted) :
      Exec c woken .startMain { c with main := .test }
  | lower {woken} : Exec c woken .lower { c with isRunning := false }
  | clear {woken job} : Exec c woken (.clear job) { c with flags := update c.flags job false }
  | joinMain {woken} (hm : c.main = .finished) : Exec c woken .joinMain c
  | terminate {woken} : Exec c woken .terminate { c with pool := c.pool.terminate }
  | notifyAll {woken} : Exec c woken .notifyAll { c with pool := c.pool.notifyAll }
  | joinAll {woken} (hterm : ∀ t ∈ c.pool.threads, t = .terminated) :
      Exec c woken .joinAll { c with pool := { c.pool with threads := [] } }

/-- Every instruction is executed in one of these ways. -/
theorem exec_cases {c d : Control} {woken : Option Nat} {ins : Instr}
    (h : c.exec woken ins = some d) : Exec c woken ins d := by
  cases ins with
  | spawn | raise | push | lower | clear | terminate | notifyAll =>
    cases h
    constructor
  | notify =>
    obtain ⟨p, hp, rfl⟩ := Option.map_eq_some_iff.mp h
    cases woken with
    | none =>
      obtain rfl := Pool.notifyOne_none hp
      exact Exec.notifyNobody
    | some i =>
      obtain ⟨hi, rfl⟩ := Pool.wake_eq_some hp
      exact Exec.notify hi
  | startMain =>
    obtain ⟨hm, he⟩ := Option.ite_none_right_eq_some.mp h
    cases he
    exact Exec.startMain hm
  | joinMain =>
    obtain ⟨hm, he⟩ := Option.ite_none_right_eq_some.mp h
    cases he
    exact Exec.joinMain hm
  | joinAll =>
    obtain ⟨p, hp, rfl⟩ := Option.map_eq_some_iff.mp h
    obtain ⟨hterm, rfl⟩ := Pool.joinAll_eq_some hp
    exact Exec.joinAll hterm

/-! ### The programs of the two threads -/

/-- What is left of the programs of the calling thread and of one round of `runJobs`. -/
structure Programs (plan : Plan) (c : Control) : Prop where
  caller : c.caller <:+ plan.run ++ plan.stop
  main : ∀ todo, c.main = .round todo → todo <:+ plan.proxyRun .input

/-- An instruction leaves the calling thread's program to the caller. -/
theorem exec_caller {c d : Control} {woken : Option Nat} {ins : Instr}
    (h : c.exec woken ins = some d) : d.caller = c.caller := by
  cases exec_cases h <;> rfl

/-- Only its creation moves the `runJobs` thread from outside. -/
theorem exec_main {c d : Control} {woken : Option Nat} {ins : Instr}
    (h : c.exec woken ins = some d) :
    d.main = c.main ∨ (ins = .startMain ∧ c.main = .notStarted ∧ d.main = .test) := by
  cases exec_cases h with
  | startMain hm => exact Or.inr ⟨rfl, hm, rfl⟩
  | spawn | raise | push | notifyNobody | notify | lower | clear | joinMain | terminate | notifyAll
    | joinAll => exact Or.inl rfl

theorem programs_start (plan : Plan) (uninitialised : Bool) :
    Programs plan (start plan uninitialised) where
  caller := List.suffix_refl _
  main := fun _ h => nomatch h

theorem Programs.step {plan : Plan} {c c' : Control} {a : Act} (hc : Programs plan c)
    (h : Step plan c a c') : Programs plan c' := by
  cases h with
  | @caller woken ins rest d hcaller hd =>
    refine ⟨(List.suffix_cons ins rest).trans (hcaller ▸ hc.caller), fun todo hm => ?_⟩
    rcases exec_main hd with he | ⟨_, _, he⟩
    · exact hc.main todo (he.symm.trans hm)
    · cases he.symm.trans hm
  | mainTest hm =>
    refine ⟨hc.caller, fun todo hround => ?_⟩
    dsimp only at hround
    split at hround <;> cases hround
    exact List.suffix_refl _
  | mainRound hm => exact ⟨hc.caller, fun _ h => nomatch h⟩
  | @main woken ins todo d hm hd =>
    refine ⟨(exec_caller hd).symm ▸ hc.caller, fun todo' hround => ?_⟩
    cases hround
    exact (List.suffix_cons ins todo).trans (hc.main _ hm)
  | threadLoop | spurious | work => exact ⟨hc.caller, hc.main⟩

theorem run_programs {plan : Plan} {uninitialised : Bool} {acts : List Act} {c : Control}
    (hrun : Machine.run (step plan) (start plan uninitialised) acts = some c) :
    Programs plan c :=
  Machine.run_invariant (fun _ _ _ hc h => hc.step (step_cases h))
    (programs_start plan uninitialised) hrun

end Control

end DataPipeline
