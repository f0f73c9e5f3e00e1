import DataPipeline.Core.Machine
import DataPipeline.Pool.State
import Mathlib.Data.Finset.Card

/-!
# The threads around the pool

The critical sections of the pool taken by all threads there are: any number of
producers inside `QueueJob`, the threads of `ThreadLoop`, and one thread that calls
`stop`. `notify_one` and `notify_all` are steps of their own, after the mutex was
released. A job is known by the number of its `QueueJob` call, so that equal jobs can be
told apart; what it does while it is executed is arbitrary, and so is for how long.
-/

namespace DataPipeline

/-- A job with the number of the `QueueJob` call that pushed it. -/
structure Ticket (J : Type) where
  number : Nat
  job : J
  deriving DecidableEq, Repr

/-- A job in execution and what it is at. -/
structure Execution (J A : Type) where
  ticket : Ticket J
  place : A
  deriving DecidableEq, Repr

/-- The job a thread is executing. -/
def Worker.ticket {J A : Type} : Worker (Execution J A) → Option (Ticket J)
  | .running e => some e.ticket
  | _ => none

/-- The thread is about to test the predicate. -/
def Worker.isAwake {A : Type} : Worker A → Bool
  | .awake => true
  | _ => false

/-- Where the thread that calls `stop` stands. -/
inductive Stopper where
  | notCalled
  /-- `should_terminate` is set. -/
  | terminated
  /-- `notify_all` has been called. -/
  | notified
  | returned
  deriving DecidableEq, Repr

/-- The pool and the threads around it. -/
structure Threads (θ J A : Type) where
  pool : Pool (Ticket J) (Execution J A)
  /-- The threads inside `QueueJob` that have pushed and not yet called `notify_one`. -/
  pushed : Finset θ
  stopper : Stopper
  /-- History: what was ever queued, in the order of the pushes. -/
  queued : List (Ticket J)
  /-- History: what `ThreadLoop` has taken, in the order in which it did. -/
  started : List (Ticket J)
  /-- History: what has returned. -/
  finished : List (Ticket J)

namespace Threads

variable {θ J A : Type} [DecidableEq θ]

/-- A step of one thread. -/
inductive Act (θ J A : Type) where
  /-- One round of the loop of `start`. -/
  | spawn
  /-- The critical section of `QueueJob`, in thread `p`. -/
  | push (p : θ) (job : J)
  /-- `notify_one` at the end of `QueueJob`; `woken` is the choice of the system. -/
  | notifyOne (p : θ) (woken : Option Nat)
  /-- The critical section of `ThreadLoop`, in pool thread `i`. -/
  | threadLoop (i : Nat)
  /-- Pool thread `i` wakes without notification. -/
  | spurious (i : Nat)
  /-- The job of pool thread `i` goes on. -/
  | work (i : Nat) (place : A)
  /-- The job of pool thread `i` returns. -/
  | finish (i : Nat)
  /-- The critical section of `stop`. -/
  | terminate
  /-- `notify_all` in `stop`. -/
  | notifyAll
  /-- The joins of `stop`. -/
  | joinAll

omit [DecidableEq θ] in
/-- A constructed pool. -/
def new : Threads θ J A where
  pool := .new
  pushed := ∅
  stopper := .notCalled
  queued := []
  started := []
  finished := []

/-- What the critical section of `ThreadLoop` takes from the queue. -/
def taken (p : Pool (Ticket J) (Execution J A)) : List (Ticket J) :=
  if p.shouldTerminate then [] else p.jobs.take 1

/-- The threads as a machine. `start` creates `nproc` threads, before `stop` is called. -/
def step (nproc : Nat) (enter : J → A) : Machine (Threads θ J A) (Act θ J A)
  | c, .spawn =>
    if c.stopper = .notCalled ∧ c.pool.threads.length < nproc then
      some { c with pool := c.pool.spawn }
    else none
  | c, .push p job =>
    if p ∈ c.pushed then none
    else
      let t := ⟨c.queued.length, job⟩
      some { c with
        pool := c.pool.queueJob t
        pushed := insert p c.pushed
        queued := c.queued ++ [t] }
  | c, .notifyOne p woken =>
    if p ∈ c.pushed then
      (c.pool.notifyOne woken).map fun pool => { c with pool, pushed := c.pushed.erase p }
    else none
  | c, .threadLoop i =>
    (c.pool.threadLoop (fun t => ⟨t, enter t.job⟩) i).map fun pool =>
      { c with pool, started := c.started ++ taken c.pool }
  | c, .spurious i => (c.pool.wake i).map fun pool => { c with pool }
  | c, .work i place =>
    match c.pool.threads[i]? with
    | some (.running e) => some { c with pool := c.pool.goto i (.running { e with place }) }
    | _ => none
  | c, .finish i =>
    match c.pool.threads[i]? with
    | some (.running e) =>
      some { c with pool := c.pool.goto i .awake, finished := c.finished ++ [e.ticket] }
    | _ => none
  | c, .terminate =>
    if c.stopper = .notCalled then
      some { c with pool := c.pool.terminate, stopper := .terminated }
    else none
  | c, .notifyAll =>
    if c.stopper = .terminated then
      some { c with pool := c.pool.notifyAll, stopper := .notified }
    else none
  | c, .joinAll =>
    if c.stopper = .notified then
      c.pool.joinAll.map fun pool => { c with pool, stopper := .returned }
    else none

/-- The steps of the machine, one constructor for each branch. -/
inductive Step (nproc : Nat) (enter : J → A) (c : Threads θ J A) :
    Act θ J A → Threads θ J A → Prop where
  | spawn (hs : c.stopper = .notCalled) (hn : c.pool.threads.length < nproc) :
      Step nproc enter c .spawn { c with pool := c.pool.spawn }
  | push {p job} (hp : p ∉ c.pushed) :
      Step nproc enter c (.push p job)
        { c with
          pool := c.pool.queueJob ⟨c.queued.length, job⟩
          pushed := insert p c.pushed
          queued := c.queued ++ [⟨c.queued.length, job⟩] }
  | notifyNone {p} (hp : p ∈ c.pushed) (hn : ∀ i, ¬ c.pool.At i .parked) :
      Step nproc enter c (.notifyOne p none) { c with pushed := c.pushed.erase p }
  | notifyOne {p i} (hp : p ∈ c.pushed) (hi : c.pool.At i .parked) :
      Step nproc enter c (.notifyOne p (some i))
        { c with pool := c.pool.goto i .awake, pushed := c.pushed.erase p }
  | leave {i} (hi : c.pool.At i .awake) (ht : c.pool.shouldTerminate = true) :
      Step nproc enter c (.threadLoop i) { c with pool := c.pool.goto i .terminated }
  | park {i} (hi : c.pool.At i .awake) (ht : c.pool.shouldTerminate = false)
      (hj : c.pool.jobs = []) :
      Step nproc enter c (.threadLoop i) { c with pool := c.pool.goto i .parked }
  | take {i t jobs} (hi : c.pool.At i .awake) (ht : c.pool.shouldTerminate = false)
      (hj : c.pool.jobs = t :: jobs) :
      Step nproc enter c (.threadLoop i)
        { c with
          pool := { c.pool with jobs }.goto i (.running ⟨t, enter t.job⟩)
          started := c.started ++ [t] }
  | spurious {i} (hi : c.pool.At i .parked) :
      Step nproc enter c (.spurious i) { c with pool := c.pool.goto i .awake }
  | work {i place e} (hi : c.pool.At i (.running e)) :
      Step nproc enter c (.work i place)
        { c with pool := c.pool.goto i (.running { e with place }) }
  | finish {i e} (hi : c.pool.At i (.running e)) :
      Step nproc enter c (.finish i)
        { c with pool := c.pool.goto i .awake, finished := c.finished ++ [e.ticket] }
  | terminate (hs : c.stopper = .notCalled) :
      Step nproc enter c .terminate
        { c with pool := c.pool.terminate, stopper := .terminated }
  | notifyAll (hs : c.stopper = .terminated) :
      Step nproc enter c .notifyAll { c with pool := c.pool.notifyAll, stopper := .notified }
  | joinAll (hs : c.stopper = .notified) (ht : ∀ t ∈ c.pool.threads, t = .terminated) :
      Step nproc enter c .joinAll
        { c with pool := { c.pool with threads := [] }, stopper := .returned }

/-- Every step of the machine is one of the branches. -/
theorem step_cases {nproc : Nat} {enter : J → A} {c c' : Threads θ J A} {a : Act θ J A}
    (h : step nproc enter c a = some c') : Step nproc enter c a c' := by
  cases a with
  | spawn =>
    simp only [step, Option.ite_none_right_eq_some, Option.some.injEq] at h
    obtain ⟨⟨hs, hn⟩, rfl⟩ := h
    exact Step.spawn hs hn
  | push p job =>
    simp only [step, Option.ite_none_left_eq_some, Option.some.injEq] at h
    obtain ⟨hp, rfl⟩ := h
    exact Step.push hp
  | notifyOne p woken =>
    simp only [step, Option.ite_none_right_eq_some, Option.map_eq_some_iff] at h
    obtain ⟨hp, pool, hpool, rfl⟩ := h
    cases woken with
    | none =>
      obtain rfl := Pool.notifyOne_none hpool
      apply Step.notifyNone hp
      intro i hi
      simp only [Pool.notifyOne, Option.ite_none_left_eq_some] at hpool
      apply hpool.1
      exact List.any_eq_true.mpr ⟨.parked, Pool.mem_threads_iff.mpr ⟨i, hi⟩, rfl⟩
    | some i =>
      obtain ⟨hi, rfl⟩ := Pool.wake_eq_some hpool
      exact Step.notifyOne hp hi
  | threadLoop i =>
    obtain ⟨pool, hpool, rfl⟩ := Option.map_eq_some_iff.mp h
    obtain ⟨hi, ⟨ht, rfl⟩ | ⟨ht, hj, rfl⟩ | ⟨t, jobs, ht, hj, rfl⟩⟩ := Pool.threadLoop_cases hpool
    · have hnone : taken c.pool = [] := by rw [taken, ht, if_pos rfl]
      rw [hnone, List.append_nil]
      exact Step.leave hi ht
    · have hnone : taken c.pool = [] := by rw [taken, hj, List.take_nil, ite_self]
      rw [hnone, List.append_nil]
      exact Step.park hi ht hj
    · have hone : taken c.pool = [t] := by
        rw [taken, ht, hj, if_neg Bool.false_ne_true, List.take_succ_cons, List.take_zero]
      rw [hone]
      exact Step.take hi ht hj
  | spurious i =>
    obtain ⟨pool, hpool, rfl⟩ := Option.map_eq_some_iff.mp h
    obtain ⟨hi, rfl⟩ := Pool.wake_eq_some hpool
    exact Step.spurious hi
  | work i place =>
    simp only [step] at h
    split at h
    · rename_i hi
      cases h
      exact Step.work hi
    · contradiction
  | finish i =>
    simp only [step] at h
    split at h
    · rename_i hi
      cases h
      exact Step.finish hi
    · contradiction
  | terminate =>
    simp only [step, Option.ite_none_right_eq_some, Option.some.injEq] at h
    obtain ⟨hs, rfl⟩ := h
    exact Step.terminate hs
  | notifyAll =>
    simp only [step, Option.ite_none_right_eq_some, Option.some.injEq] at h
    obtain ⟨hs, rfl⟩ := h
    exact Step.notifyAll hs
  | joinAll =>
    simp only [step, Option.ite_none_right_eq_some, Option.map_eq_some_iff] at h
    obtain ⟨hs, pool, hpool, rfl⟩ := h
    obtain ⟨ht, rfl⟩ := Pool.joinAll_eq_some hpool
    exact Step.joinAll hs ht

end Threads

end DataPipeline
