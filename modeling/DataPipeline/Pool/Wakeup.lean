import DataPipeline.Pool.Threads

/-!
# No wakeup is lost

`notify_one` comes after the mutex was released, wakes nobody when nobody waits, and the
thread it wakes may find the queue empty because another one was faster. Still no thread
sleeps beside a job nobody is coming for: as long as one sleeps, every pending job is
matched by a thread about to look, or by a notification still to come.
-/

namespace DataPipeline.Threads

open Machine

variable {θ J A : Type}

/-- The number of threads that are about to test the predicate. -/
def awake (c : Threads θ J A) : Nat := c.pool.threads.countP Worker.isAwake

/-- While a thread sleeps, the pending jobs are at most the threads about to test the predicate
and the calls of `QueueJob` about to notify. -/
def Wakeful (c : Threads θ J A) : Prop :=
  c.pool.shouldTerminate = false → (∃ i, c.pool.At i .parked) →
    c.pool.jobs.length ≤ c.awake + c.pushed.card

/-- What `stop` has achieved in each of its phases. -/
structure Told (c : Threads θ J A) : Prop where
  flag : c.stopper ≠ .notCalled → c.pool.shouldTerminate = true
  nobody : c.stopper = .notified ∨ c.stopper = .returned → ∀ i, ¬ c.pool.At i .parked

theorem wakeful_new : Wakeful (new : Threads θ J A) := by
  rintro _ ⟨i, hi⟩
  cases hi

theorem told_new : Told (new : Threads θ J A) where
  flag := fun h => absurd rfl h
  nobody := fun _ i hi => by cases hi

/-- Who is parked after a thread moved was parked before, if the thread has not parked. -/
theorem parked_of_goto {p : Pool (Ticket J) (Execution J A)} {i k : Nat}
    {b : Worker (Execution J A)} (h : (p.goto i b).At k .parked) (hb : b ≠ .parked) :
    p.At k .parked := by
  rcases Pool.at_goto h with ⟨_, he⟩ | ⟨_, hk⟩
  · exact absurd he.symm hb
  · exact hk

theorem not_parked_notifyAll (p : Pool (Ticket J) (Execution J A)) (i : Nat) :
    ¬ p.notifyAll.At i .parked := by
  unfold Pool.notifyAll Pool.At
  rw [List.getElem?_map]
  cases p.threads[i]? with
  | none => exact nofun
  | some w => cases w <;> exact nofun

theorem parked_of_spawn {p : Pool (Ticket J) (Execution J A)} {i : Nat}
    (h : p.spawn.At i .parked) : p.At i .parked := by
  unfold Pool.spawn Pool.At at h
  rw [List.getElem?_append] at h
  split at h
  · exact h
  · cases List.mem_singleton.mp (List.mem_of_getElem? h)

/-- A thread that moves and was not about to test the predicate takes none of those away. -/
theorem awake_le_goto {c : Threads θ J A} {i : Nat} {a : Worker (Execution J A)}
    (hi : c.pool.At i a) (ha : a.isAwake = false) (b : Worker (Execution J A)) :
    c.awake ≤ (c.pool.goto i b).threads.countP Worker.isAwake := by
  have hcount := Pool.countP_goto hi Worker.isAwake b
  have hzero : [a].countP Worker.isAwake = 0 := by
    rw [List.countP_singleton, ha, if_neg Bool.false_ne_true]
  unfold awake
  omega

variable [DecidableEq θ] {nproc : Nat} {enter : J → A}

/-- Every step leaves the pool wakeful. -/
theorem Wakeful.step {c c' : Threads θ J A} {a : Act θ J A} (hc : c.Wakeful)
    (h : Step nproc enter c a c') : c'.Wakeful := by
  rintro hterm ⟨k, hk⟩
  cases h with
  | spawn hs hn =>
    have hle := hc hterm ⟨k, parked_of_spawn hk⟩
    unfold awake at hle ⊢
    simp only [Pool.spawn, List.countP_append]
    omega
  | push hp =>
    have hle := hc hterm ⟨k, hk⟩
    unfold awake at hle ⊢
    simp only [Pool.queueJob, List.length_append, List.length_singleton,
      Finset.card_insert_of_notMem hp]
    omega
  | notifyNone hp hn => exact absurd hk (hn k)
  | @notifyOne p i hp hi =>
    -- the notification becomes a thread about to test
    have hle := hc hterm ⟨i, hi⟩
    have hcount := Pool.countP_goto hi Worker.isAwake .awake
    have hcard := Finset.card_erase_add_one hp
    simp only [awake, Worker.isAwake, List.countP_singleton, Bool.false_eq_true, ite_true,
      ite_false] at hle hcount ⊢
    change c.pool.jobs.length ≤ _
    omega
  | leave hi ht => exact absurd (ht.symm.trans hterm) (by decide)
  | park hi ht hj =>
    change c.pool.jobs.length ≤ _
    rw [hj]
    exact Nat.zero_le _
  | @take i t jobs hi ht hj =>
    have hle := hc ht ⟨k, parked_of_goto hk nofun⟩
    have hcount := Pool.countP_goto hi Worker.isAwake (.running ⟨t, enter t.job⟩)
    simp only [awake, hj, List.length_cons, Worker.isAwake, List.countP_singleton,
      Bool.false_eq_true, ite_true, ite_false] at hle hcount ⊢
    change jobs.length ≤ (c.pool.goto i _).threads.countP Worker.isAwake + c.pushed.card
    omega
  | @spurious i hi =>
    have hle := hc hterm ⟨i, hi⟩
    exact hle.trans (Nat.add_le_add_right (awake_le_goto hi rfl _) _)
  | work hi | finish hi =>
    have hle := hc hterm ⟨k, parked_of_goto hk nofun⟩
    exact hle.trans (Nat.add_le_add_right (awake_le_goto hi rfl _) _)
  | terminate hs => cases hterm
  | notifyAll hs => exact absurd hk (not_parked_notifyAll _ k)
  | joinAll hs ht => cases hk

/-- Every step leaves what `stop` has achieved. -/
theorem Told.step {c c' : Threads θ J A} {a : Act θ J A} (hc : c.Told)
    (h : Step nproc enter c a c') : c'.Told := by
  cases h with
  | spawn hs hn =>
    refine ⟨hc.flag, fun hno => ?_⟩
    rcases hno with hno | hno <;> cases hs.symm.trans hno
  | push | notifyNone => exact ⟨hc.flag, hc.nobody⟩
  | notifyOne | leave | take | spurious | work | finish =>
    exact ⟨hc.flag, fun hno i hi => hc.nobody hno i (parked_of_goto hi nofun)⟩
  | park hi ht hj =>
    refine ⟨hc.flag, fun hno => ?_⟩
    have hflag := hc.flag (by rcases hno with hno | hno <;> exact hno ▸ nofun)
    exact absurd (hflag.symm.trans ht) (by decide)
  | terminate hs => exact ⟨fun _ => rfl, fun hno => by rcases hno with hno | hno <;> cases hno⟩
  | notifyAll hs => exact ⟨fun _ => hc.flag (hs ▸ nofun), fun _ => not_parked_notifyAll _⟩
  | joinAll hs ht => exact ⟨fun _ => hc.flag (hs ▸ nofun), fun _ i hi => by cases hi⟩

/-- From `notify_all` on the phase of `stop` says that it has been called. -/
theorem notified_of_mem {acts : List (Act θ J A)} {c : Threads θ J A}
    (h : run (step nproc enter) new acts = some c) (hmem : .notifyAll ∈ acts) :
    c.stopper = .notified ∨ c.stopper = .returned := by
  refine run_history (I := fun as c => .notifyAll ∈ as → c.stopper = .notified ∨
    c.stopper = .returned) (fun hm => absurd hm List.not_mem_nil) ?_ h hmem
  intro as u a v _ hI hst hm
  rw [List.mem_append, List.mem_singleton] at hm
  cases step_cases hst with
  | notifyAll => exact Or.inl rfl
  | joinAll => exact Or.inr rfl
  | spawn hs | terminate hs =>
    rcases hm with hm | hm
    · rcases hI hm with hno | hno <;> cases hs.symm.trans hno
    · cases hm
  | push | notifyNone | notifyOne | leave | park | take | spurious | work | finish =>
    rcases hm with hm | hm
    · exact hI hm
    · cases hm

/-- For any number of workers and producers and in any interleaving: while a worker sleeps, the
pending jobs are at most the workers about to look and the notifications still to come; and once
`stop` has called `notify_all`, nobody sleeps or ever sleeps again. -/
theorem no_lost_wakeup {acts : List (Act θ J A)} {c : Threads θ J A}
    (h : run (step nproc enter) new acts = some c) :
    (c.pool.shouldTerminate = false → (∃ i, c.pool.At i .parked) →
      c.pool.jobs.length ≤ c.pool.threads.countP Worker.isAwake + c.pushed.card) ∧
    (.notifyAll ∈ acts → ∀ later c', run (step nproc enter) c later = some c' →
      ∀ i, ¬ c'.pool.At i .parked) := by
  constructor
  · exact run_invariant (I := Wakeful) (fun _ _ _ hs hst => hs.step (step_cases hst)) wakeful_new h
  · intro hmem later c' hlater
    have hrun := run_append_eq_some.mpr ⟨c, h, hlater⟩
    have htold := run_invariant (I := Told) (fun _ _ _ hs hst => hs.step (step_cases hst))
      told_new hrun
    exact htold.nobody (notified_of_mem hrun (List.mem_append_left later hmem))

/-- A job is pushed while one thread sleeps and the other is busy; the busy one is faster than
the notified one, and then `stop` wakes everybody. -/
def stolenJob : List (Act Nat String Unit) :=
  [.spawn, .spawn, .threadLoop 1, .push 0 "a", .threadLoop 0, .push 1 "b", .notifyOne 0 (some 1),
    .finish 0, .threadLoop 0, .threadLoop 1, .terminate, .notifyAll]

theorem no_lost_wakeup_stolen :
    ∃ c, run (step 2 fun _ : String => ()) new stolenJob = some c ∧
      (c.pool.shouldTerminate = false → (∃ i, c.pool.At i .parked) →
        c.pool.jobs.length ≤ c.pool.threads.countP Worker.isAwake + c.pushed.card) ∧
      (.notifyAll ∈ stolenJob → ∀ later c', run (step 2 fun _ => ()) c later = some c' →
        ∀ i, ¬ c'.pool.At i .parked) := by
  have hsome : (run (step 2 fun _ : String => ()) new stolenJob).isSome = true := rfl
  obtain ⟨c, hc⟩ := Option.isSome_iff_exists.mp hsome
  exact ⟨c, hc, no_lost_wakeup hc⟩

end DataPipeline.Threads
