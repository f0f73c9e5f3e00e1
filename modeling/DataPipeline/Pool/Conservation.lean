import DataPipeline.Pool.Threads
import Mathlib.Data.List.Nodup

/-!
# No job is lost, doubled or overtaken

Whatever the threads around the pool do, every job that `QueueJob` was called with is at one
place: pending, in the hands of one thread, or finished. Jobs are started in the order of
their pushes, and none is started once the pool is told to terminate.
-/

namespace DataPipeline.Threads

open Machine

variable {θ J A : Type}

/-- The jobs in execution. -/
def executing (c : Threads θ J A) : List (Ticket J) := c.pool.threads.filterMap Worker.ticket

/-- The books of the pool: every call of `QueueJob` got its own number, what was started and
what is pending is what was queued, in this order, and what was started is in execution or
has finished. -/
structure Balanced (c : Threads θ J A) : Prop where
  numbered : c.queued.map Ticket.number = List.range c.queued.length
  order : c.started ++ c.pool.jobs = c.queued
  split : (c.executing ++ c.finished).Perm c.started

theorem balanced_new : Balanced (new : Threads θ J A) where
  numbered := rfl
  order := rfl
  split := List.Perm.refl _

/-- Moving a thread moves its job. -/
theorem executing_goto {c : Threads θ J A} {i : Nat} {a : Worker (Execution J A)}
    (h : c.pool.At i a) (b : Worker (Execution J A)) :
    (a.ticket.toList ++ (c.pool.goto i b).threads.filterMap Worker.ticket).Perm
      (b.ticket.toList ++ c.executing) := Pool.filterMap_goto h Worker.ticket b

theorem executing_notifyAll (p : Pool (Ticket J) (Execution J A)) :
    p.notifyAll.threads.filterMap Worker.ticket = p.threads.filterMap Worker.ticket := by
  unfold Pool.notifyAll
  rw [List.filterMap_map]
  congr 1
  ext t
  cases t <;> rfl

/-! ### One place for each job -/

/-- Where a job can be. -/
inductive Place where
  /-- At a position of the queue. -/
  | pending (k : Nat)
  /-- In the hands of a thread. -/
  | executed (i : Nat)
  /-- Among those that have returned. -/
  | finished (k : Nat)
  deriving DecidableEq, Repr

/-- The job is there. -/
def InPlace (c : Threads θ J A) (t : Ticket J) : Place → Prop
  | .pending k => c.pool.jobs[k]? = some t
  | .executed i => ∃ place, c.pool.At i (.running ⟨t, place⟩)
  | .finished k => c.finished[k]? = some t

theorem Balanced.nodup {c : Threads θ J A} (h : c.Balanced) :
    (c.pool.jobs ++ (c.executing ++ c.finished)).Nodup := by
  have hqueued : c.queued.Nodup := by
    apply List.Nodup.of_map Ticket.number
    rw [h.numbered]
    exact List.nodup_range
  rw [← h.order] at hqueued
  apply (h.split.append_left _).nodup_iff.mpr
  exact List.nodup_append_comm.mp hqueued

theorem ticket_eq_some {w : Worker (Execution J A)} {t : Ticket J} :
    w.ticket = some t ↔ ∃ place, w = .running ⟨t, place⟩ := by
  constructor
  · intro h
    cases w with
    | running e =>
      obtain rfl := Option.some.inj h
      exact ⟨e.place, rfl⟩
    | awake | parked | terminated => cases h
  · rintro ⟨place, rfl⟩
    rfl

/-- In a list read off another one without repetition no entry is read off twice. -/
theorem eq_of_nodup_filterMap {α β : Type} {f : α → Option β} {l : List α}
    (h : (l.filterMap f).Nodup) {i k : Nat} {a b : α} {x : β} (hi : l[i]? = some a)
    (hk : l[k]? = some b) (ha : f a = some x) (hb : f b = some x) : i = k := by
  have hpair := List.pairwise_filterMap.mp h
  rw [List.pairwise_iff_getElem] at hpair
  obtain ⟨hli, rfl⟩ := List.getElem?_eq_some_iff.mp hi
  obtain ⟨hlk, rfl⟩ := List.getElem?_eq_some_iff.mp hk
  rcases Nat.lt_trichotomy i k with hlt | he | hlt
  · exact absurd rfl (hpair i k hli hlk hlt x ha x hb)
  · exact he
  · exact absurd rfl (hpair k i hlk hli hlt x hb x ha)

theorem mem_executing {c : Threads θ J A} {t : Ticket J} :
    t ∈ c.executing ↔ ∃ i, c.InPlace t (.executed i) := by
  simp only [executing, List.mem_filterMap, ticket_eq_some, InPlace]
  constructor
  · rintro ⟨w, hw, place, rfl⟩
    obtain ⟨i, hi⟩ := Pool.mem_threads_iff.mp hw
    exact ⟨i, place, hi⟩
  · rintro ⟨i, place, hi⟩
    exact ⟨_, Pool.mem_threads_iff.mpr ⟨i, hi⟩, place, rfl⟩

theorem eq_of_nodup_getElem? {α : Type} {l : List α} (h : l.Nodup) {i k : Nat} {x : α}
    (hi : l[i]? = some x) (hk : l[k]? = some x) : i = k := by
  obtain ⟨hli, hi⟩ := List.getElem?_eq_some_iff.mp hi
  obtain ⟨hlk, hk⟩ := List.getElem?_eq_some_iff.mp hk
  exact h.getElem_inj_iff.mp (hi.trans hk.symm)

/-- With balanced books every queued job is at exactly one place. -/
theorem Balanced.one_place {c : Threads θ J A} (h : c.Balanced) {t : Ticket J}
    (ht : t ∈ c.queued) : ∃! p, c.InPlace t p := by
  have hnodup := h.nodup
  rw [List.nodup_append', List.nodup_append'] at hnodup
  obtain ⟨hjobs, ⟨hexec, hfin, hef⟩, hj⟩ := hnodup
  -- a place in one of the three lists excludes the other two
  have hpe : ∀ {k i}, c.InPlace t (.pending k) → ¬ c.InPlace t (.executed i) := fun hk hi =>
    hj (List.mem_of_getElem? hk) (List.mem_append_left _ (mem_executing.mpr ⟨_, hi⟩))
  have hpf : ∀ {k l}, c.InPlace t (.pending k) → ¬ c.InPlace t (.finished l) := fun hk hl =>
    hj (List.mem_of_getElem? hk) (List.mem_append_right _ (List.mem_of_getElem? hl))
  have hxf : ∀ {i l}, c.InPlace t (.executed i) → ¬ c.InPlace t (.finished l) := fun hi hl =>
    hef (mem_executing.mpr ⟨_, hi⟩) (List.mem_of_getElem? hl)
  have hone : ∀ p q, c.InPlace t p → c.InPlace t q → q = p := by
    intro p q hp hq
    cases p with
    | pending k =>
      cases q with
      | pending l => rw [eq_of_nodup_getElem? hjobs hp hq]
      | executed i => exact absurd hq (hpe hp)
      | finished l => exact absurd hq (hpf hp)
    | executed i =>
      cases q with
      | pending l => exact absurd hp (hpe hq)
      | executed k =>
        obtain ⟨a, ha⟩ := hp
        obtain ⟨b, hb⟩ := hq
        rw [eq_of_nodup_filterMap hexec ha hb rfl rfl]
      | finished l => exact absurd hq (hxf hp)
    | finished k =>
      cases q with
      | pending l => exact absurd hp (hpf hq)
      | executed i => exact absurd hp (hxf hq)
      | finished l => rw [eq_of_nodup_getElem? hfin hp hq]
  have hsome : ∃ p, c.InPlace t p := by
    rw [← h.order, List.mem_append, ← h.split.mem_iff, List.mem_append] at ht
    rcases ht with (ht | ht) | ht
    · obtain ⟨i, hi⟩ := mem_executing.mp ht
      exact ⟨_, hi⟩
    · obtain ⟨k, hk⟩ := List.mem_iff_getElem?.mp ht
      exact ⟨.finished k, hk⟩
    · obtain ⟨k, hk⟩ := List.mem_iff_getElem?.mp ht
      exact ⟨.pending k, hk⟩
  obtain ⟨p, hp⟩ := hsome
  exact ⟨p, hp, fun q hq => hone p q hp hq⟩

/-- Only what was queued has a place. -/
theorem Balanced.queued_of_inPlace {c : Threads θ J A} (h : c.Balanced) {t : Ticket J} {p : Place}
    (hp : c.InPlace t p) : t ∈ c.queued := by
  rw [← h.order, List.mem_append, ← h.split.mem_iff, List.mem_append]
  cases p with
  | pending k => exact Or.inr (List.mem_of_getElem? hp)
  | executed i => exact Or.inl (Or.inl (mem_executing.mpr ⟨i, hp⟩))
  | finished k => exact Or.inl (Or.inr (List.mem_of_getElem? hp))

/-! ### All runs -/

variable [DecidableEq θ] {nproc : Nat} {enter : J → A}

/-- Every step keeps the books balanced. -/
theorem Balanced.step {c c' : Threads θ J A} {a : Act θ J A} (hc : c.Balanced)
    (h : Step nproc enter c a c') : c'.Balanced := by
  cases h with
  | spawn hs hn =>
    refine ⟨hc.numbered, hc.order, ?_⟩
    simp only [executing, Pool.spawn, List.filterMap_append]
    exact (List.append_nil _).symm ▸ hc.split
  | push hp =>
    refine ⟨?_, ?_, hc.split⟩
    · simp only [List.map_append, hc.numbered, List.map_cons, List.map_nil, List.length_append,
        List.length_singleton, List.range_succ]
    · simp only [Pool.queueJob, ← List.append_assoc, hc.order]
  | notifyNone hp hn => exact ⟨hc.numbered, hc.order, hc.split⟩
  | notifyOne hp hi =>
    exact ⟨hc.numbered, hc.order, ((executing_goto hi .awake).append_right _).trans hc.split⟩
  | leave hi ht =>
    exact ⟨hc.numbered, hc.order, ((executing_goto hi .terminated).append_right _).trans hc.split⟩
  | park hi ht hj =>
    exact ⟨hc.numbered, hc.order, ((executing_goto hi .parked).append_right _).trans hc.split⟩
  | @take i t jobs hi ht hj =>
    refine ⟨hc.numbered, ?_, ?_⟩
    · rw [← hc.order, hj, List.append_assoc]
      rfl
    · have hmove := executing_goto hi (.running ⟨t, enter t.job⟩)
      apply (hmove.append_right c.finished).trans
      apply (List.perm_append_singleton t _).symm.trans
      exact hc.split.append_right [t]
  | spurious hi =>
    exact ⟨hc.numbered, hc.order, ((executing_goto hi .awake).append_right _).trans hc.split⟩
  | @work i place e hi =>
    refine ⟨hc.numbered, hc.order, ?_⟩
    have hmove := executing_goto hi (.running { e with place })
    exact (((List.perm_cons e.ticket).mp hmove).append_right _).trans hc.split
  | @finish i e hi =>
    refine ⟨hc.numbered, hc.order, ?_⟩
    have hmove := executing_goto hi .awake
    rw [← List.append_assoc]
    apply (List.perm_append_singleton e.ticket _).trans
    exact (hmove.append_right c.finished).trans hc.split
  | terminate hs => exact ⟨hc.numbered, hc.order, hc.split⟩
  | notifyAll hs =>
    refine ⟨hc.numbered, hc.order, ?_⟩
    simp only [executing, executing_notifyAll]
    exact hc.split
  | joinAll hs ht =>
    refine ⟨hc.numbered, hc.order, ?_⟩
    have hnil : c.executing = [] := by
      apply List.filterMap_eq_nil_iff.mpr
      intro t hmem
      rw [ht t hmem]
      rfl
    have hsplit := hc.split
    rwa [hnil] at hsplit

/-! ### What was queued, started and has returned -/

omit [DecidableEq θ] in
/-- The job that a step gives to the pool. -/
def Act.pushed : Act θ J A → Option J
  | .push _ job => some job
  | _ => none

/-- The job that a thread executes when it comes out of the critical section of `ThreadLoop`. -/
def begun (nproc : Nat) (enter : J → A) (c : Threads θ J A) : Act θ J A → List (Ticket J)
  | .threadLoop i =>
    (((step nproc enter c (.threadLoop i)).bind fun d => d.pool.threads[i]?).bind
      Worker.ticket).toList
  | _ => []

omit [DecidableEq θ] in
/-- The job that a thread has been executing and that returns in a step. -/
def returned (c : Threads θ J A) : Act θ J A → List (Ticket J)
  | .finish i => (c.pool.threads[i]?.bind Worker.ticket).toList
  | _ => []

theorem Step.queued {c c' : Threads θ J A} {a : Act θ J A} (h : Step nproc enter c a c') :
    c'.queued.map Ticket.job = c.queued.map Ticket.job ++ a.pushed.toList := by
  cases h with
  | push => exact List.map_append
  | spawn | notifyNone | notifyOne | leave | park | take | spurious | work | finish | terminate
    | notifyAll | joinAll => exact (List.append_nil _).symm

theorem begun_of_at {c c' : Threads θ J A} {i : Nat} {w : Worker (Execution J A)}
    (h : step nproc enter c (.threadLoop i) = some c') (hw : c'.pool.At i w) :
    c.begun nproc enter (.threadLoop i) = w.ticket.toList := by
  have hw : c'.pool.threads[i]? = some w := hw
  simp only [begun, h, hw, Option.bind_some]

theorem started_step {c c' : Threads θ J A} {a : Act θ J A} (h : step nproc enter c a = some c') :
    c'.started = c.started ++ c.begun nproc enter a := by
  cases step_cases h with
  | take hi =>
    rw [begun_of_at h (Pool.at_goto_self hi _)]
    rfl
  | leave hi | park hi =>
    rw [begun_of_at h (Pool.at_goto_self hi _)]
    exact (List.append_nil _).symm
  | push | spawn | notifyNone | notifyOne | spurious | work | finish | terminate | notifyAll
    | joinAll => exact (List.append_nil _).symm

theorem Step.finished {c c' : Threads θ J A} {a : Act θ J A} (h : Step nproc enter c a c') :
    c'.finished = c.finished ++ c.returned a := by
  cases h with
  | @finish i e hi =>
    have hi : c.pool.threads[i]? = some (.running e) := hi
    simp only [returned, hi, Option.bind_some, Worker.ticket, Option.toList_some]
  | push | spawn | notifyNone | notifyOne | leave | park | take | spurious | work | terminate
    | notifyAll | joinAll => exact (List.append_nil _).symm

/-- Every call of `QueueJob` in a run has queued its job, and only they have. -/
theorem run_queued {acts : List (Act θ J A)} {c : Threads θ J A}
    (h : run (step nproc enter) new acts = some c) :
    c.queued.map Ticket.job = acts.filterMap Act.pushed := by
  refine run_history (I := fun acts c => c.queued.map Ticket.job = acts.filterMap Act.pushed)
    rfl ?_ h
  intro acts u a v _ hu huv
  rw [(step_cases huv).queued, hu, List.filterMap_append]
  cases ha : a.pushed <;> simp [ha]

/-- What was started is what the threads have come out of `ThreadLoop` with, in the order in which
they did. -/
theorem run_started {acts : List (Act θ J A)} {c : Threads θ J A}
    (h : run (step nproc enter) new acts = some c) :
    c.started = observe (step nproc enter) (begun nproc enter) new acts := by
  refine run_history (I := fun acts c =>
    c.started = observe (step nproc enter) (begun nproc enter) new acts) rfl ?_ h
  intro acts u a v hu hI huv
  rw [observe_concat _ hu, started_step huv, hI]

/-- What has returned is what the threads were executing, in the order of the returns. -/
theorem run_finished {acts : List (Act θ J A)} {c : Threads θ J A}
    (h : run (step nproc enter) new acts = some c) :
    c.finished = observe (step nproc enter) returned new acts := by
  refine run_history (I := fun acts c =>
    c.finished = observe (step nproc enter) returned new acts) rfl ?_ h
  intro acts u a v hu hI huv
  rw [observe_concat _ hu, (step_cases huv).finished, hI]

theorem run_balanced {acts : List (Act θ J A)} {c : Threads θ J A}
    (h : run (step nproc enter) new acts = some c) : c.Balanced :=
  run_invariant (fun _ _ _ hs hst => hs.step (step_cases hst)) balanced_new h

/-- Nothing is taken from the queue of a pool that is told to terminate. -/
theorem Step.frozen {c c' : Threads θ J A} {a : Act θ J A} (ht : c.pool.shouldTerminate = true)
    (h : Step nproc enter c a c') :
    c'.pool.shouldTerminate = true ∧ c'.started = c.started ∧ c.pool.jobs <+: c'.pool.jobs := by
  cases h with
  | push hp => exact ⟨ht, rfl, List.prefix_append _ _⟩
  | park _ hf _ | take _ hf _ => exact absurd (ht.symm.trans hf) (by decide)
  | terminate hs => exact ⟨rfl, rfl, List.prefix_refl _⟩
  | spawn | notifyNone | notifyOne | leave | spurious | work | finish | notifyAll | joinAll =>
    exact ⟨ht, rfl, List.prefix_refl _⟩

theorem run_frozen {acts : List (Act θ J A)} {c c' : Threads θ J A}
    (ht : c.pool.shouldTerminate = true) (h : run (step nproc enter) c acts = some c') :
    c'.started = c.started ∧ c.pool.jobs <+: c'.pool.jobs := by
  refine (run_invariant (I := fun d => d.pool.shouldTerminate = true ∧ d.started = c.started ∧
    c.pool.jobs <+: d.pool.jobs) ?_ ⟨ht, rfl, List.prefix_refl _⟩ h).2
  rintro d a d' ⟨hd, hs, hp⟩ hst
  obtain ⟨hd', hs', hp'⟩ := (step_cases hst).frozen hd
  exact ⟨hd', hs'.trans hs, hp.trans hp'⟩

/-- What holds of the jobs after any run. -/
structure Conserved (nproc : Nat) (enter : J → A) (acts : List (Act θ J A))
    (c : Threads θ J A) : Prop where
  /-- The jobs ever queued are those `QueueJob` was called with, in the order of the pushes. -/
  queued : c.queued.map Ticket.job = acts.filterMap Act.pushed
  /-- The started jobs are those that a thread has come out of `ThreadLoop` with. -/
  begun : c.started = observe (step nproc enter) (begun nproc enter) new acts
  /-- The finished jobs are those that have returned to a thread. -/
  finished : c.finished = observe (step nproc enter) returned new acts
  /-- The calls of `QueueJob` are told apart. -/
  numbered : c.queued.map Ticket.number = List.range c.queued.length
  one_place : ∀ t ∈ c.queued, ∃! p, c.InPlace t p
  only_queued : ∀ t p, c.InPlace t p → t ∈ c.queued
  /-- No job is started twice. -/
  once : c.started.Nodup
  /-- What was started is in execution or has returned. -/
  started : (c.executing ++ c.finished).Perm c.started
  /-- Jobs are started in the order of their pushes. -/
  order : c.started ++ c.pool.jobs = c.queued

/-- For any number of workers and producers and in any interleaving no job that `QueueJob` was
called with is lost, doubled or overtaken, and once `should_terminate` is set no further job is
started. -/
theorem jobs_conserved {acts : List (Act θ J A)} {c : Threads θ J A}
    (h : run (step nproc enter) new acts = some c) :
    Conserved nproc enter acts c ∧ (c.pool.shouldTerminate = true → ∀ later c',
      run (step nproc enter) c later = some c' →
      c'.started = c.started ∧ c.pool.jobs <+: c'.pool.jobs) := by
  have hb := run_balanced h
  refine ⟨?_, fun ht later c' hlater => run_frozen ht hlater⟩
  constructor
  · exact run_queued h
  · exact run_started h
  · exact run_finished h
  · exact hb.numbered
  · exact fun t ht => hb.one_place ht
  · exact fun t p hp => hb.queued_of_inPlace hp
  · have hnodup := hb.nodup
    rw [List.nodup_append'] at hnodup
    exact hb.split.nodup_iff.mp hnodup.2.1
  · exact hb.split
  · exact hb.order

/-- Two producers and two threads; the third job is pending when `stop` comes. -/
def thirdPending : List (Act Nat String Unit) :=
  [.spawn, .spawn, .threadLoop 1, .push 0 "a", .push 1 "b", .threadLoop 0, .notifyOne 1 (some 1),
    .threadLoop 1, .work 1 (), .notifyOne 0 none, .push 0 "c", .terminate, .finish 0]

theorem jobs_conserved_third_pending :
    ∃ c, run (step 2 fun _ : String => ()) new thirdPending = some c ∧
      c.InPlace ⟨0, "a"⟩ (.finished 0) ∧ c.InPlace ⟨1, "b"⟩ (.executed 1) ∧
      c.InPlace ⟨2, "c"⟩ (.pending 0) ∧ c.pool.shouldTerminate = true ∧
      Conserved 2 (fun _ => ()) thirdPending c ∧
      (c.pool.shouldTerminate = true → ∀ later c',
        run (step 2 fun _ => ()) c later = some c' →
        c'.started = c.started ∧ c.pool.jobs <+: c'.pool.jobs) := by
  obtain ⟨c, hc, ha, hb, hpending, ht⟩ : ∃ c,
      run (step 2 fun _ : String => ()) new thirdPending = some c ∧
        c.InPlace ⟨0, "a"⟩ (.finished 0) ∧ c.InPlace ⟨1, "b"⟩ (.executed 1) ∧
        c.InPlace ⟨2, "c"⟩ (.pending 0) ∧ c.pool.shouldTerminate = true :=
    ⟨_, rfl, rfl, ⟨(), rfl⟩, rfl, rfl⟩
  exact ⟨c, hc, ha, hb, hpending, ht, jobs_conserved hc⟩

end DataPipeline.Threads
