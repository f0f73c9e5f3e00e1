import DataPipeline.Manager.State

/-!
# The registry of feeders and consumers

A feeder below the capacity gets the number of registered feeders as its queue
index. That number is a fresh index as long as nobody left; after a removal it can
be the index of somebody still registered. The step lemma says exactly when a call
keeps the feeders on distinct queues, and the run theorem follows it through every
history. Registration without removal never runs into this, for both sides.
-/

namespace DataPipeline.DataManager

open Machine

variable {T : Type*}

/-! ### The feeder map under one call -/

/-- The index a new feeder below the capacity is about to get is not the index of
a registered feeder. -/
def NextIndexFree (dm : DataManager T) : Op T → Prop
  | .setFeeder appId => appId ∉ dm.inQueuesIds →
      dm.inQueuesIds.size < dm.maxNbInQueues.toNat →
      ∀ n, dm.inQueuesIds.lookup n ≠ some dm.inQueuesIds.size
  | _ => True

/-- From distinct feeder queues, a call leads to distinct feeder queues exactly when
the index it is about to hand out is free. -/
theorem step_distinct_iff {dm dm' : DataManager T} {op : Op T} (hd : dm.inQueuesIds.Distinct)
    (h : step dm op = some dm') : dm'.inQueuesIds.Distinct ↔ NextIndexFree dm op := by
  cases step_cases h with
  | setFeederRefused he =>
    refine ⟨fun _ hn hlt => ?_, fun _ => hd⟩
    simp only [setFeeder, register, hn, hlt, ite_false, ite_true, Prod.mk.injEq,
      Bool.true_eq_false, and_false] at he
  | setFeederAppend hn hlt =>
    refine (Slots.distinct_insert_iff hn hd).trans ⟨fun hfree _ _ => hfree, fun hfree => ?_⟩
    exact hfree hn hlt
  | setFeederHandOver _ hge hf =>
    exact ⟨fun _ _ hlt => absurd hlt (Nat.not_lt_of_le hge), fun _ => hd.handOver hf⟩
  | remFeeder => exact ⟨fun _ => trivial, fun _ => hd.erase _⟩
  | reset => exact ⟨fun _ => trivial, fun _ => Slots.distinct_empty⟩
  | remUnknown | setConsumerRefused | setConsumerAppend | setConsumerHandOver | pushUnknown | push
    | popNothing | pop | passIdle | pass => exact ⟨fun _ => trivial, fun _ => hd⟩

/-- All states a history passes through have their feeders on distinct queues
exactly when no `setFeeder` of the history hands out an index in use. -/
theorem feeders_distinct_iff (conf : DataManagerConf) (ops : List (Op T)) :
    (∀ before after dm, ops = before ++ after → run step (new conf) before = some dm →
        dm.inQueuesIds.Distinct) ↔
      Meets step NextIndexFree (new conf) ops := by
  constructor
  · intro h before op after dm he hdm
    have hd := h before (op :: after) dm he hdm
    cases op with
    | setFeeder appId =>
      have hstep : step dm (.setFeeder appId) = some (dm.setFeeder appId).1 := rfl
      refine (step_distinct_iff hd hstep).mp (h (before ++ [.setFeeder appId]) after _ ?_ ?_)
      · rw [he, List.append_assoc, List.singleton_append]
      · exact run_concat_eq_some.mpr ⟨dm, hdm, hstep⟩
    | _ => trivial
  · rintro hC before after dm rfl hdm
    exact run_invariant_of_meets (I := fun dm => dm.inQueuesIds.Distinct)
      (fun s a t hs ha hst => (step_distinct_iff hs hst).mpr ha) Slots.distinct_empty hC.prefix hdm

/-- After the removal of the first of two feeders the next one joins the second. -/
theorem feeder_joins_registered_queue :
    ∃ dm, run step (new (T := String) ⟨"dm", 8, 8, .BROADCAST⟩)
        [.setFeeder "a", .setFeeder "b", .remFeeder "a", .setFeeder "c"] = some dm ∧
      ¬ dm.inQueuesIds.Distinct := by
  refine ⟨_, rfl, fun h => ?_⟩
  exact absurd (h "b" "c" 1 rfl rfl) (by decide)

/-! ### Registration without removal -/

/-- The calls that only register. -/
def Op.Registers : Op T → Prop
  | .setFeeder _ => True
  | .setConsumer _ => True
  | _ => False

/-- One side of the manager while names only come: as many queues as names, all
empty, and every name on a queue of its own. -/
structure Fresh (ids : Slots String) (queues : List (Q T)) : Prop where
  size : ids.size = queues.length
  distinct : ids.Distinct
  below : ids.Below queues.length
  empty : ∀ q ∈ queues, q.queue = []

theorem Fresh.nil : Fresh ∅ ([] : List (Q T)) where
  size := rfl
  distinct := Slots.distinct_empty
  below := fun n i h => by simp only [AList.lookup_empty, reduceCtorEq] at h
  empty := fun q hq => absurd hq List.not_mem_nil

theorem Fresh.contents {ids : Slots String} {queues : List (Q T)} (h : Fresh ids queues)
    (i : Nat) : contents queues i = [] := by
  cases hq : queues[i]? with
  | none => exact contents_of_le (List.getElem?_eq_none_iff.mp hq)
  | some q => exact (contents_eq hq).trans (h.empty q (List.mem_of_getElem? hq))

/-- Below the capacity: a new index for a new empty queue. -/
theorem Fresh.append {ids : Slots String} {queues : List (Q T)} (h : Fresh ids queues)
    {appId : String} (hn : appId ∉ ids) :
    Fresh (ids.insert appId ids.size) (queues ++ [Q.new]) where
  size := by rw [Slots.size_insert hn, h.size, List.length_append, List.length_singleton]
  distinct := (Slots.distinct_insert_iff hn h.distinct).mpr (h.size ▸ h.below.free)
  below := by
    rw [List.length_append, List.length_singleton, h.size]
    exact (h.below.mono (Nat.le_succ _)).insert (Nat.lt_succ_self _)
  empty := by
    intro q hq
    rcases List.mem_append.mp hq with hq | hq
    · exact h.empty q hq
    · rw [List.mem_singleton.mp hq, Q.queue_new]

/-- At the capacity: the queue of "empty" changes hands. -/
theorem Fresh.handOver {ids : Slots String} {queues : List (Q T)} (h : Fresh ids queues)
    {appId : String} (hn : appId ∉ ids) {f : Nat} (hf : ids.lookup "empty" = some f) :
    Fresh (ids.handOver "empty" appId f) queues where
  size := by rw [Slots.size_handOver hn (Slots.mem_of_lookup hf), h.size]
  distinct := h.distinct.handOver hf
  below := h.below.handOver hf
  empty := h.empty

/-- Both sides of a manager that only saw registrations. -/
def Registered (dm : DataManager T) : Prop :=
  Fresh dm.inQueuesIds dm.inQueues ∧ Fresh dm.outQueuesIds dm.outQueues

theorem registered_new (conf : DataManagerConf) : Registered (new (T := T) conf) :=
  ⟨Fresh.nil, Fresh.nil⟩

theorem Registered.setFeeder {dm : DataManager T} (h : Registered dm) (appId : String) :
    Registered (dm.setFeeder appId).1 := by
  rcases dm.setFeeder_cases appId with he | ⟨hn, _, he⟩ | ⟨hn, _, f, hf, he⟩
  · exact he ▸ h
  · exact he ▸ ⟨h.1.append hn, h.2⟩
  · exact he ▸ ⟨h.1.handOver hn hf, h.2⟩

theorem Registered.setConsumer {dm : DataManager T} (h : Registered dm) (appId : String) :
    Registered (dm.setConsumer appId).1 := by
  rcases dm.setConsumer_cases appId with he | ⟨hn, _, he⟩ | ⟨hn, _, f, hf, he⟩
  · exact he ▸ h
  · exact he ▸ ⟨h.1, h.2.append hn⟩
  · exact he ▸ ⟨h.1, h.2.handOver hn hf⟩

/-- However names were registered, every registered name has an empty queue of its own. -/
theorem registered_of_run {conf : DataManagerConf} {ops : List (Op T)} {dm : DataManager T}
    (hops : ∀ op ∈ ops, op.Registers) (h : run step (new conf) ops = some dm) :
    Registered dm := by
  refine run_invariant_of_meets (C := fun _ op => op.Registers) ?_ (registered_new conf) ?_ h
  · intro s op t hs hop hst
    cases op with
    | setFeeder appId => exact Option.some.inj hst ▸ hs.setFeeder appId
    | setConsumer appId => exact Option.some.inj hst ▸ hs.setConsumer appId
    | remFeeder | push | pop | manageBroadcast | reset => exact hop.elim
  · intro before op after u he _
    exact hops op (he ▸ List.mem_append_right before (List.mem_cons_self ..))

end DataPipeline.DataManager
