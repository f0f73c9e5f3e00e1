import DataPipeline.Manager.Table

/-!
# The bounds of the queue vectors

The indices in the two maps stay below the lengths of the vectors in every history.
The other bound, the capacity, holds of the output queues only: an input queue is
created whenever fewer names are registered than the capacity allows, and the removal
of a feeder takes out its name but leaves its queue. The number of input queues is the
number of registered feeders together with the feeders removed since the last `reset`.
-/

namespace DataPipeline.DataManager

open Machine

variable {T : Type*}

/-! ### Indices -/

/-- After any calls on a fresh manager the index of every registered feeder and consumer is
below the length of its vector, and no `push`, `pop` or broadcast pass that may follow accesses
a queue that is not there. -/
theorem indices_in_range (conf : DataManagerConf) (ops : List (Op T)) :
    ∃ dm, run step (new conf) ops = some dm ∧
      dm.inQueuesIds.Below dm.inQueues.length ∧ dm.outQueuesIds.Below dm.outQueues.length ∧
      (∀ data pushId, (dm.push data pushId).isSome) ∧
      (∀ popId data, (dm.pop popId data).isSome) ∧
      dm.manageBroadcast.isSome := by
  obtain ⟨dm, hdm, hr⟩ := run_inRange conf ops
  refine ⟨dm, hdm, hr.inBelow, hr.outBelow, fun data pushId => ?_, fun popId data => ?_, ?_⟩
  · obtain ⟨dm', hdm'⟩ := hr.step_exists (.push data pushId)
    exact Option.isSome_iff_exists.mpr ⟨dm', hdm'⟩
  · cases hl : dm.outQueuesIds.lookup popId with
    | none => simp only [pop, hl, Option.isSome_some]
    | some id =>
      rw [pop_registered hl (List.getElem?_eq_getElem (hr.outBelow popId id hl)),
        Option.isSome_some]
  · rw [manageBroadcast_eq, Option.isSome_some]

/-! ### Removed feeders -/

/-- The number of feeders removed since the last `reset`, after one more call. -/
def removedAfter (dm : DataManager T) (removed : Nat) : Op T → Nat
  | .remFeeder appId => if appId ∈ dm.inQueuesIds then removed + 1 else removed
  | .reset => 0
  | _ => removed

/-- The manager with the number of feeders removed since the last `reset`. -/
def counted : Machine (DataManager T × Nat) (Op T) :=
  fun c op => (step c.1 op).map fun dm => (dm, removedAfter c.1 c.2 op)

/-- Every feeder that a call gives a new queue finds fewer registered and removed feeders
together than the capacity. -/
def RoomForQueue (c : DataManager T × Nat) : Op T → Prop
  | .setFeeder appId => appId ∉ c.1.inQueuesIds →
      c.1.inQueuesIds.size < c.1.maxNbInQueues.toNat →
      c.1.inQueuesIds.size + c.2 < c.1.maxNbInQueues.toNat
  | _ => True

/-- Every input queue is that of a registered feeder or was left behind by a removed one. -/
def QueuesCounted (c : DataManager T × Nat) : Prop :=
  c.1.inQueues.length = c.1.inQueuesIds.size + c.2

/-- The number of input queues is within the capacity. -/
def InputsBounded (dm : DataManager T) : Prop := dm.inQueues.length ≤ dm.maxNbInQueues.toNat

theorem QueuesCounted.step {c c' : DataManager T × Nat} {op : Op T} (hc : QueuesCounted c)
    (h : counted c op = some c') : QueuesCounted c' := by
  obtain ⟨dm', hst, rfl⟩ := Option.map_eq_some_iff.mp h
  unfold QueuesCounted at hc ⊢
  cases step_cases hst with
  | setFeederAppend hn =>
    simp only [removedAfter, List.length_append, List.length_singleton, Slots.size_insert hn]
    omega
  | setFeederHandOver hn _ hf =>
    simp only [removedAfter, Slots.size_handOver hn (Slots.mem_of_lookup hf)]
    exact hc
  | remFeeder hm =>
    have hpos : 0 < c.1.inQueuesIds.size := List.length_pos_of_mem (AList.mem_keys.mp hm)
    simp only [removedAfter, if_pos hm, Slots.size_erase hm]
    omega
  | remUnknown hn =>
    simp only [removedAfter, if_neg hn]
    exact hc
  | push | pass =>
    simp only [removedAfter, List.length_set, List.length_map]
    exact hc
  | reset => rfl
  | setFeederRefused | setConsumerRefused | setConsumerAppend | setConsumerHandOver | pushUnknown
    | popNothing | pop | passIdle => exact hc

/-- One call keeps the number of input queues within the capacity exactly when there is
room for the queue that it creates. -/
theorem step_bounded_iff {c c' : DataManager T × Nat} {op : Op T} (hc : QueuesCounted c)
    (hb : InputsBounded c.1) (h : counted c op = some c') :
    InputsBounded c'.1 ↔ RoomForQueue c op := by
  obtain ⟨dm', hst, rfl⟩ := Option.map_eq_some_iff.mp h
  unfold QueuesCounted at hc
  unfold InputsBounded at hb ⊢
  cases step_cases hst with
  | setFeederRefused he =>
    refine ⟨fun _ hn hlt => ?_, fun _ => hb⟩
    simp only [setFeeder, register, hn, hlt, ite_false, ite_true, Prod.mk.injEq,
      Bool.true_eq_false, and_false] at he
  | setFeederAppend hn hlt =>
    simp only [RoomForQueue, hn, hlt, not_false_eq_true, forall_const, List.length_append,
      List.length_singleton]
    omega
  | setFeederHandOver _ hge => exact ⟨fun _ _ hlt => absurd hlt (Nat.not_lt_of_le hge), fun _ => hb⟩
  | push | pass =>
    simp only [RoomForQueue, List.length_set, List.length_map, iff_true]
    exact hb
  | reset => exact ⟨fun _ => trivial, fun _ => Nat.zero_le _⟩
  | remFeeder | remUnknown | setConsumerRefused | setConsumerAppend | setConsumerHandOver
    | pushUnknown | popNothing | pop | passIdle => exact ⟨fun _ => trivial, fun _ => hb⟩

/-- Counting does not change what the calls do. -/
theorem run_counted_iff {c : DataManager T × Nat} {ops : List (Op T)} {dm : DataManager T} :
    run step c.1 ops = some dm ↔ ∃ removed, run counted c ops = some (dm, removed) := by
  induction ops generalizing c with
  | nil =>
    constructor
    · intro h
      exact ⟨c.2, congrArg (fun dm => some (dm, c.2)) (Option.some.inj h)⟩
    · rintro ⟨removed, h⟩
      exact congrArg (fun c => some c.1) (Option.some.inj h)
  | cons op ops ih =>
    rw [run_cons, run_cons, counted]
    cases step c.1 op with
    | none => exact ⟨fun h => (by cases h), fun ⟨_, h⟩ => (by cases h)⟩
    | some dm' => exact ih (c := (dm', removedAfter c.1 c.2 op))

/-- In every state of a history there are at most as many input queues as the capacity
exactly when no `setFeeder` creates a queue while the registered feeders together with
those removed since the last `reset` have reached the capacity. -/
theorem inQueues_bounded_iff (conf : DataManagerConf) (ops : List (Op T)) :
    Always step (fun dm => dm.inQueues.length ≤ dm.maxNbInQueues.toNat) (new conf) ops ↔
      Meets counted RoomForQueue (new conf, 0) ops := by
  obtain ⟨dm, hdm, _⟩ := run_inRange conf ops
  obtain ⟨removed, hrun⟩ := (run_counted_iff (c := (new conf, 0))).mp hdm
  have hnew : QueuesCounted (T := T) (new conf, 0) := rfl
  have hzero : InputsBounded (T := T) (new conf) := Nat.zero_le _
  rw [← always_iff_meets (P := fun c => InputsBounded c.1)
    (fun c op c' hc hb h => ⟨QueuesCounted.step hc h, step_bounded_iff hc hb h⟩) hnew hzero hrun]
  constructor
  · intro h before after c he hc
    exact h before after c.1 he (run_counted_iff.mpr ⟨c.2, hc⟩)
  · intro h before after dm he hdm
    obtain ⟨removed, hc⟩ := (run_counted_iff (c := (new conf, 0))).mp hdm
    exact h before after (dm, removed) he hc

/-- With room for one feeder, the next one after its removal gets a second queue. -/
theorem inQueues_exceed_capacity :
    ¬ Always step (fun dm => dm.inQueues.length ≤ dm.maxNbInQueues.toNat)
      (new (T := String) ⟨"dm", 1, 1, .BROADCAST⟩)
      [.setFeeder "a", .remFeeder "a", .setFeeder "b"] := by
  intro h
  exact absurd (h _ [] _ (List.append_nil _).symm rfl) (by decide)

end DataPipeline.DataManager
