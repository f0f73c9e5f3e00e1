import DataPipeline.Core.Tenure
import DataPipeline.Manager.Log

/-!
# The tables of the manager

Each of the two maps of the manager is a table of bounded size that the calls make
requests of, with the name "empty" as its spare. The consumer map is moreover never
thinned out, so its indices are at all times those of the output queues.
-/

namespace DataPipeline.DataManager

open Machine

variable {T : Type*}

/-! ### Calls as requests -/

/-- What a call asks of the feeder map. -/
def Op.onFeeders : Op T → Slots.Request String
  | .setFeeder appId => .enter appId
  | .remFeeder appId => .leave appId
  | .reset => .clear
  | _ => .pass

/-- What a call asks of the consumer map. -/
def Op.onConsumers : Op T → Slots.Request String
  | .setConsumer appId => .enter appId
  | .reset => .clear
  | _ => .pass

/-- Registering below or at the capacity is admitting to the table. -/
theorem register_eq_admitOne (cap : UInt8) (ids : Slots String) (queues : List (Q T))
    (appId : String) :
    ((register cap ids queues appId).map Prod.fst).getD ids =
      Slots.admitOne cap.toNat "empty" ids appId := by
  unfold register Slots.admitOne
  split
  · rfl
  split
  · rfl
  cases ids.lookup "empty" <;> rfl

/-- A registration returns `true` exactly when the table grants it. -/
theorem register_isSome_iff (cap : UInt8) (ids : Slots String) (queues : List (Q T))
    (appId : String) :
    (register cap ids queues appId).isSome ↔ Slots.Granted cap.toNat "empty" ids appId := by
  unfold register Slots.Granted
  by_cases hn : appId ∈ ids
  · simp only [hn, ite_true, Option.isSome_none, Bool.false_eq_true, not_true_eq_false, false_and]
  · by_cases hlt : ids.size < cap.toNat
    · simp only [hn, hlt, ite_false, ite_true, Option.isSome_some, not_false_eq_true, true_or,
        and_self]
    · simp only [hn, hlt, ite_false, Option.isSome_map, AList.lookup_isSome, not_false_eq_true,
        false_or, true_and]

theorem setFeeder_eq_admitOne (dm : DataManager T) (appId : String) :
    (dm.setFeeder appId).1.inQueuesIds =
        Slots.admitOne dm.maxNbInQueues.toNat "empty" dm.inQueuesIds appId ∧
      (dm.setFeeder appId).1.maxNbInQueues = dm.maxNbInQueues ∧
      (dm.setFeeder appId).1.outQueuesIds = dm.outQueuesIds ∧
      (dm.setFeeder appId).1.maxNbOutQueues = dm.maxNbOutQueues := by
  rw [← register_eq_admitOne dm.maxNbInQueues dm.inQueuesIds dm.inQueues, setFeeder]
  split
  · rename_i hr
    exact ⟨by rw [hr]; rfl, rfl, rfl, rfl⟩
  · rename_i hr
    exact ⟨by rw [hr]; rfl, rfl, rfl, rfl⟩

theorem setConsumer_eq_admitOne (dm : DataManager T) (appId : String) :
    (dm.setConsumer appId).1.outQueuesIds =
        Slots.admitOne dm.maxNbOutQueues.toNat "empty" dm.outQueuesIds appId ∧
      (dm.setConsumer appId).1.maxNbOutQueues = dm.maxNbOutQueues ∧
      (dm.setConsumer appId).1.inQueuesIds = dm.inQueuesIds ∧
      (dm.setConsumer appId).1.maxNbInQueues = dm.maxNbInQueues := by
  rw [← register_eq_admitOne dm.maxNbOutQueues dm.outQueuesIds dm.outQueues, setConsumer]
  split
  · rename_i hr
    exact ⟨by rw [hr]; rfl, rfl, rfl, rfl⟩
  · rename_i hr
    exact ⟨by rw [hr]; rfl, rfl, rfl, rfl⟩

theorem setFeeder_true_iff (dm : DataManager T) (appId : String) :
    (dm.setFeeder appId).2 = true ↔
      Slots.Granted dm.maxNbInQueues.toNat "empty" dm.inQueuesIds appId := by
  rw [← register_isSome_iff _ _ dm.inQueues, setFeeder]
  split <;> rename_i hr <;> simp only [hr, Option.isSome_some, Option.isSome_none]

theorem setConsumer_true_iff (dm : DataManager T) (appId : String) :
    (dm.setConsumer appId).2 = true ↔
      Slots.Granted dm.maxNbOutQueues.toNat "empty" dm.outQueuesIds appId := by
  rw [← register_isSome_iff _ _ dm.outQueues, setConsumer]
  split <;> rename_i hr <;> simp only [hr, Option.isSome_some, Option.isSome_none]

/-- A call that is no registration leaves the consumer side's map, capacity and number of
queues alone, unless it is `reset`. -/
theorem step_consumer_side {dm dm' : DataManager T} {op : Op T} (h : step dm op = some dm')
    (hc : ∀ appId, op ≠ .setConsumer appId) (hr : op ≠ .reset) :
    dm'.outQueuesIds = dm.outQueuesIds ∧ dm'.outQueues.length = dm.outQueues.length ∧
      dm'.maxNbOutQueues = dm.maxNbOutQueues := by
  cases step_cases h with
  | setConsumerRefused | setConsumerAppend | setConsumerHandOver => exact absurd rfl (hc _)
  | pop => exact ⟨rfl, List.length_set, rfl⟩
  | pass => exact ⟨rfl, List.length_map _, rfl⟩
  | setFeederRefused | setFeederAppend | setFeederHandOver | remFeeder | remUnknown | pushUnknown
    | push | popNothing | passIdle => exact ⟨rfl, rfl, rfl⟩
  | reset => exact absurd rfl hr

/-- The same for the feeder side, where also `remFeeder` touches the map. -/
theorem step_feeder_side {dm dm' : DataManager T} {op : Op T} (h : step dm op = some dm')
    (hf : ∀ appId, op ≠ .setFeeder appId) (hm : ∀ appId, op ≠ .remFeeder appId)
    (hr : op ≠ .reset) :
    dm'.inQueuesIds = dm.inQueuesIds ∧ dm'.maxNbInQueues = dm.maxNbInQueues := by
  cases step_cases h with
  | setFeederRefused | setFeederAppend | setFeederHandOver => exact absurd rfl (hf _)
  | remFeeder | remUnknown => exact absurd rfl (hm _)
  | setConsumerRefused | setConsumerAppend | setConsumerHandOver | pushUnknown | push | popNothing
    | pop | passIdle | pass => exact ⟨rfl, rfl⟩
  | reset => exact absurd rfl hr

/-- A name that is not in the map can be taken out of it. -/
theorem erase_of_notMem {ids : Slots String} {n : String} (h : n ∉ ids) : ids.erase n = ids := by
  apply AList.ext
  exact List.kerase_of_notMem_keys (mt AList.mem_keys.mpr h)

/-- Every call serves its request to the feeder map. -/
theorem step_feeders {dm dm' : DataManager T} {op : Op T} (h : step dm op = some dm') :
    dm'.maxNbInQueues = dm.maxNbInQueues ∧
      Slots.serve dm.maxNbInQueues.toNat "empty" dm.inQueuesIds op.onFeeders =
        some dm'.inQueuesIds := by
  cases op with
  | setFeeder appId =>
    obtain rfl := Option.some.inj h
    obtain ⟨hin, hmax, _⟩ := dm.setFeeder_eq_admitOne appId
    exact ⟨hmax, congrArg some hin.symm⟩
  | remFeeder appId =>
    obtain rfl := Option.some.inj h
    unfold remFeeder
    split
    · exact ⟨rfl, rfl⟩
    · rename_i hn
      exact ⟨rfl, congrArg some (erase_of_notMem hn)⟩
  | setConsumer | push | pop | manageBroadcast =>
    obtain ⟨hin, hmax⟩ := step_feeder_side h nofun nofun nofun
    exact ⟨hmax, congrArg some hin.symm⟩
  | reset =>
    obtain rfl := Option.some.inj h
    exact ⟨rfl, rfl⟩

/-- Every call serves its request to the consumer map. -/
theorem step_consumers {dm dm' : DataManager T} {op : Op T} (h : step dm op = some dm') :
    dm'.maxNbOutQueues = dm.maxNbOutQueues ∧
      Slots.serve dm.maxNbOutQueues.toNat "empty" dm.outQueuesIds op.onConsumers =
        some dm'.outQueuesIds := by
  cases op with
  | setConsumer appId =>
    obtain rfl := Option.some.inj h
    obtain ⟨hout, hmax, _⟩ := dm.setConsumer_eq_admitOne appId
    exact ⟨hmax, congrArg some hout.symm⟩
  | setFeeder | remFeeder | push | pop | manageBroadcast =>
    obtain ⟨hout, _, hmax⟩ := step_consumer_side h nofun nofun
    exact ⟨hmax, congrArg some hout.symm⟩
  | reset =>
    obtain rfl := Option.some.inj h
    exact ⟨rfl, rfl⟩

/-- A history of calls is a sequence of requests to the feeder map. -/
theorem run_feeders {dm dm' : DataManager T} {ops : List (Op T)}
    (h : run step dm ops = some dm') :
    run (Slots.serve dm.maxNbInQueues.toNat "empty") dm.inQueuesIds (ops.map Op.onFeeders) =
      some dm'.inQueuesIds := by
  refine run_simulation (I := fun u => u.maxNbInQueues = dm.maxNbInQueues) ?_ rfl h
  intro u op v hu huv
  obtain ⟨hmax, hs⟩ := step_feeders huv
  exact ⟨hmax.trans hu, hu ▸ hs⟩

/-- A history of calls is a sequence of requests to the consumer map. -/
theorem run_consumers {dm dm' : DataManager T} {ops : List (Op T)}
    (h : run step dm ops = some dm') :
    run (Slots.serve dm.maxNbOutQueues.toNat "empty") dm.outQueuesIds
      (ops.map Op.onConsumers) = some dm'.outQueuesIds := by
  refine run_simulation (I := fun u => u.maxNbOutQueues = dm.maxNbOutQueues) ?_ rfl h
  intro u op v hu huv
  obtain ⟨hmax, hs⟩ := step_consumers huv
  exact ⟨hmax.trans hu, hu ▸ hs⟩

/-- The capacities are those of the configuration. -/
theorem run_capacities {conf : DataManagerConf} {ops : List (Op T)} {dm : DataManager T}
    (h : run step (new conf) ops = some dm) :
    dm.maxNbInQueues = conf.maxFeeders ∧ dm.maxNbOutQueues = conf.maxConsumers := by
  refine run_invariant (I := fun dm => dm.maxNbInQueues = conf.maxFeeders ∧
    dm.maxNbOutQueues = conf.maxConsumers) ?_ ⟨rfl, rfl⟩ h
  intro s op t hs hst
  exact ⟨(step_feeders hst).1.trans hs.1, (step_consumers hst).1.trans hs.2⟩

/-! ### The consumer map is a bijection -/

/-- As many names as queues, on different queues, within the capacity. -/
structure Compact (cap : UInt8) (ids : Slots String) (count : Nat) : Prop where
  size : ids.size = count
  distinct : ids.Distinct
  below : ids.Below count
  room : count ≤ cap.toNat

theorem compact_empty (cap : UInt8) : Compact cap ∅ 0 where
  size := rfl
  distinct := Slots.distinct_empty
  below := fun n i h => by simp only [AList.lookup_empty, reduceCtorEq] at h
  room := Nat.zero_le _

/-- Both ways of registering keep the map compact. -/
theorem Compact.register {cap : UInt8} {ids ids' : Slots String} {queues queues' : List (Q T)}
    (h : Compact cap ids queues.length) {appId : String}
    (hr : register cap ids queues appId = some (ids', queues')) :
    Compact cap ids' queues'.length := by
  obtain ⟨hn, ⟨hlt, rfl, rfl⟩ | ⟨_, rfl, f, hf, rfl⟩⟩ := register_cases hr
  · rw [List.length_append, List.length_singleton]
    refine ⟨?_, ?_, ?_, ?_⟩
    · rw [Slots.size_insert hn, h.size]
    · apply (Slots.distinct_insert_iff hn h.distinct).mpr
      rw [h.size]
      exact h.below.free
    · rw [h.size]
      exact (h.below.mono (Nat.le_succ _)).insert (Nat.lt_succ_self _)
    · have := h.size
      omega
  · refine ⟨?_, h.distinct.handOver hf, h.below.handOver hf, h.room⟩
    rw [Slots.size_handOver hn (Slots.mem_of_lookup hf), h.size]

/-- Every call keeps the consumer map compact. -/
theorem Compact.step {dm dm' : DataManager T} {op : Op T}
    (h : Compact dm.maxNbOutQueues dm.outQueuesIds dm.outQueues.length)
    (hst : step dm op = some dm') :
    Compact dm'.maxNbOutQueues dm'.outQueuesIds dm'.outQueues.length := by
  cases op with
  | setConsumer appId =>
    obtain rfl := Option.some.inj hst
    unfold setConsumer
    split
    · rename_i ids queues hr
      exact h.register hr
    · exact h
  | setFeeder | remFeeder | push | pop | manageBroadcast =>
    obtain ⟨hout, hlen, hmax⟩ := step_consumer_side hst nofun nofun
    rwa [hout, hlen, hmax]
  | reset =>
    obtain rfl := Option.some.inj hst
    exact compact_empty _

theorem run_compact {conf : DataManagerConf} {ops : List (Op T)} {dm : DataManager T}
    (h : run step (new conf) ops = some dm) :
    Compact dm.maxNbOutQueues dm.outQueuesIds dm.outQueues.length :=
  run_invariant (I := fun dm => Compact dm.maxNbOutQueues dm.outQueuesIds dm.outQueues.length)
    (fun _ _ _ hs hst => hs.step hst) (compact_empty _) h

/-- After any calls on a fresh manager its consumer map is a bijection onto the indices of
the output queues, of which there are at most as many as the capacity. -/
theorem consumers_fill_outQueues (conf : DataManagerConf) (ops : List (Op T)) :
    ∃ dm, run step (new conf) ops = some dm ∧
      dm.outQueuesIds.Fills dm.outQueues.length ∧
      dm.outQueues.length ≤ dm.maxNbOutQueues.toNat ∧ dm.maxNbOutQueues = conf.maxConsumers := by
  obtain ⟨dm, hdm, _⟩ := run_inRange conf ops
  have hc := run_compact hdm
  exact ⟨dm, hdm, hc.distinct.fills hc.below hc.size, hc.room, (run_capacities hdm).2⟩

/-- At the capacity the third name takes over the queue of "empty". -/
example : (run step (new (T := String) ⟨"dm", 8, 2, .BROADCAST⟩)
    [.setConsumer "empty", .setConsumer "b", .setConsumer "c", .setConsumer "d"]).map
      (fun dm => (dm.outQueuesIds.lookup "b", dm.outQueuesIds.lookup "c",
        dm.outQueuesIds.lookup "d", dm.outQueues.length)) =
    some (some 1, some 0, none, 2) := by decide

end DataPipeline.DataManager
