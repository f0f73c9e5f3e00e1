import DataPipeline.Core.Machine
import DataPipeline.Core.Slots
import DataPipeline.Manager.Queue

/-!
# The data manager

The registry of feeders and consumers, their queues, and the operations of
`DataManager`, each taken whole. A vector access past the end is undefined
behaviour in the source and is `none` here. The capacities are `uint8_t`.
-/

namespace DataPipeline

/-- `MODE`. -/
inductive MODE where
  | BROADCAST
  | MAP
  deriving DecidableEq, Repr

/-- `DataManagerConf`. -/
structure DataManagerConf where
  name : String
  maxFeeders : UInt8
  maxConsumers : UInt8
  mode : MODE
  deriving DecidableEq, Repr

/-- `DataManager<T>`. -/
structure DataManager (T : Type*) where
  name : String
  maxNbInQueues : UInt8
  maxNbOutQueues : UInt8
  mode : MODE
  inQueues : List (Q T)
  outQueues : List (Q T)
  /-- `m_inQueuesIds`: the input queue of each registered feeder. -/
  inQueuesIds : Slots String
  /-- `m_outQueuesIds`: the output queue of each registered consumer. -/
  outQueuesIds : Slots String

namespace DataManager

variable {T : Type*}

/-- The constructor. -/
def new (conf : DataManagerConf) : DataManager T where
  name := conf.name
  maxNbInQueues := conf.maxFeeders
  maxNbOutQueues := conf.maxConsumers
  mode := conf.mode
  inQueues := []
  outQueues := []
  inQueuesIds := ∅
  outQueuesIds := ∅

/-- The common body of `setFeeder` and `setConsumer`. Below the capacity a name
gets the number of registered names as its index and a new queue; at the capacity
it takes over the index of the entry called "empty". `none` is the `false` return,
which changes nothing. -/
def register (cap : UInt8) (ids : Slots String) (queues : List (Q T)) (appId : String) :
    Option (Slots String × List (Q T)) :=
  if appId ∈ ids then none
  else if ids.size < cap.toNat then some (ids.insert appId ids.size, queues ++ [Q.new])
  else (ids.lookup "empty").map fun f => (ids.handOver "empty" appId f, queues)

/-- `DataManager::setFeeder`. -/
def setFeeder (dm : DataManager T) (appId : String) : DataManager T × Bool :=
  match register dm.maxNbInQueues dm.inQueuesIds dm.inQueues appId with
  | some (ids, queues) => ({ dm with inQueuesIds := ids, inQueues := queues }, true)
  | none => (dm, false)

/-- `DataManager::setConsumer`. -/
def setConsumer (dm : DataManager T) (appId : String) : DataManager T × Bool :=
  match register dm.maxNbOutQueues dm.outQueuesIds dm.outQueues appId with
  | some (ids, queues) => ({ dm with outQueuesIds := ids, outQueues := queues }, true)
  | none => (dm, false)

/-- `DataManager::remFeeder`: the name leaves the map, its queue stays. -/
def remFeeder (dm : DataManager T) (appId : String) : DataManager T × Bool :=
  if appId ∈ dm.inQueuesIds then
    ({ dm with inQueuesIds := dm.inQueuesIds.erase appId }, true)
  else (dm, false)

/-- `DataManager::push`. An unknown feeder is logged and the data dropped. -/
def push (dm : DataManager T) (data : T) (pushId : String) : Option (DataManager T) :=
  match dm.inQueuesIds.lookup pushId with
  | none => some dm
  | some id =>
    dm.inQueues[id]?.map fun q => { dm with inQueues := dm.inQueues.set id (q.push data) }

/-- `DataManager::pop`: the manager, the caller's vector and the result. -/
def pop (dm : DataManager T) (popId : String) (data : List T) :
    Option (DataManager T × List T × Bool) :=
  match dm.outQueuesIds.lookup popId with
  | none => some (dm, data, false)
  | some id =>
    dm.outQueues[id]?.map fun q =>
      if q.empty then (dm, data, false)
      else
        let (q', data') := q.move data
        ({ dm with outQueues := dm.outQueues.set id q' }, data', true)

/-- The loop of `manageBroadcast` over the input queues, with the output queues
as the queues before have left them. -/
def broadcastLoop (broadCastList : List Nat) :
    List (Q T) → List (Q T) → Option (List (Q T) × List (Q T))
  | [], outQueues => some ([], outQueues)
  | it :: rest, outQueues =>
    if !it.empty && decide (broadCastList.length > 0) then do
      let (it', outQueues') ← it.copy outQueues broadCastList
      let (rest', outQueues'') ← broadcastLoop broadCastList rest outQueues'
      some (it' :: rest', outQueues'')
    else do
      let (rest', outQueues') ← broadcastLoop broadCastList rest outQueues
      some (it :: rest', outQueues')

/-- `DataManager::manageBroadcast`. -/
def manageBroadcast (dm : DataManager T) : Option (DataManager T) :=
  let broadCastList := List.range dm.outQueues.length
  (broadcastLoop broadCastList dm.inQueues dm.outQueues).map fun (inQueues, outQueues) =>
    { dm with inQueues, outQueues }

/-- `DataManager::reset`. -/
def reset (dm : DataManager T) : DataManager T :=
  { dm with inQueues := [], outQueues := [], inQueuesIds := ∅, outQueuesIds := ∅ }

/-- One call on the manager. -/
inductive Op (T : Type*) where
  | setFeeder (appId : String)
  | remFeeder (appId : String)
  | setConsumer (appId : String)
  | push (data : T) (pushId : String)
  | pop (popId : String)
  | manageBroadcast
  | reset
  deriving DecidableEq

/-- The manager as a machine whose labels are the calls. -/
def step : Machine (DataManager T) (Op T)
  | dm, .setFeeder appId => some (dm.setFeeder appId).1
  | dm, .remFeeder appId => some (dm.remFeeder appId).1
  | dm, .setConsumer appId => some (dm.setConsumer appId).1
  | dm, .push data pushId => dm.push data pushId
  | dm, .pop popId => (dm.pop popId []).map fun r => r.1
  | dm, .manageBroadcast => dm.manageBroadcast
  | dm, .reset => some dm.reset

/-- Everything that waits in the input queues, in the order a pass takes it. -/
def pending (dm : DataManager T) : List T := dm.inQueues.flatMap Q.queue

/-- Emptied queues have nothing waiting. -/
theorem flatMap_emptied (queues : List (Q T)) :
    (queues.map fun _ => (⟨[]⟩ : Q T)).flatMap Q.queue = [] := by
  simp only [List.flatMap_map, List.flatMap_eq_nil_iff, implies_true]

/-! ### What one registration does -/

/-- A successful registration either appends a queue for the name or hands the
queue of "empty" over to it. -/
theorem register_cases {cap : UInt8} {ids ids' : Slots String} {queues queues' : List (Q T)}
    {appId : String} (h : register cap ids queues appId = some (ids', queues')) :
    appId ∉ ids ∧
      ((ids.size < cap.toNat ∧ ids' = ids.insert appId ids.size ∧ queues' = queues ++ [Q.new]) ∨
        (cap.toNat ≤ ids.size ∧ queues' = queues ∧ ∃ f, ids.lookup "empty" = some f ∧
          ids' = ids.handOver "empty" appId f)) := by
  unfold register at h
  split at h
  · contradiction
  · rename_i hn
    refine ⟨hn, ?_⟩
    split at h
    · rename_i hlt
      cases h
      exact Or.inl ⟨hlt, rfl, rfl⟩
    · rename_i hge
      obtain ⟨f, hf, he⟩ := Option.map_eq_some_iff.mp h
      cases he
      exact Or.inr ⟨Nat.le_of_not_lt hge, rfl, f, hf, rfl⟩

/-- The registration branch a `setFeeder` call takes. -/
theorem setFeeder_cases (dm : DataManager T) (appId : String) :
    (dm.setFeeder appId = (dm, false)) ∨
      (appId ∉ dm.inQueuesIds ∧ dm.inQueuesIds.size < dm.maxNbInQueues.toNat ∧
        dm.setFeeder appId =
          ({ dm with inQueuesIds := dm.inQueuesIds.insert appId dm.inQueuesIds.size,
                     inQueues := dm.inQueues ++ [Q.new] }, true)) ∨
      (appId ∉ dm.inQueuesIds ∧ dm.maxNbInQueues.toNat ≤ dm.inQueuesIds.size ∧
        ∃ f, dm.inQueuesIds.lookup "empty" = some f ∧
        dm.setFeeder appId =
          ({ dm with inQueuesIds := dm.inQueuesIds.handOver "empty" appId f }, true)) := by
  unfold setFeeder
  cases h : register dm.maxNbInQueues dm.inQueuesIds dm.inQueues appId with
  | none => exact Or.inl rfl
  | some r =>
    obtain ⟨ids, queues⟩ := r
    obtain ⟨hn, ⟨hlt, rfl, rfl⟩ | ⟨hge, rfl, f, hf, rfl⟩⟩ := register_cases h
    · exact Or.inr (Or.inl ⟨hn, hlt, rfl⟩)
    · exact Or.inr (Or.inr ⟨hn, hge, f, hf, rfl⟩)

/-- The registration branch a `setConsumer` call takes. -/
theorem setConsumer_cases (dm : DataManager T) (appId : String) :
    (dm.setConsumer appId = (dm, false)) ∨
      (appId ∉ dm.outQueuesIds ∧ dm.outQueuesIds.size < dm.maxNbOutQueues.toNat ∧
        dm.setConsumer appId =
          ({ dm with outQueuesIds := dm.outQueuesIds.insert appId dm.outQueuesIds.size,
                     outQueues := dm.outQueues ++ [Q.new] }, true)) ∨
      (appId ∉ dm.outQueuesIds ∧ dm.maxNbOutQueues.toNat ≤ dm.outQueuesIds.size ∧
        ∃ f, dm.outQueuesIds.lookup "empty" = some f ∧
        dm.setConsumer appId =
          ({ dm with outQueuesIds := dm.outQueuesIds.handOver "empty" appId f }, true)) := by
  unfold setConsumer
  cases h : register dm.maxNbOutQueues dm.outQueuesIds dm.outQueues appId with
  | none => exact Or.inl rfl
  | some r =>
    obtain ⟨ids, queues⟩ := r
    obtain ⟨hn, ⟨hlt, rfl, rfl⟩ | ⟨hge, rfl, f, hf, rfl⟩⟩ := register_cases h
    · exact Or.inr (Or.inl ⟨hn, hlt, rfl⟩)
    · exact Or.inr (Or.inr ⟨hn, hge, f, hf, rfl⟩)

/-! ### What one push and one pop do -/

theorem push_registered {dm : DataManager T} {pushId : String} {id : Nat} {q : Q T}
    (hl : dm.inQueuesIds.lookup pushId = some id) (hq : dm.inQueues[id]? = some q) (data : T) :
    dm.push data pushId = some { dm with inQueues := dm.inQueues.set id (q.push data) } := by
  unfold push
  rw [hl]
  simp only [hq, Option.map_some]

theorem pop_registered {dm : DataManager T} {popId : String} {id : Nat} {q : Q T}
    (hl : dm.outQueuesIds.lookup popId = some id) (hq : dm.outQueues[id]? = some q)
    (data : List T) :
    dm.pop popId data = some (if q.empty then (dm, data, false) else
      ({ dm with outQueues := dm.outQueues.set id ⟨[]⟩ }, data ++ q.queue, true)) := by
  unfold pop
  rw [hl]
  simp only [hq, Option.map_some]
  rfl

theorem push_cases {dm dm' : DataManager T} {data : T} {pushId : String}
    (h : dm.push data pushId = some dm') :
    (dm.inQueuesIds.lookup pushId = none ∧ dm' = dm) ∨
      ∃ id q, dm.inQueuesIds.lookup pushId = some id ∧ dm.inQueues[id]? = some q ∧
        dm' = { dm with inQueues := dm.inQueues.set id (q.push data) } := by
  unfold push at h
  cases hl : dm.inQueuesIds.lookup pushId with
  | none =>
    rw [hl] at h
    exact Or.inl ⟨rfl, (Option.some.inj h).symm⟩
  | some id =>
    rw [hl] at h
    obtain ⟨q, hq, he⟩ := Option.map_eq_some_iff.mp h
    exact Or.inr ⟨id, q, rfl, hq, he.symm⟩

theorem pop_cases {dm dm' : DataManager T} {popId : String} {data data' : List T} {b : Bool}
    (h : dm.pop popId data = some (dm', data', b)) :
    (dm' = dm ∧ data' = data ∧ b = false) ∨
      ∃ id q, dm.outQueuesIds.lookup popId = some id ∧ dm.outQueues[id]? = some q ∧
        q.queue ≠ [] ∧ dm' = { dm with outQueues := dm.outQueues.set id ⟨[]⟩ } ∧
        data' = data ++ q.queue ∧ b = true := by
  unfold pop at h
  cases hl : dm.outQueuesIds.lookup popId with
  | none =>
    rw [hl] at h
    cases h
    exact Or.inl ⟨rfl, rfl, rfl⟩
  | some id =>
    rw [hl] at h
    obtain ⟨q, hq, he⟩ := Option.map_eq_some_iff.mp h
    split at he
    · cases he
      exact Or.inl ⟨rfl, rfl, rfl⟩
    · rename_i hne
      cases he
      exact Or.inr ⟨id, q, rfl, hq, mt q.empty_iff.mpr hne, rfl, rfl, rfl⟩

/-! ### What one broadcast pass does -/

/-- With no output queue the loop leaves every input queue as it is. -/
theorem broadcastLoop_nil (inQueues outQueues : List (Q T)) :
    broadcastLoop [] inQueues outQueues = some (inQueues, outQueues) := by
  induction inQueues with
  | nil => rfl
  | cons it rest ih =>
    simp only [broadcastLoop, List.length_nil, gt_iff_lt, Nat.lt_irrefl, decide_false,
      Bool.and_false, Bool.false_eq_true, ite_false, ih, Option.bind_eq_bind, Option.bind_some]

/-- With output queues every one of them receives all input, in queue order, and
the input queues are left empty. -/
theorem broadcastLoop_range (inQueues outQueues : List (Q T)) (h : 0 < outQueues.length) :
    broadcastLoop (List.range outQueues.length) inQueues outQueues =
      some (inQueues.map fun _ => ⟨[]⟩,
        outQueues.map fun q => ⟨q.queue ++ inQueues.flatMap Q.queue⟩) := by
  induction inQueues generalizing outQueues with
  | nil => simp only [broadcastLoop, List.map_nil, List.flatMap_nil, List.append_nil, List.map_id']
  | cons it rest ih =>
    by_cases he : it.queue = []
    · have hb : it.empty = true := it.empty_iff.mpr he
      have hit : it = ⟨[]⟩ := by cases it; exact congrArg Q.mk he
      simp only [broadcastLoop, hb, Bool.not_true, Bool.false_and, Bool.false_eq_true, ite_false,
        ih outQueues h, Option.bind_eq_bind, Option.bind_some, List.map_cons, List.flatMap_cons, he,
        List.nil_append]
      rw [← hit]
    · have hb : it.empty = false := by
        rw [← Bool.not_eq_true, it.empty_iff]
        exact he
      have hl : (outQueues.map it.copyTo).length = outQueues.length := List.length_map _
      have hrest := ih (outQueues.map it.copyTo) (hl ▸ h)
      rw [hl] at hrest
      simp only [broadcastLoop, hb, Bool.not_false, List.length_range, gt_iff_lt, h, decide_true,
        Bool.and_true, ite_true, Q.copy_range, Option.bind_eq_bind, Option.bind_some, hrest,
        List.map_cons, List.map_map, List.flatMap_cons]
      simp only [Function.comp_def, Q.queue_copyTo, List.append_assoc]

/-- One whole pass. Without consumers nothing moves. -/
theorem manageBroadcast_eq (dm : DataManager T) :
    dm.manageBroadcast = some (if dm.outQueues = [] then dm else
      { dm with
        inQueues := dm.inQueues.map fun _ => ⟨[]⟩
        outQueues := dm.outQueues.map fun q => ⟨q.queue ++ dm.pending⟩ }) := by
  unfold manageBroadcast
  by_cases h : dm.outQueues = []
  · simp only [h, List.length_nil, List.range_zero, broadcastLoop_nil, Option.map_some, ite_true]
    rw [← h]
  · have hpos := List.length_pos_iff.mpr h
    simp only [broadcastLoop_range dm.inQueues dm.outQueues hpos, Option.map_some, h, ite_false]
    rfl

/-! ### What one call does -/

/-- The calls of the machine, one constructor for each way a call can go. -/
inductive Step (dm : DataManager T) : Op T → DataManager T → Prop where
  | setFeederRefused {appId} (he : dm.setFeeder appId = (dm, false)) : Step dm (.setFeeder appId) dm
  | setFeederAppend {appId} (hn : appId ∉ dm.inQueuesIds)
      (hlt : dm.inQueuesIds.size < dm.maxNbInQueues.toNat) :
      Step dm (.setFeeder appId)
        { dm with inQueuesIds := dm.inQueuesIds.insert appId dm.inQueuesIds.size,
                  inQueues := dm.inQueues ++ [Q.new] }
  | setFeederHandOver {appId f} (hn : appId ∉ dm.inQueuesIds)
      (hge : dm.maxNbInQueues.toNat ≤ dm.inQueuesIds.size)
      (hf : dm.inQueuesIds.lookup "empty" = some f) :
      Step dm (.setFeeder appId)
        { dm with inQueuesIds := dm.inQueuesIds.handOver "empty" appId f }
  | remFeeder {appId} (hm : appId ∈ dm.inQueuesIds) :
      Step dm (.remFeeder appId) { dm with inQueuesIds := dm.inQueuesIds.erase appId }
  | remUnknown {appId} (hn : appId ∉ dm.inQueuesIds) : Step dm (.remFeeder appId) dm
  | setConsumerRefused {appId} (he : dm.setConsumer appId = (dm, false)) :
      Step dm (.setConsumer appId) dm
  | setConsumerAppend {appId} (hn : appId ∉ dm.outQueuesIds)
      (hlt : dm.outQueuesIds.size < dm.maxNbOutQueues.toNat) :
      Step dm (.setConsumer appId)
        { dm with outQueuesIds := dm.outQueuesIds.insert appId dm.outQueuesIds.size,
                  outQueues := dm.outQueues ++ [Q.new] }
  | setConsumerHandOver {appId f} (hn : appId ∉ dm.outQueuesIds)
      (hge : dm.maxNbOutQueues.toNat ≤ dm.outQueuesIds.size)
      (hf : dm.outQueuesIds.lookup "empty" = some f) :
      Step dm (.setConsumer appId)
        { dm with outQueuesIds := dm.outQueuesIds.handOver "empty" appId f }
  | pushUnknown {data pushId} (hl : dm.inQueuesIds.lookup pushId = none) :
      Step dm (.push data pushId) dm
  | push {data pushId id q} (hl : dm.inQueuesIds.lookup pushId = some id)
      (hq : dm.inQueues[id]? = some q) :
      Step dm (.push data pushId) { dm with inQueues := dm.inQueues.set id (q.push data) }
  | popNothing {popId} (hp : dm.pop popId [] = some (dm, [], false)) : Step dm (.pop popId) dm
  | pop {popId id q} (hl : dm.outQueuesIds.lookup popId = some id)
      (hq : dm.outQueues[id]? = some q) (hp : dm.pop popId [] =
        some ({ dm with outQueues := dm.outQueues.set id ⟨[]⟩ }, q.queue, true)) :
      Step dm (.pop popId) { dm with outQueues := dm.outQueues.set id ⟨[]⟩ }
  | passIdle (hnil : dm.outQueues = []) : Step dm .manageBroadcast dm
  | pass (hne : dm.outQueues ≠ []) :
      Step dm .manageBroadcast
        { dm with inQueues := dm.inQueues.map fun _ => ⟨[]⟩
                  outQueues := dm.outQueues.map fun q => ⟨q.queue ++ dm.pending⟩ }
  | reset : Step dm .reset dm.reset

/-- Every call goes one of these ways. -/
theorem step_cases {dm dm' : DataManager T} {op : Op T} (h : step dm op = some dm') :
    Step dm op dm' := by
  cases op with
  | setFeeder appId =>
    obtain rfl := Option.some.inj h
    rcases dm.setFeeder_cases appId with he | ⟨hn, hlt, he⟩ | ⟨hn, hge, f, hf, he⟩
    · exact (congrArg Prod.fst he).symm ▸ .setFeederRefused he
    · exact (congrArg Prod.fst he).symm ▸ .setFeederAppend hn hlt
    · exact (congrArg Prod.fst he).symm ▸ .setFeederHandOver hn hge hf
  | remFeeder appId =>
    obtain rfl := Option.some.inj h
    unfold DataManager.remFeeder
    split
    · rename_i hm
      exact .remFeeder hm
    · rename_i hn
      exact .remUnknown hn
  | setConsumer appId =>
    obtain rfl := Option.some.inj h
    rcases dm.setConsumer_cases appId with he | ⟨hn, hlt, he⟩ | ⟨hn, hge, f, hf, he⟩
    · exact (congrArg Prod.fst he).symm ▸ .setConsumerRefused he
    · exact (congrArg Prod.fst he).symm ▸ .setConsumerAppend hn hlt
    · exact (congrArg Prod.fst he).symm ▸ .setConsumerHandOver hn hge hf
  | push data pushId =>
    rcases push_cases h with ⟨hl, rfl⟩ | ⟨id, q, hl, hq, rfl⟩
    · exact .pushUnknown hl
    · exact .push hl hq
  | pop popId =>
    obtain ⟨⟨u, data', b⟩, hp, rfl⟩ := Option.map_eq_some_iff.mp h
    rcases pop_cases hp with ⟨rfl, rfl, rfl⟩ | ⟨id, q, hl, hq, _, rfl, rfl, rfl⟩
    · exact .popNothing hp
    · exact .pop hl hq hp
  | manageBroadcast =>
    obtain rfl := Option.some.inj (dm.manageBroadcast_eq.symm.trans h)
    split
    · rename_i hnil
      exact .passIdle hnil
    · rename_i hne
      exact .pass hne
  | reset =>
    obtain rfl := Option.some.inj h
    exact .reset

/-! ### Other messages -/

section Map

variable {U : Type*}

/-- The manager with other messages in its queues. -/
def map (f : T → U) (dm : DataManager T) : DataManager U where
  name := dm.name
  maxNbInQueues := dm.maxNbInQueues
  maxNbOutQueues := dm.maxNbOutQueues
  mode := dm.mode
  inQueues := dm.inQueues.map (Q.map f)
  outQueues := dm.outQueues.map (Q.map f)
  inQueuesIds := dm.inQueuesIds
  outQueuesIds := dm.outQueuesIds

/-- The call with another message. -/
def Op.map (f : T → U) : Op T → Op U
  | .setFeeder appId => .setFeeder appId
  | .remFeeder appId => .remFeeder appId
  | .setConsumer appId => .setConsumer appId
  | .push data pushId => .push (f data) pushId
  | .pop popId => .pop popId
  | .manageBroadcast => .manageBroadcast
  | .reset => .reset

theorem register_map (f : T → U) (cap : UInt8) (ids : Slots String) (queues : List (Q T))
    (appId : String) :
    register cap ids (queues.map (Q.map f)) appId =
      (register cap ids queues appId).map fun r => (r.1, r.2.map (Q.map f)) := by
  unfold register
  split
  · rfl
  split
  · rw [Option.map_some, List.map_append]
    rfl
  · rw [Option.map_map]
    rfl

theorem pending_map (f : T → U) (dm : DataManager T) :
    (dm.map f).pending = dm.pending.map f := by
  rw [pending, pending, List.map_flatMap, map, List.flatMap_map]
  rfl

/-- The manager never looks into a message. -/
theorem step_map (f : T → U) {dm dm' : DataManager T} {op : Op T} (h : step dm op = some dm') :
    step (dm.map f) (op.map f) = some (dm'.map f) := by
  cases op with
  | setFeeder appId =>
    obtain rfl := Option.some.inj h
    simp only [Op.map, step, setFeeder, map, register_map]
    cases register dm.maxNbInQueues dm.inQueuesIds dm.inQueues appId <;> rfl
  | remFeeder appId =>
    obtain rfl := Option.some.inj h
    simp only [Op.map, step, remFeeder, map]
    split <;> rfl
  | setConsumer appId =>
    obtain rfl := Option.some.inj h
    simp only [Op.map, step, setConsumer, map, register_map]
    cases register dm.maxNbOutQueues dm.outQueuesIds dm.outQueues appId <;> rfl
  | push data pushId =>
    rcases push_cases h with ⟨hl, rfl⟩ | ⟨i, q, hl, hq, rfl⟩
    · simp only [Op.map, step, push, map, hl]
    · have hq' : (dm.map f).inQueues[i]? = some (q.map f) := by
        rw [map, List.getElem?_map, hq, Option.map_some]
      have hl' : (dm.map f).inQueuesIds.lookup pushId = some i := hl
      apply (push_registered hl' hq' (f data)).trans
      simp only [map, List.map_set, Q.map, Q.push, List.map_append, List.map_cons, List.map_nil]
  | pop popId =>
    obtain ⟨⟨u, data', b⟩, hp, rfl⟩ := Option.map_eq_some_iff.mp h
    cases hl : dm.outQueuesIds.lookup popId with
    | none =>
      simp only [pop, hl] at hp
      cases hp
      simp only [Op.map, step, pop, map, hl, Option.map_some]
    | some i =>
      obtain ⟨q, hq⟩ : ∃ q, dm.outQueues[i]? = some q := by
        simp only [pop, hl, Option.map_eq_some_iff] at hp
        obtain ⟨q, hq, _⟩ := hp
        exact ⟨q, hq⟩
      have hq' : (dm.map f).outQueues[i]? = some (q.map f) := by
        rw [map, List.getElem?_map, hq, Option.map_some]
      have hl' : (dm.map f).outQueuesIds.lookup popId = some i := hl
      have he : (q.map f).empty = q.empty := List.isEmpty_map
      rw [pop_registered hl hq] at hp
      simp only [Op.map, step, pop_registered hl' hq', he, Option.map_some]
      split at hp <;> rename_i hemp <;> cases hp <;> simp only [hemp]
      · rfl
      · simp only [map, List.map_set]
        rfl
  | manageBroadcast =>
    obtain rfl := Option.some.inj (dm.manageBroadcast_eq.symm.trans h)
    apply (dm.map f).manageBroadcast_eq.trans
    by_cases hnil : dm.outQueues = []
    · have hnil' : (dm.map f).outQueues = [] := by rw [map, hnil, List.map_nil]
      rw [if_pos hnil, if_pos hnil']
    · have hnil' : (dm.map f).outQueues ≠ [] := mt List.map_eq_nil_iff.mp hnil
      rw [if_neg hnil, if_neg hnil', pending_map]
      simp only [map, List.map_map, Function.comp_def, Q.map, List.map_append, List.map_nil]
  | reset =>
    obtain rfl := Option.some.inj h
    rfl

/-- Nor does a whole history. -/
theorem run_map (f : T → U) {dm dm' : DataManager T} {ops : List (Op T)}
    (h : Machine.run step dm ops = some dm') :
    Machine.run step (dm.map f) (ops.map (Op.map f)) = some (dm'.map f) :=
  Machine.run_simulation (I := fun _ => True) (fun _ _ _ _ hst => ⟨trivial, step_map f hst⟩)
    trivial h

end Map

end DataManager

end DataPipeline
