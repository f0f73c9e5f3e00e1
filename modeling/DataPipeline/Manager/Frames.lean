import DataPipeline.Manager.Log

/-!
# What a call on the registry leaves alone

A call that fails changes nothing. A registration or removal that succeeds touches the map
of its own side only at the names involved, and the vector only by a new empty queue at its
end. The vector may be full: then `emplace_back` moves every queue to a new buffer with the
move constructor of `Q`, which takes the whole deque along.
-/

namespace DataPipeline

variable {T : Type*}

/-- `Q(Q &&other)`: the new queue, and what is left of the other one. -/
def Q.moveCtor (other : Q T) : Q T × Q T := (⟨other.queue⟩, ⟨[]⟩)

/-- `emplace_back` on a vector that has memory for `capacity` queues. When it is full the
queues are moved to a new buffer, and the ones left behind are destroyed. -/
def emplaceBack (capacity : Nat) (queues : List (Q T)) (q : Q T) : List (Q T) :=
  let buffer :=
    if queues.length < capacity then queues else queues.map fun other => other.moveCtor.1
  buffer ++ [q.moveCtor.1]

/-- Moved or not, the queues are where they were and hold what they held. -/
theorem emplaceBack_eq (capacity : Nat) (queues : List (Q T)) (q : Q T) :
    emplaceBack capacity queues q = queues ++ [q] := by
  have hmove : (queues.map fun other => other.moveCtor.1) = queues := List.map_id queues
  simp only [emplaceBack, hmove, ite_self]
  rfl

namespace DataManager

/-- `register` with the memory of the vector. -/
def registerIn (capacity : Nat) (cap : UInt8) (ids : Slots String) (queues : List (Q T))
    (appId : String) : Option (Slots String × List (Q T)) :=
  if appId ∈ ids then none
  else if ids.size < cap.toNat then
    some (ids.insert appId ids.size, emplaceBack capacity queues Q.new)
  else (ids.lookup "empty").map fun f => (ids.handOver "empty" appId f, queues)

/-- `DataManager::setFeeder` where `m_inQueues` has memory for `capacity` queues. -/
def setFeederIn (capacity : Nat) (dm : DataManager T) (appId : String) : DataManager T × Bool :=
  match registerIn capacity dm.maxNbInQueues dm.inQueuesIds dm.inQueues appId with
  | some (ids, queues) => ({ dm with inQueuesIds := ids, inQueues := queues }, true)
  | none => (dm, false)

/-- `DataManager::setConsumer` where `m_outQueues` has memory for `capacity` queues. -/
def setConsumerIn (capacity : Nat) (dm : DataManager T) (appId : String) : DataManager T × Bool :=
  match registerIn capacity dm.maxNbOutQueues dm.outQueuesIds dm.outQueues appId with
  | some (ids, queues) => ({ dm with outQueuesIds := ids, outQueues := queues }, true)
  | none => (dm, false)

theorem registerIn_eq (capacity : Nat) (cap : UInt8) (ids : Slots String) (queues : List (Q T))
    (appId : String) :
    registerIn capacity cap ids queues appId = register cap ids queues appId := by
  rw [registerIn, emplaceBack_eq, register]

/-- How much memory the vector has makes no difference. -/
theorem setFeederIn_eq (capacity : Nat) (dm : DataManager T) (appId : String) :
    dm.setFeederIn capacity appId = dm.setFeeder appId := by
  simp only [setFeederIn, registerIn_eq]
  rfl

theorem setConsumerIn_eq (capacity : Nat) (dm : DataManager T) (appId : String) :
    dm.setConsumerIn capacity appId = dm.setConsumer appId := by
  simp only [setConsumerIn, registerIn_eq]
  rfl

/-! ### One side of the registry -/

/-- What a call about `appId` leaves alone on the side it works on. -/
structure SideKept (appId : String) (ids ids' : Slots String) (queues queues' : List (Q T)) :
    Prop where
  /-- Every queue keeps its index and what it holds. -/
  queue : ∀ (i : Nat) (q : Q T), queues[i]? = some q → queues'[i]? = some q
  /-- A queue that was not there is empty. -/
  appended : ∀ (i : Nat) (q : Q T), queues.length ≤ i → queues'[i]? = some q → q.queue = []
  /-- Every other name that is still registered keeps its index. -/
  name : ∀ n ∈ ids', n ≠ appId → ids'.lookup n = ids.lookup n

theorem SideKept.of_queues_eq {appId : String} {ids ids' : Slots String} (queues : List (Q T))
    (h : ∀ n ∈ ids', n ≠ appId → ids'.lookup n = ids.lookup n) :
    SideKept appId ids ids' queues queues where
  queue := fun _ _ hq => hq
  appended := fun i q hi hq => by
    rw [List.getElem?_eq_none hi] at hq
    cases hq
  name := h

/-- Both ways of registering keep the side. -/
theorem register_kept {cap : UInt8} {ids ids' : Slots String} {queues queues' : List (Q T)}
    {appId : String} (h : register cap ids queues appId = some (ids', queues')) :
    SideKept appId ids ids' queues queues' := by
  obtain ⟨_, ⟨_, rfl, rfl⟩ | ⟨_, rfl, f, _, rfl⟩⟩ := register_cases h
  · refine ⟨fun i q hq => ?_, fun i q hi hq => ?_, fun n _ hn => AList.lookup_insert_ne hn⟩
    · rw [List.getElem?_append_left (List.getElem?_eq_some_iff.mp hq).1, hq]
    · rw [List.getElem?_append_right hi] at hq
      rw [List.mem_singleton.mp (List.mem_of_getElem? hq), Q.queue_new]
  · refine SideKept.of_queues_eq queues' fun n hn hne => ?_
    have hspare : n ≠ "empty" := by
      rintro rfl
      exact absurd hn (AList.mem_erase.not.mpr fun h => h.1 rfl)
    rw [Slots.handOver, AList.lookup_erase_ne hspare, AList.lookup_insert_ne hne]

theorem erase_kept (ids : Slots String) (queues : List (Q T)) (appId : String) :
    SideKept appId ids (ids.erase appId) queues queues :=
  SideKept.of_queues_eq queues fun _ _ hn => AList.lookup_erase_ne hn

/-! ### Every call -/

/-- A call on one side of the registry: it fails and changes nothing, or the side it works on
is kept and the other one unchanged. -/
structure Atomic (dm : DataManager T) : Prop where
  setFeeder_failed : ∀ capacity appId, (dm.setFeederIn capacity appId).2 = false →
    (dm.setFeederIn capacity appId).1 = dm
  setConsumer_failed : ∀ capacity appId, (dm.setConsumerIn capacity appId).2 = false →
    (dm.setConsumerIn capacity appId).1 = dm
  remFeeder_failed : ∀ appId, (dm.remFeeder appId).2 = false → (dm.remFeeder appId).1 = dm
  pop_failed : ∀ popId data, ∃ dm' data' b, dm.pop popId data = some (dm', data', b) ∧
    (b = false → dm' = dm ∧ data' = data)
  push_unknown : ∀ data pushId, pushId ∉ dm.inQueuesIds → dm.push data pushId = some dm
  setFeeder_done : ∀ capacity appId dm', dm.setFeederIn capacity appId = (dm', true) →
    SideKept appId dm.inQueuesIds dm'.inQueuesIds dm.inQueues dm'.inQueues ∧
      dm'.outQueuesIds = dm.outQueuesIds ∧ dm'.outQueues = dm.outQueues
  setConsumer_done : ∀ capacity appId dm', dm.setConsumerIn capacity appId = (dm', true) →
    SideKept appId dm.outQueuesIds dm'.outQueuesIds dm.outQueues dm'.outQueues ∧
      dm'.inQueuesIds = dm.inQueuesIds ∧ dm'.inQueues = dm.inQueues
  remFeeder_done : ∀ appId dm', dm.remFeeder appId = (dm', true) →
    SideKept appId dm.inQueuesIds dm'.inQueuesIds dm.inQueues dm'.inQueues ∧
      dm'.outQueuesIds = dm.outQueuesIds ∧ dm'.outQueues = dm.outQueues

theorem setFeederIn_cases (capacity : Nat) (dm : DataManager T) (appId : String) :
    dm.setFeederIn capacity appId = (dm, false) ∨
      ∃ ids queues, SideKept appId dm.inQueuesIds ids dm.inQueues queues ∧
        dm.setFeederIn capacity appId =
          ({ dm with inQueuesIds := ids, inQueues := queues }, true) := by
  rw [setFeederIn_eq, setFeeder]
  cases hr : register dm.maxNbInQueues dm.inQueuesIds dm.inQueues appId with
  | none => exact .inl rfl
  | some r => exact .inr ⟨r.1, r.2, register_kept hr, rfl⟩

theorem setConsumerIn_cases (capacity : Nat) (dm : DataManager T) (appId : String) :
    dm.setConsumerIn capacity appId = (dm, false) ∨
      ∃ ids queues, SideKept appId dm.outQueuesIds ids dm.outQueues queues ∧
        dm.setConsumerIn capacity appId =
          ({ dm with outQueuesIds := ids, outQueues := queues }, true) := by
  rw [setConsumerIn_eq, setConsumer]
  cases hr : register dm.maxNbOutQueues dm.outQueuesIds dm.outQueues appId with
  | none => exact .inl rfl
  | some r => exact .inr ⟨r.1, r.2, register_kept hr, rfl⟩

theorem remFeeder_cases (dm : DataManager T) (appId : String) :
    dm.remFeeder appId = (dm, false) ∨
      dm.remFeeder appId = ({ dm with inQueuesIds := dm.inQueuesIds.erase appId }, true) := by
  unfold remFeeder
  split
  · exact .inr rfl
  · exact .inl rfl

/-- Where every index is an index of its vector, no call does half of its work. -/
theorem InRange.atomic {dm : DataManager T} (h : InRange dm) : Atomic dm where
  setFeeder_failed := fun capacity appId hf => by
    rcases dm.setFeederIn_cases capacity appId with he | ⟨_, _, _, he⟩
    · rw [he]
    · rw [he] at hf
      cases hf
  setConsumer_failed := fun capacity appId hf => by
    rcases dm.setConsumerIn_cases capacity appId with he | ⟨_, _, _, he⟩
    · rw [he]
    · rw [he] at hf
      cases hf
  remFeeder_failed := fun appId hf => by
    rcases dm.remFeeder_cases appId with he | he
    · rw [he]
    · rw [he] at hf
      cases hf
  pop_failed := fun popId data => by
    obtain ⟨dm', data', b, hp⟩ := h.pop_exists popId data
    refine ⟨dm', data', b, hp, fun hb => ?_⟩
    rcases pop_cases hp with ⟨rfl, rfl, _⟩ | ⟨_, _, _, _, _, _, _, rfl⟩
    · exact ⟨rfl, rfl⟩
    · cases hb
  push_unknown := fun data pushId hn => by
    rw [push, AList.lookup_eq_none.mpr hn]
  setFeeder_done := fun capacity appId dm' hd => by
    rcases dm.setFeederIn_cases capacity appId with he | ⟨ids, queues, hkept, he⟩
    · cases he.symm.trans hd
    · cases he.symm.trans hd
      exact ⟨hkept, rfl, rfl⟩
  setConsumer_done := fun capacity appId dm' hd => by
    rcases dm.setConsumerIn_cases capacity appId with he | ⟨ids, queues, hkept, he⟩
    · cases he.symm.trans hd
    · cases he.symm.trans hd
      exact ⟨hkept, rfl, rfl⟩
  remFeeder_done := fun appId dm' hd => by
    rcases dm.remFeeder_cases appId with he | he
    · cases he.symm.trans hd
    · cases he.symm.trans hd
      exact ⟨erase_kept dm.inQueuesIds dm.inQueues appId, rfl, rfl⟩

/-- Whatever the history of calls, the next call fails and changes nothing, or leaves alone what
it is not about. -/
theorem calls_atomic (conf : DataManagerConf) (ops : List (Op T)) :
    ∃ dm, Machine.run step (new conf) ops = some dm ∧ Atomic dm := by
  obtain ⟨dm, hdm, hr⟩ := run_inRange conf ops
  exact ⟨dm, hdm, hr.atomic⟩

end DataManager

end DataPipeline
