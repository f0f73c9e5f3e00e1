import DataPipeline.Topology.Wiring

/-!
# What a failed `addNode` leaves behind

A node is appended to its proxy only after its constructor has returned, so one that throws
is never in the list. The constructors of the two servers, however, register the name as a
feeder first and create their socket then, and nothing takes the name back when that fails.
The constructor of the UDP client has only the socket to create, and that of a consumer
does not throw.
-/

namespace DataPipeline

/-- `setFeeder` would take the name: it is new, and there is room for it or an entry called
"empty" to take over. -/
def DataManager.Admits (dm : DataManager String) (appId : String) : Prop :=
  appId ∉ dm.inQueuesIds ∧
    (dm.inQueuesIds.size < dm.maxNbInQueues.toNat ∨ "empty" ∈ dm.inQueuesIds)

instance (dm : DataManager String) (appId : String) : Decidable (dm.Admits appId) :=
  inferInstanceAs (Decidable (_ ∧ _))

/-- The nodes of the proxy and all managers are as before, and so is what any later call on
the proxy does. -/
structure NoTrace (direction : String) (w w' : World) : Prop where
  proxyNodeList : w'.nodes direction = w.nodes direction
  managers : w'.process.instances = w.process.instances
  later : ∀ type port name o,
    addNode direction type port name o w' = addNode direction type port name o w

/-! ### One constructor -/

theorem DataManager.mem_setFeeder {dm : DataManager String} {appId : String}
    (h : dm.Admits appId) : appId ∈ (dm.setFeeder appId).1.inQueuesIds := by
  obtain ⟨hn, hroom⟩ := h
  rw [(dm.setFeeder_eq_admitOne appId).1]
  by_cases hlt : dm.inQueuesIds.size < dm.maxNbInQueues.toNat
  · rw [Slots.admitOne_of_lt hn hlt]
    exact (AList.mem_insert _).mpr (Or.inl rfl)
  · have hempty := hroom.resolve_left hlt
    obtain ⟨f, hf⟩ := Slots.exists_lookup_of_mem hempty
    rw [Slots.admitOne_of_spare hn (Nat.le_of_not_lt hlt) hf, Slots.mem_handOver]
    exact ⟨fun he => hn (he ▸ hempty), Or.inl rfl⟩

/-- `setFeeder` changes the manager exactly if it takes the name. -/
theorem DataManager.setFeeder_eq_self_iff (dm : DataManager String) (appId : String) :
    (dm.setFeeder appId).1 = dm ↔ ¬ dm.Admits appId := by
  constructor
  · intro h hadm
    have hm := dm.mem_setFeeder hadm
    rw [h] at hm
    exact hadm.1 hm
  · intro h
    rcases dm.setFeeder_cases appId with he | ⟨hn, hlt, _⟩ | ⟨hn, _, f, hf, _⟩
    · rw [he]
    · exact absurd ⟨hn, Or.inl hlt⟩ h
    · exact absurd ⟨hn, Or.inr (Slots.mem_of_lookup hf)⟩ h

/-- A constructor that throws leaves the manager alone, unless it is that of a server whose
name was taken. -/
theorem constructNode_failed_iff {type : ProxyType} {name : String} {o : SocketOutcome}
    {dm : DataManager String} {e : Thrown} (h : (constructNode type name o dm).1 = .error e) :
    (constructNode type name o dm).2 = dm ↔ (type.pushes = true → ¬ dm.Admits name) := by
  cases type with
  | TCPS | UDPRX => exact (dm.setFeeder_eq_self_iff name).trans (by simp [ProxyType.pushes])
  | CONSUMER => cases h
  | TCPC | UDPTX | CUSTOM | UNKNOWN => exact iff_of_true rfl (by simp [ProxyType.pushes])

/-! ### The call -/

section Call

variable {direction : String} {type : ProxyType} {port : UInt16} {name : String}
  {o : SocketOutcome} {w w' : World} {e : Thrown} {p : Proxy} {a : Nat} {dm : DataManager String}

/-- A call that throws has only run the constructor. -/
theorem addNode_eq_error (hp : w.framework.proxy direction = some p)
    (ha : p.dataHandler = some a) (hdm : w.process.instances[a]? = some (some dm))
    (h : addNode direction type port name o w = some (.error e, w')) :
    (constructNode type name o dm).1 = .error e ∧
      w' = { w with process := { w.process with
        instances := w.process.instances.set a (some (constructNode type name o dm).2) } } := by
  replace h := Conf.framework_bind h
  rw [hp] at h
  rcases Conf.bind_cases h with ⟨e', he, hm⟩ | ⟨_, u, _, h⟩
  · cases he
    obtain ⟨a', dm', ha', hdm', hr, hw⟩ := Conf.withManager_cases hm
    obtain rfl := Option.some.inj (ha.symm.trans ha')
    obtain rfl := Option.some.inj (Option.some.inj (hdm.symm.trans hdm'))
    exact ⟨hr.symm, hw⟩
  · -- past the constructor nothing throws
    rcases Conf.bind_cases h with ⟨_, _, hs⟩ | ⟨_, v, _, h⟩
    · cases hs
    · cases h

/-- A call that throws leaves no trace exactly if it was not for a server whose name its
manager would take as a new feeder. -/
theorem addNode_no_trace_iff (hp : w.framework.proxy direction = some p)
    (ha : p.dataHandler = some a) (hdm : w.process.instances[a]? = some (some dm))
    (h : addNode direction type port name o w = some (.error e, w')) :
    NoTrace direction w w' ↔ (type.pushes = true → ¬ dm.Admits name) := by
  obtain ⟨hfailed, rfl⟩ := addNode_eq_error hp ha hdm h
  rw [← constructNode_failed_iff hfailed]
  obtain ⟨hlt, hget⟩ := List.getElem?_eq_some_iff.mp hdm
  constructor
  · intro hno
    have hset := congrArg (fun l => l[a]?) hno.managers
    simp only [List.getElem?_set_self hlt, hdm, Option.some.injEq] at hset
    exact hset
  · intro hsame
    rw [hsame, ← hget, List.set_getElem_self hlt]
    exact ⟨rfl, rfl, fun _ _ _ _ => rfl⟩

end Call

/-- An input proxy without nodes on a new manager. -/
def World.emptyProxy : World where
  process := ⟨[some (.new ⟨"dm", 8, 8, .BROADCAST⟩)], some 0⟩
  framework := { World.fresh.framework with dataManager := some 0, inProxy := some ⟨some 0, []⟩ }

/-- A client that gets no socket. -/
theorem addNode_no_trace_client :
    ∃ w', addNode "in" .UDPTX 50000 "Out1" (.socketFails "Too many open files") .emptyProxy =
        some (.error (.runtimeError "Too many open files"), w') ∧
      NoTrace "in" .emptyProxy w' := by
  have hfailed : ∃ w', addNode "in" .UDPTX 50000 "Out1" (.socketFails "Too many open files")
      .emptyProxy = some (.error (.runtimeError "Too many open files"), w') := ⟨_, rfl⟩
  obtain ⟨w', h⟩ := hfailed
  exact ⟨w', h, (addNode_no_trace_iff rfl rfl rfl h).mpr (by decide)⟩

/-- A server whose port is in use stays in the registry as a feeder, and the name is refused
when the server is added again. -/
theorem server_registered_without_socket :
    ∃ w' dm, addNode "in" .TCPS 50000 "TcpServer1" (.bindFails "Address already in use")
        .emptyProxy = some (.error (.runtimeError
          "Cannot bind to asked port Address already in use"), w') ∧
      w'.nodes "in" = [] ∧ w'.manager = some dm ∧
      dm.inQueuesIds.lookup "TcpServer1" = some 0 ∧ dm.inQueues = [Q.new] ∧
      (dm.setFeeder "TcpServer1").2 = false ∧ ¬ NoTrace "in" .emptyProxy w' := by
  refine ⟨_, _, rfl, rfl, rfl, rfl, rfl, rfl, fun h => ?_⟩
  have hlen := congrArg (fun l => (l[0]?.join).map fun dm => dm.inQueues.length) h.managers
  exact absurd hlen (by decide)

end DataPipeline
