import DataPipeline.Manager.Table
import DataPipeline.Manager.Registry
import DataPipeline.Topology.Frames
import Mathlib.Tactic.SplitIfs

/-!
# Which accepted topologies are wired

An accepted topology has built every node of both proxies, first the output side and
then the input side, and every constructor has had its chance to register. So the
registry is what the names of the constructors that register fill it with, in that
order, and whether each node has a queue for itself is a question about these names.
`parseConf` does not ask it.
-/

namespace DataPipeline

open Slots (admitAll distinctCount)

/-- The nodes whose `run` pushes under their name. -/
def ProxyType.pushes : ProxyType → Bool
  | .TCPS | .UDPRX => true
  | _ => false

/-- The nodes whose `run` pops under their name. -/
def ProxyType.pops : ProxyType → Bool
  | .CONSUMER | .UDPTX => true
  | _ => false

/-- The names of the nodes of some types. -/
def namesOf (P : ProxyType → Bool) (nodes : List ProxyNode) : List String :=
  (nodes.filter fun n => P n.type).map ProxyNode.name

/-- How many of the nodes that ask for a queue find queue `q`. -/
def usersOf (P : ProxyType → Bool) (ids : Slots String) (q : Nat) (nodes : List ProxyNode) : Nat :=
  nodes.countP fun n => P n.type && ids.lookup n.name == some q

/-- A node has a queue, and it is the only user of that queue. -/
def HasOwnQueue (P : ProxyType → Bool) (ids : Slots String) (queues : Nat)
    (nodes : List ProxyNode) (n : ProxyNode) : Prop :=
  ∃ q, ids.lookup n.name = some q ∧ q < queues ∧ usersOf P ids q nodes = 1

/-- Every input node that pushes and every output node that pops has a queue of its own. -/
def World.Wired (w : World) : Prop :=
  ∃ dm, w.manager = some dm ∧
    (∀ n ∈ w.nodes "in", n.type.pushes →
      HasOwnQueue ProxyType.pushes dm.inQueuesIds dm.inQueues.length
        (w.nodes "out" ++ w.nodes "in") n) ∧
    (∀ n ∈ w.nodes "out", n.type.pops →
      HasOwnQueue ProxyType.pops dm.outQueuesIds dm.outQueues.length
        (w.nodes "out" ++ w.nodes "in") n)

/-! ### What an accepted topology has built -/

/-- The entry that a node was built from. -/
def Describes (entry : PTree) (n : ProxyNode) : Prop :=
  ∃ typeName, entry.getOptional ["type"] = some typeName ∧
    getProxyType typeName = .ok n.type ∧ entry.getOptional ["name"] = some n.name

/-- The same with the port, as `addNode` takes it. -/
def BuiltFrom (env : Env) (entry : PTree) (n : ProxyNode) : Prop :=
  Describes entry n ∧
    ((entry.getOptional ["port"]).bind env.toInt).map UInt16.ofInt = some n.port

/-- What the constructor of a node does to the manager, whatever its socket does. -/
def registerNode (dm : DataManager String) (n : ProxyNode) : DataManager String :=
  (constructNode n.type n.name .ok dm).2

theorem constructNode_snd (type : ProxyType) (name : String) (o : SocketOutcome)
    (dm : DataManager String) :
    (constructNode type name o dm).2 = (constructNode type name .ok dm).2 := by
  cases type <;> rfl

/-- `w` has the manager `dm` and, in one direction, a proxy that works on it. -/
structure Building (direction : String) (w : World) (dm : DataManager String)
    (nodes : List ProxyNode) : Prop where
  manager : w.manager = some dm
  proxy : w.framework.proxy direction = some ⟨w.framework.dataManager, nodes⟩

/-- What building in one direction leaves alone. -/
structure Kept (direction : String) (w w' : World) : Prop where
  dataManager : w'.framework.dataManager = w.framework.dataManager
  outProxy : direction = "in" → w'.framework.outProxy = w.framework.outProxy

theorem DataFramework.proxy_setProxy (fw : DataFramework) (direction : String) (p : Proxy) :
    (fw.setProxy direction p).proxy direction = some p := by
  unfold setProxy proxy
  split <;> rfl

theorem DataFramework.setProxy_dataManager (fw : DataFramework) (direction : String) (p : Proxy) :
    (fw.setProxy direction p).dataManager = fw.dataManager := by
  unfold setProxy
  split <;> rfl

theorem DataFramework.setProxy_outProxy (fw : DataFramework) {direction : String} (p : Proxy)
    (h : direction = "in") : (fw.setProxy direction p).outProxy = fw.outProxy := by
  rw [setProxy, if_pos h]

/-- The manager is reached through the framework's pointer. -/
theorem World.manager_congr {w w' : World} (hp : w'.process = w.process)
    (hf : w'.framework.dataManager = w.framework.dataManager) : w'.manager = w.manager := by
  rw [manager, manager, hp, hf]

theorem addNode_eq_ok {direction : String} {type : ProxyType} {port : UInt16} {name : String}
    {o : SocketOutcome} {w w' : World} {r : Bool} {dm : DataManager String}
    {nodes : List ProxyNode} (h : addNode direction type port name o w = some (.ok r, w'))
    (hb : Building direction w dm nodes) :
    Kept direction w w' ∧
      Building direction w' (registerNode dm ⟨type, port, name⟩)
        (nodes ++ [⟨type, port, name⟩]) := by
  replace h := Conf.framework_bind h
  rw [hb.proxy] at h
  obtain ⟨_, v, hm, h⟩ := Conf.bind_eq_ok h
  obtain ⟨-, hdm, hfv⟩ := Conf.withManager_eq_ok hb.manager hm
  obtain ⟨_, u, hu, h⟩ := Conf.bind_eq_ok h
  obtain ⟨hpu, hfu⟩ := Conf.modifyFramework_eq_ok hu
  obtain ⟨-, rfl⟩ := Conf.pure_eq_ok h
  rw [hfv] at hfu
  have hkept : u.framework.dataManager = w.framework.dataManager := by
    rw [hfu, DataFramework.setProxy_dataManager]
  refine ⟨⟨hkept, fun hd => by rw [hfu, DataFramework.setProxy_outProxy _ _ hd]⟩, ?_, ?_⟩
  · rw [World.manager_congr hpu (hkept.trans (congrArg _ hfv.symm)), hdm, constructNode_snd]
    rfl
  · rw [hfu, DataFramework.proxy_setProxy, DataFramework.setProxy_dataManager]

theorem Kept.trans {direction : String} {u v w : World} (h : Kept direction u v)
    (h' : Kept direction v w) : Kept direction u w where
  dataManager := h'.dataManager.trans h.dataManager
  outProxy := fun hd => (h'.outProxy hd).trans (h.outProxy hd)

/-- Each entry yields one node, in order, and each node has registered. -/
theorem addEntries_eq_ok {env : Env} {direction : String} {entries : List PTree} {i : Nat}
    {w w' : World} {r : Bool} {dm : DataManager String} {nodes : List ProxyNode}
    (h : addEntries env direction entries i w = some (.ok r, w'))
    (hb : Building direction w dm nodes) :
    ∃ added, List.Forall₂ (BuiltFrom env) entries added ∧ Kept direction w w' ∧
      Building direction w' (added.foldl registerNode dm) (nodes ++ added) := by
  induction entries generalizing i w r dm nodes with
  | nil =>
    obtain ⟨-, rfl⟩ := Conf.pure_eq_ok h
    exact ⟨[], .nil, ⟨rfl, fun _ => rfl⟩, by rwa [List.append_nil]⟩
  | cons entry rest ih =>
    obtain ⟨typeName, u, ht, h⟩ := Conf.bind_eq_ok h
    obtain ⟨htype, rfl⟩ := Conf.ofOption_eq_ok ht
    obtain ⟨type, u, ht, h⟩ := Conf.bind_eq_ok h
    obtain ⟨hget, rfl⟩ := Conf.ofExcept_eq_ok ht
    obtain ⟨name, u, hn, h⟩ := Conf.bind_eq_ok h
    obtain ⟨hname, rfl⟩ := Conf.ofOption_eq_ok hn
    obtain ⟨portText, u, hp, h⟩ := Conf.bind_eq_ok h
    obtain ⟨htext, rfl⟩ := Conf.ofOption_eq_ok hp
    obtain ⟨port, u, hp, h⟩ := Conf.bind_eq_ok h
    obtain ⟨hport, rfl⟩ := Conf.ofOption_eq_ok hp
    obtain ⟨b, u, ha, h⟩ := Conf.bind_eq_ok h
    obtain ⟨hkept, hbuilding⟩ := addNode_eq_ok ha hb
    obtain ⟨b', v, hrest, h⟩ := Conf.bind_eq_ok h
    obtain ⟨-, rfl⟩ := Conf.pure_eq_ok h
    obtain ⟨added, hdesc, hkept', hbuilding'⟩ := ih hrest hbuilding
    refine ⟨⟨type, UInt16.ofInt port, name⟩ :: added,
      .cons ⟨⟨typeName, htype, hget, hname⟩, ?_⟩ hdesc, hkept.trans hkept', ?_⟩
    · rw [htext, Option.bind_some, hport, Option.map_some]
    · rwa [List.append_assoc] at hbuilding'

/-- One direction of an accepted topology. -/
theorem instantiateProxy_eq_ok {env : Env} {tree : PTree} {direction : String} {w w' : World}
    {dm : DataManager String} (hm : w.manager = some dm)
    (h : instantiateProxy env tree direction w = some (.ok true, w')) :
    ∃ nodes, List.Forall₂ (BuiltFrom env) (tree.entries (direction ++ "Proxy")) nodes ∧
      Kept direction w w' ∧ Building direction w' (nodes.foldl registerNode dm) nodes := by
  unfold instantiateProxy at h
  split at h
  · obtain ⟨hf, -⟩ := Conf.pure_eq_ok h
    cases hf
  replace h := Conf.framework_bind h
  obtain ⟨_, v, hv, h⟩ := Conf.bind_eq_ok h
  obtain ⟨-, hdm, hfv⟩ := Conf.withManager_eq_ok hm hv
  cases hsec : tree.getChildOptional [direction ++ "Proxy"] with
  | none =>
    rw [hsec] at h
    obtain ⟨hf, -⟩ := Conf.pure_eq_ok h
    cases hf
  | some _ =>
    rw [hsec] at h
    obtain ⟨_, u, hu, h⟩ := Conf.bind_eq_ok h
    obtain ⟨hpu, hfu⟩ := Conf.modifyFramework_eq_ok hu
    rw [hfv] at hfu
    have hdata : u.framework.dataManager = w.framework.dataManager := by
      rw [hfu, DataFramework.setProxy_dataManager]
    have hkept : Kept direction w u :=
      ⟨hdata, fun hd => by rw [hfu, DataFramework.setProxy_outProxy _ _ hd]⟩
    have hb : Building direction u dm [] := by
      refine ⟨?_, ?_⟩
      · rw [World.manager_congr hpu (hdata.trans (congrArg _ hfv.symm)), hdm]
      · rw [hfu, DataFramework.proxy_setProxy, DataFramework.setProxy_dataManager]
    obtain ⟨nodes, hdesc, hkept', hbuilding⟩ := addEntries_eq_ok h hb
    exact ⟨nodes, hdesc, hkept.trans hkept', hbuilding⟩

/-- The building of a proxy works on a live manager. -/
theorem instantiateProxy_manager {env : Env} {tree : PTree} {direction : String}
    (hd : direction = "in" ∨ direction = "out") {w w' : World} {r : Except Thrown Bool}
    (h : instantiateProxy env tree direction w = some (r, w')) : ∃ dm, w.manager = some dm := by
  rw [instantiateProxy, if_neg fun hne => hd.elim hne.1 hne.2] at h
  replace h := Conf.framework_bind h
  have hlive : ∀ {r' : Except Thrown String} {v : World},
      Conf.withManager w.framework.dataManager (fun dm => (.ok dm.name, dm)) w = some (r', v) →
        ∃ dm, w.manager = some dm := by
    intro r' v hv
    obtain ⟨a, dm, ha, hdm, -, -⟩ := Conf.withManager_cases hv
    exact ⟨dm, by rw [World.manager, ha, Option.bind_some, hdm, Option.join_some]⟩
  rcases Conf.bind_cases h with ⟨_, _, hv⟩ | ⟨_, v, hv, _⟩
  · exact hlive hv
  · exact hlive hv

theorem setDataManagerConf_eq_ok {tree : PTree} {u : Unit} {w w' : World}
    (h : setDataManagerConf tree w = some (.ok u, w')) :
    w'.process = w.process ∧ w'.framework.dataManagerConf.maxFeeders = 8 ∧
      w'.framework.dataManagerConf.maxConsumers = 8 := by
  obtain ⟨_, v, hv, h⟩ := Conf.bind_eq_ok h
  obtain ⟨-, rfl⟩ := Conf.ofOption_eq_ok hv
  obtain ⟨_, v, hv, h⟩ := Conf.bind_eq_ok h
  obtain ⟨-, rfl⟩ := Conf.ofOption_eq_ok hv
  obtain ⟨_, v, hv, h⟩ := Conf.bind_eq_ok h
  obtain ⟨hpv, -⟩ := Conf.modifyFramework_eq_ok hv
  obtain ⟨_, x, hx, h⟩ := Conf.bind_eq_ok h
  obtain ⟨-, rfl⟩ := Conf.ofExcept_eq_ok hx
  obtain ⟨hp, hf⟩ := Conf.modifyFramework_eq_ok h
  rw [hf]
  exact ⟨hp.trans hpv, rfl, rfl⟩

/-- The first manager of the process is a new one. -/
theorem instantiateDataManager_eq_ok {tree : PTree} {b : Bool} {w w' : World}
    (hw : w.process = World.fresh.process)
    (h : instantiateDataManager tree w = some (.ok b, w')) :
    ∃ conf : DataManagerConf, conf.maxFeeders = 8 ∧ conf.maxConsumers = 8 ∧
      w'.manager = some (.new conf) := by
  obtain ⟨_, v, hv, h⟩ := Conf.bind_eq_ok h
  obtain ⟨hpv, hfeeders, hconsumers⟩ := setDataManagerConf_eq_ok hv
  replace h := Conf.framework_bind h
  obtain ⟨p, x, hx, h⟩ := Conf.bind_eq_ok h
  simp only [getInstance, hpv, hw, World.fresh, List.length_nil, List.nil_append,
    Option.some.injEq, Prod.mk.injEq, Except.ok.injEq] at hx
  obtain ⟨rfl, rfl⟩ := hx
  obtain ⟨_, y, hy, h⟩ := Conf.bind_eq_ok h
  obtain ⟨hpy, hfy⟩ := Conf.modifyFramework_eq_ok hy
  obtain ⟨-, rfl⟩ := Conf.pure_eq_ok h
  refine ⟨_, hfeeders, hconsumers, ?_⟩
  rw [World.manager, hfy, Option.bind_some, hpy]
  rfl

/-- The parts of a construction that goes through. -/
theorem parseConf_steps {env : Env} {tree : PTree} {w w' : World}
    (h : parseConf env (some tree) w = some (true, w')) :
    ∃ u v z, instantiateThreadPool env tree w = some (.ok true, u) ∧
      instantiateDataManager tree u = some (.ok true, v) ∧
      instantiateProxy env tree "out" v = some (.ok true, z) ∧
      instantiateProxy env tree "in" z = some (.ok true, w') := by
  cases parseConf_parsed h with
  | input hpool hdm hout hin hb =>
    obtain rfl := hb.mp rfl
    exact ⟨_, _, _, hpool, hdm, hout, hin⟩

/-- Both proxies of an accepted topology, on the manager that was there before. -/
theorem proxies_built {env : Env} {tree : PTree} {v z w : World} {dm : DataManager String}
    (hdm : v.manager = some dm) (hz : instantiateProxy env tree "out" v = some (.ok true, z))
    (hw : instantiateProxy env tree "in" z = some (.ok true, w)) :
    List.Forall₂ (BuiltFrom env) (tree.entries "outProxy") (w.nodes "out") ∧
      List.Forall₂ (BuiltFrom env) (tree.entries "inProxy") (w.nodes "in") ∧
      w.manager = some ((w.nodes "out" ++ w.nodes "in").foldl registerNode dm) := by
  obtain ⟨outNodes, hout, -, hbout⟩ := instantiateProxy_eq_ok hdm hz
  obtain ⟨inNodes, hin, hkept, hbin⟩ := instantiateProxy_eq_ok hbout.manager hw
  have hproxy : z.framework.outProxy = some ⟨z.framework.dataManager, outNodes⟩ := hbout.proxy
  have houtNodes : w.nodes "out" = outNodes := by
    have hp : w.framework.proxy "out" = some ⟨z.framework.dataManager, outNodes⟩ :=
      (hkept.outProxy rfl).trans hproxy
    rw [World.nodes, hp]
    rfl
  have hinNodes : w.nodes "in" = inNodes := by
    rw [World.nodes, hbin.proxy]
    rfl
  rw [houtNodes, hinNodes]
  refine ⟨hout, hin, ?_⟩
  rw [hbin.manager, List.foldl_append]

/-- What the first framework of the process has built when its topology is accepted. -/
theorem parseConf_eq_true {env : Env} {tree : PTree} {w : World}
    (h : parseConf env (some tree) World.fresh = some (true, w)) :
    ∃ conf : DataManagerConf, conf.maxFeeders = 8 ∧ conf.maxConsumers = 8 ∧
      List.Forall₂ Describes (tree.entries "outProxy") (w.nodes "out") ∧
      List.Forall₂ Describes (tree.entries "inProxy") (w.nodes "in") ∧
      w.manager = some ((w.nodes "out" ++ w.nodes "in").foldl registerNode (.new conf)) := by
  obtain ⟨u, v, z, hu, hv, hz, hw⟩ := parseConf_steps h
  have hpu : u.process = World.fresh.process := by
    cases hu
    rfl
  obtain ⟨conf, hfeeders, hconsumers, hdm⟩ := instantiateDataManager_eq_ok hpu hv
  obtain ⟨hout, hin, hdm'⟩ := proxies_built hdm hz hw
  exact ⟨conf, hfeeders, hconsumers, hout.imp fun _ _ hb => hb.1, hin.imp fun _ _ hb => hb.1, hdm'⟩

/-! ### What the registry is filled with -/

/-- The nodes whose constructor calls `setConsumer`. -/
def ProxyType.consumes : ProxyType → Bool
  | .CONSUMER => true
  | _ => false

/-- The registry of a new manager after some constructors. -/
structure RegistryOf (conf : DataManagerConf) (nodes : List ProxyNode) (dm : DataManager String) :
    Prop where
  feeders : dm.inQueuesIds =
    admitAll conf.maxFeeders.toNat "empty" (namesOf ProxyType.pushes nodes)
  consumers : dm.outQueuesIds =
    admitAll conf.maxConsumers.toNat "empty" (namesOf ProxyType.consumes nodes)
  maxNbInQueues : dm.maxNbInQueues = conf.maxFeeders
  maxNbOutQueues : dm.maxNbOutQueues = conf.maxConsumers
  registered : dm.Registered

theorem namesOf_concat (P : ProxyType → Bool) (nodes : List ProxyNode) (n : ProxyNode) :
    namesOf P (nodes ++ [n]) = namesOf P nodes ++ if P n.type then [n.name] else [] := by
  unfold namesOf
  rw [List.filter_append, List.map_append, List.filter_singleton]
  cases P n.type <;> rfl

theorem RegistryOf.setFeeder {conf : DataManagerConf} {nodes : List ProxyNode}
    {dm : DataManager String} (h : RegistryOf conf nodes dm) {n : ProxyNode}
    (hp : n.type.pushes = true) (hc : n.type.consumes = false) :
    RegistryOf conf (nodes ++ [n]) (dm.setFeeder n.name).1 := by
  obtain ⟨hin, hmax, hout, hmaxo⟩ := dm.setFeeder_eq_admitOne n.name
  refine ⟨?_, ?_, hmax.trans h.maxNbInQueues, hmaxo.trans h.maxNbOutQueues,
    h.registered.setFeeder n.name⟩
  · rw [hin, namesOf_concat, hp, if_pos rfl, Slots.admitAll_concat, h.feeders, h.maxNbInQueues]
  · rw [hout, namesOf_concat, hc, if_neg Bool.false_ne_true, List.append_nil, h.consumers]

theorem RegistryOf.setConsumer {conf : DataManagerConf} {nodes : List ProxyNode}
    {dm : DataManager String} (h : RegistryOf conf nodes dm) {n : ProxyNode}
    (hp : n.type.pushes = false) (hc : n.type.consumes = true) :
    RegistryOf conf (nodes ++ [n]) (dm.setConsumer n.name).1 := by
  obtain ⟨hout, hmaxo, hin, hmax⟩ := dm.setConsumer_eq_admitOne n.name
  refine ⟨?_, ?_, hmax.trans h.maxNbInQueues, hmaxo.trans h.maxNbOutQueues,
    h.registered.setConsumer n.name⟩
  · rw [hin, namesOf_concat, hp, if_neg Bool.false_ne_true, List.append_nil, h.feeders]
  · rw [hout, namesOf_concat, hc, if_pos rfl, Slots.admitAll_concat, h.consumers, h.maxNbOutQueues]

theorem RegistryOf.skip {conf : DataManagerConf} {nodes : List ProxyNode}
    {dm : DataManager String} (h : RegistryOf conf nodes dm) {n : ProxyNode}
    (hp : n.type.pushes = false) (hc : n.type.consumes = false) :
    RegistryOf conf (nodes ++ [n]) dm := by
  refine ⟨?_, ?_, h.maxNbInQueues, h.maxNbOutQueues, h.registered⟩
  · rw [namesOf_concat, hp, if_neg Bool.false_ne_true, List.append_nil, h.feeders]
  · rw [namesOf_concat, hc, if_neg Bool.false_ne_true, List.append_nil, h.consumers]

/-- The registry is what the names of the registering nodes fill it with. -/
theorem registryOf_foldl (conf : DataManagerConf) (nodes : List ProxyNode) :
    RegistryOf conf nodes (nodes.foldl registerNode (.new conf)) := by
  induction nodes using List.reverseRecOn with
  | nil => exact ⟨rfl, rfl, rfl, rfl, DataManager.registered_new conf⟩
  | append_singleton nodes n ih =>
    rw [List.foldl_append, List.foldl_cons, List.foldl_nil]
    obtain ⟨type, port, name⟩ := n
    cases type with
    | TCPS | UDPRX => exact ih.setFeeder rfl rfl
    | CONSUMER => exact ih.setConsumer rfl rfl
    | TCPC | UDPTX | CUSTOM | UNKNOWN => exact ih.skip rfl rfl

/-! ### Counting the users of a queue -/

/-- On distinct queues the users of a node's queue are the nodes of its name. -/
theorem usersOf_eq_count {P : ProxyType → Bool} {ids : Slots String} (hd : ids.Distinct)
    {name : String} {q : Nat} (hq : ids.lookup name = some q) (nodes : List ProxyNode) :
    usersOf P ids q nodes = (namesOf P nodes).count name := by
  have hiff : ∀ m : ProxyNode, (ids.lookup m.name == some q) = (m.name == name) := by
    intro m
    rw [Bool.eq_iff_iff, beq_iff_eq, beq_iff_eq]
    exact ⟨fun hm => hd m.name name q hm hq, fun he => he ▸ hq⟩
  unfold usersOf namesOf
  rw [List.count_eq_countP, List.countP_map, List.countP_filter]
  apply List.countP_congr
  intro m _
  rw [hiff m, Bool.and_comm]
  rfl

theorem hasOwnQueue_iff {P : ProxyType → Bool} {ids : Slots String} {queues : List (Q String)}
    (h : DataManager.Fresh ids queues) (nodes : List ProxyNode) (n : ProxyNode) :
    HasOwnQueue P ids queues.length nodes n ↔
      n.name ∈ ids ∧ (namesOf P nodes).count n.name = 1 := by
  constructor
  · rintro ⟨q, hq, -, hone⟩
    exact ⟨Slots.mem_of_lookup hq, usersOf_eq_count h.distinct hq nodes ▸ hone⟩
  · rintro ⟨hm, hone⟩
    obtain ⟨q, hq⟩ := Slots.exists_lookup_of_mem hm
    exact ⟨q, hq, h.below n.name q hq, (usersOf_eq_count h.distinct hq nodes).trans hone⟩

/-- All nodes of a section have queues of their own: a statement about their names. -/
theorem forall_hasOwnQueue_iff {P : ProxyType → Bool} {ids : Slots String}
    {queues : List (Q String)} (h : DataManager.Fresh ids queues) (part nodes : List ProxyNode) :
    (∀ n ∈ part, P n.type → HasOwnQueue P ids queues.length nodes n) ↔
      ∀ a ∈ namesOf P part, a ∈ ids ∧ (namesOf P nodes).count a = 1 := by
  simp only [hasOwnQueue_iff h, namesOf, List.mem_map, List.mem_filter]
  constructor
  · rintro hall a ⟨n, ⟨hn, hP⟩, rfl⟩
    exact hall n hn hP
  · exact fun hall n hn hP => hall n.name ⟨n, ⟨hn, hP⟩, rfl⟩

theorem namesOf_append (P : ProxyType → Bool) (nodes nodes' : List ProxyNode) :
    namesOf P (nodes ++ nodes') = namesOf P nodes ++ namesOf P nodes' := by
  rw [namesOf, List.filter_append, List.map_append]
  rfl

/-! ### The condition on the topology -/

/-- The types of entry whose constructor calls `setFeeder`. -/
def feederTypes : List String := ["TCP_Server", "UDP_Rx"]

/-- The types of entry whose node pops. -/
def popperTypes : List String := ["CONSUMER", "UDP_Tx"]

/-- The topologies that wire their nodes. No output entry is a `UDP_Tx`; a name that has
to have a queue is given to one entry that asks for it; and there is room: of the feeders
the input ones come last, of the consumers the output ones come first, and the name
"empty" gives its place away to the first name that finds the table full. -/
structure Wireable (tree : PTree) : Prop where
  noClient : tree.named "outProxy" ["UDP_Tx"] = []
  feedersOnce : ∀ n ∈ tree.named "inProxy" feederTypes,
    (tree.named "outProxy" feederTypes ++ tree.named "inProxy" feederTypes).count n = 1
  feedersFit : tree.named "inProxy" feederTypes = [] ∨
    distinctCount (tree.named "outProxy" feederTypes ++ tree.named "inProxy" feederTypes) ≤ 8 ∨
      (distinctCount (tree.named "outProxy" feederTypes ++ tree.named "inProxy" feederTypes) = 9 ∧
        "empty" ∈ tree.named "outProxy" feederTypes)
  consumersOnce : ∀ n ∈ tree.named "outProxy" ["CONSUMER"],
    (tree.named "outProxy" popperTypes ++ tree.named "inProxy" popperTypes).count n = 1
  consumersFit : (tree.named "outProxy" ["CONSUMER"]).length ≤ 8 ∧
    ("empty" ∈ tree.named "outProxy" ["CONSUMER"] →
      distinctCount (tree.named "outProxy" ["CONSUMER"] ++
        tree.named "inProxy" ["CONSUMER"]) ≤ 8)

instance (tree : PTree) : Decidable (Wireable tree) :=
  decidable_of_iff (_ ∧ _ ∧ _ ∧ _ ∧ _)
    ⟨fun h => ⟨h.1, h.2.1, h.2.2.1, h.2.2.2.1, h.2.2.2.2⟩,
      fun h => ⟨h.noClient, h.feedersOnce, h.feedersFit, h.consumersOnce, h.consumersFit⟩⟩

/-- The names an accepted section gives to entries of some types are the names of the nodes
of the matching types. -/
theorem named_eq_namesOf {tree : PTree} {section_ : String} {nodes : List ProxyNode}
    {types : List String} {P : ProxyType → Bool}
    (hP : ∀ t type, getProxyType t = .ok type → (t ∈ types ↔ P type))
    (h : List.Forall₂ Describes (tree.entries section_) nodes) :
    tree.named section_ types = namesOf P nodes := by
  unfold PTree.named namesOf
  generalize tree.entries section_ = entries at h
  induction h with
  | nil => rfl
  | cons hd _ ih =>
    obtain ⟨t, ht, htype, hname⟩ := hd
    rw [List.filterMap_cons, ih, List.filter_cons, ht]
    by_cases hmem : t ∈ types
    · simp only [hmem, ite_true, hname, (hP t _ htype).mp hmem, List.map_cons]
    · simp only [hmem, ite_false, mt (hP t _ htype).mpr hmem, Bool.false_eq_true]

theorem getProxyType_eq_ok {t : String} {type : ProxyType} (h : getProxyType t = .ok type) :
    (t = "TCP_Server" ∧ type = .TCPS) ∨ (t = "UDP_Rx" ∧ type = .UDPRX) ∨
      (t = "UDP_Tx" ∧ type = .UDPTX) ∨ (t = "CUSTOM" ∧ type = .CUSTOM) ∨
      (t = "CONSUMER" ∧ type = .CONSUMER) := by
  unfold getProxyType at h
  split_ifs at h with h1 h2 h3 h4 h5 <;> cases h
  · exact Or.inl ⟨h1, rfl⟩
  · exact Or.inr (Or.inl ⟨h2, rfl⟩)
  · exact Or.inr (Or.inr (Or.inl ⟨h3, rfl⟩))
  · exact Or.inr (Or.inr (Or.inr (Or.inl ⟨h4, rfl⟩)))
  · exact Or.inr (Or.inr (Or.inr (Or.inr ⟨h5, rfl⟩)))

/-- The nodes that send datagrams. -/
def ProxyType.sends : ProxyType → Bool
  | .UDPTX => true
  | _ => false

theorem mem_feederTypes (t : String) (type : ProxyType) (h : getProxyType t = .ok type) :
    t ∈ feederTypes ↔ type.pushes := by
  obtain ⟨rfl, rfl⟩ | ⟨rfl, rfl⟩ | ⟨rfl, rfl⟩ | ⟨rfl, rfl⟩ | ⟨rfl, rfl⟩ :=
    getProxyType_eq_ok h <;> decide

theorem mem_popperTypes (t : String) (type : ProxyType) (h : getProxyType t = .ok type) :
    t ∈ popperTypes ↔ type.pops := by
  obtain ⟨rfl, rfl⟩ | ⟨rfl, rfl⟩ | ⟨rfl, rfl⟩ | ⟨rfl, rfl⟩ | ⟨rfl, rfl⟩ :=
    getProxyType_eq_ok h <;> decide

theorem mem_consumer (t : String) (type : ProxyType) (h : getProxyType t = .ok type) :
    t ∈ ["CONSUMER"] ↔ type.consumes := by
  obtain ⟨rfl, rfl⟩ | ⟨rfl, rfl⟩ | ⟨rfl, rfl⟩ | ⟨rfl, rfl⟩ | ⟨rfl, rfl⟩ :=
    getProxyType_eq_ok h <;> decide

theorem mem_client (t : String) (type : ProxyType) (h : getProxyType t = .ok type) :
    t ∈ ["UDP_Tx"] ↔ type.sends := by
  obtain ⟨rfl, rfl⟩ | ⟨rfl, rfl⟩ | ⟨rfl, rfl⟩ | ⟨rfl, rfl⟩ | ⟨rfl, rfl⟩ :=
    getProxyType_eq_ok h <;> decide

/-- A node that pops is a consumer or a client. -/
theorem count_namesOf_pops (nodes : List ProxyNode) (a : String) :
    (namesOf ProxyType.pops nodes).count a =
      (namesOf ProxyType.consumes nodes).count a + (namesOf ProxyType.sends nodes).count a := by
  induction nodes using List.reverseRecOn with
  | nil => rfl
  | append_singleton nodes n ih =>
    simp only [namesOf_concat, List.count_append, ih]
    obtain ⟨type, port, name⟩ := n
    cases type <;>
      simp only [ProxyType.pops, ProxyType.consumes, ProxyType.sends, ite_true, ite_false,
        Bool.false_eq_true, List.count_nil] <;> omega

/-- The feeders of the input side, which register last. -/
theorem feeders_wired_iff (os is : List String) :
    (∀ n ∈ is, n ∈ admitAll 8 "empty" (os ++ is) ∧ (os ++ is).count n = 1) ↔
      (∀ n ∈ is, (os ++ is).count n = 1) ∧ (is = [] ∨ distinctCount (os ++ is) ≤ 8 ∨
        (distinctCount (os ++ is) = 9 ∧ "empty" ∈ os)) := by
  constructor
  · intro h
    have honce : ∀ n ∈ is, (os ++ is).count n = 1 := fun n hn => (h n hn).2
    refine ⟨honce, ?_⟩
    by_cases hne : is = []
    · exact Or.inl hne
    · exact Or.inr ((Slots.final_part_admitted_iff hne honce).mp fun n hn => (h n hn).1)
  · rintro ⟨honce, hnil | hfit⟩ n hn
    · rw [hnil] at hn
      exact absurd hn List.not_mem_nil
    · refine ⟨?_, honce n hn⟩
      exact (Slots.final_part_admitted_iff (List.ne_nil_of_mem hn) honce).mpr hfit n hn

/-- The nodes of the output side that pop, of which the consumers register first. -/
theorem poppers_wired_iff (outs ins : List ProxyNode) :
    (∀ n ∈ namesOf ProxyType.pops outs,
        n ∈ admitAll 8 "empty" (namesOf ProxyType.consumes outs ++
          namesOf ProxyType.consumes ins) ∧
        (namesOf ProxyType.pops outs ++ namesOf ProxyType.pops ins).count n = 1) ↔
      namesOf ProxyType.sends outs = [] ∧
        (∀ n ∈ namesOf ProxyType.consumes outs,
          (namesOf ProxyType.pops outs ++ namesOf ProxyType.pops ins).count n = 1) ∧
        (namesOf ProxyType.consumes outs).length ≤ 8 ∧
        ("empty" ∈ namesOf ProxyType.consumes outs →
          distinctCount (namesOf ProxyType.consumes outs ++
            namesOf ProxyType.consumes ins) ≤ 8) := by
  have hpops : ∀ n, n ∈ namesOf ProxyType.pops outs ↔
      n ∈ namesOf ProxyType.consumes outs ∨ n ∈ namesOf ProxyType.sends outs := by
    intro n
    rw [← List.count_pos_iff, count_namesOf_pops, ← List.count_pos_iff, ← List.count_pos_iff]
    omega
  have hcount : ∀ n ∈ namesOf ProxyType.consumes outs,
      (namesOf ProxyType.pops outs ++ namesOf ProxyType.pops ins).count n = 1 →
        (namesOf ProxyType.consumes outs ++ namesOf ProxyType.consumes ins).count n = 1 := by
    intro n hn hone
    have hpos := List.count_pos_iff.mpr hn
    rw [List.count_append, count_namesOf_pops, count_namesOf_pops] at hone
    rw [List.count_append]
    omega
  constructor
  · intro h
    have hclient : namesOf ProxyType.sends outs = [] := by
      apply List.eq_nil_iff_forall_not_mem.mpr
      intro n hn
      obtain ⟨hadm, hone⟩ := h n ((hpops n).mpr (Or.inr hn))
      have hc := List.count_pos_iff.mpr (Slots.mem_of_mem_admitAll hadm)
      have hs := List.count_pos_iff.mpr hn
      rw [List.count_append] at hc
      rw [List.count_append, count_namesOf_pops, count_namesOf_pops] at hone
      omega
    have honce : ∀ n ∈ namesOf ProxyType.consumes outs,
        (namesOf ProxyType.pops outs ++ namesOf ProxyType.pops ins).count n = 1 :=
      fun n hn => (h n ((hpops n).mpr (Or.inl hn))).2
    refine ⟨hclient, honce, ?_⟩
    apply (Slots.initial_part_admitted_iff fun n hn => hcount n hn (honce n hn)).mp
    intro n hn
    exact (h n ((hpops n).mpr (Or.inl hn))).1
  · rintro ⟨hclient, honce, hfit⟩ n hn
    have hc : n ∈ namesOf ProxyType.consumes outs := by
      rcases (hpops n).mp hn with hc | hs
      · exact hc
      · rw [hclient] at hs
        exact absurd hs List.not_mem_nil
    refine ⟨?_, honce n hc⟩
    exact (Slots.initial_part_admitted_iff fun n hn => hcount n hn (honce n hn)).mpr hfit n hc

/-- An accepted topology wires its nodes exactly when it is wireable. -/
theorem parseConf_wired_iff {env : Env} {tree : PTree} {w : World}
    (h : parseConf env (some tree) World.fresh = some (true, w)) :
    w.Wired ↔ Wireable tree := by
  obtain ⟨conf, hfeeders, hconsumers, hout, hin, hdm⟩ := parseConf_eq_true h
  have hreg := registryOf_foldl conf (w.nodes "out" ++ w.nodes "in")
  have hcapIn : conf.maxFeeders.toNat = 8 := congrArg UInt8.toNat hfeeders
  have hcapOut : conf.maxConsumers.toNat = 8 := congrArg UInt8.toNat hconsumers
  have hwired : w.Wired ↔
      (∀ n ∈ namesOf ProxyType.pushes (w.nodes "in"),
        n ∈ admitAll 8 "empty" (namesOf ProxyType.pushes (w.nodes "out") ++
          namesOf ProxyType.pushes (w.nodes "in")) ∧
        (namesOf ProxyType.pushes (w.nodes "out") ++
          namesOf ProxyType.pushes (w.nodes "in")).count n = 1) ∧
      (∀ n ∈ namesOf ProxyType.pops (w.nodes "out"),
        n ∈ admitAll 8 "empty" (namesOf ProxyType.consumes (w.nodes "out") ++
          namesOf ProxyType.consumes (w.nodes "in")) ∧
        (namesOf ProxyType.pops (w.nodes "out") ++
          namesOf ProxyType.pops (w.nodes "in")).count n = 1) := by
    simp only [World.Wired, hdm, Option.some.injEq, exists_eq_left',
      forall_hasOwnQueue_iff hreg.registered.1, forall_hasOwnQueue_iff hreg.registered.2]
    simp only [hreg.feeders, hreg.consumers, hcapIn, hcapOut, namesOf_append]
  rw [hwired, feeders_wired_iff, poppers_wired_iff, ← named_eq_namesOf mem_feederTypes hout,
    ← named_eq_namesOf mem_feederTypes hin, ← named_eq_namesOf mem_popperTypes hout,
    ← named_eq_namesOf mem_popperTypes hin, ← named_eq_namesOf mem_consumer hout,
    ← named_eq_namesOf mem_consumer hin, ← named_eq_namesOf mem_client hout]
  constructor
  · rintro ⟨⟨h1, h2⟩, h3, h4, h5⟩
    exact ⟨h3, h1, h2, h4, h5⟩
  · rintro ⟨h3, h1, h2, h4, h5⟩
    exact ⟨⟨h1, h2⟩, h3, h4, h5⟩

/-- One TCP server and one output node of a type, on four threads. -/
def oneToOne (outType : String) : PTree :=
  .node "" [
    ("dataManager", .node "" [("name", .node "dm" []), ("threadCount", .node "4" []),
      ("mode", .node "broadcast" [])]),
    ("inProxy", .node "" [("", .node "" [("type", .node "TCP_Server" []),
      ("port", .node "50000" []), ("name", .node "TcpServer1" [])])]),
    ("outProxy", .node "" [("", .node "" [("type", .node outType []),
      ("port", .node "50000" []), ("name", .node "Out1" [])])])]

/-- The surroundings in which these numbers are read and the sockets are free. -/
def Env.plain : Env where
  toInt := fun s => if s = "50000" then some 50000 else if s = "4" then some 4 else none
  socket := fun _ _ => .ok

/-- What the server and a consumer are built into. -/
theorem oneToOne_built :
    ∃ w, parseConf .plain (some (oneToOne "CONSUMER")) World.fresh = some (true, w) ∧
      w.framework.threadPool = some 4 ∧
      w.manager = some (((DataManager.new ⟨"dm", 8, 8, .BROADCAST⟩).setFeeder
        "TcpServer1").1.setConsumer "Out1").1 ∧
      w.nodes "in" = [⟨.TCPS, 50000, "TcpServer1"⟩] ∧
      w.nodes "out" = [⟨.CONSUMER, 50000, "Out1"⟩] :=
  ⟨_, rfl, rfl, rfl, rfl, rfl⟩

/-- A consumer of its own gets its queue. -/
theorem parseConf_wired_consumer :
    ∃ w, parseConf .plain (some (oneToOne "CONSUMER")) World.fresh = some (true, w) ∧
      w.Wired := by
  have hw : Wireable (oneToOne "CONSUMER") := by decide
  obtain ⟨w, h, -⟩ := oneToOne_built
  exact ⟨w, h, (parseConf_wired_iff h).mpr hw⟩

/-- A client is accepted and has no queue. -/
theorem client_accepted_unwired :
    ∃ w, parseConf .plain (some (oneToOne "UDP_Tx")) World.fresh = some (true, w) ∧
      ¬ w.Wired := by
  refine ⟨_, rfl, ?_⟩
  rintro ⟨dm, hdm, -, hout⟩
  obtain rfl := Option.some.inj hdm
  obtain ⟨q, hq, -⟩ := hout ⟨.UDPTX, 50000, "Out1"⟩ (List.mem_singleton_self _) rfl
  cases hq

end DataPipeline
