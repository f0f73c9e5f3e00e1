import DataPipeline.Topology.Wiring

/-!
# Which topologies are accepted

`parseConf` never runs into undefined behaviour as long as `m_Pinstance` points to a live
manager or to none. Whether it accepts a topology is decided by the topology, by what the
numbers in it are read as and by the sockets. What other frameworks did in the process has
no part in it.
-/

namespace DataPipeline

/-- `m_Pinstance` is null or the address of a live manager. -/
def Process.Valid (process : Process) : Prop :=
  ∀ p, process.pinstance = some p → ∃ dm, process.instances[p]? = some (some dm)

/-- Whether the constructor of a node goes through. -/
def nodeBuilt (type : ProxyType) (o : SocketOutcome) : Bool :=
  (constructNode type "" o (.new ⟨"", 0, 0, .BROADCAST⟩)).1.isOk

/-- Whether an entry of a section becomes a node. -/
def entryAccepted (env : Env) (direction : String) (entry : PTree) (i : Nat) : Bool :=
  (entry.getOptional ["type"]).any fun typeName =>
    (getProxyType typeName).toOption.any fun type =>
      (entry.getOptional ["name"]).any fun _ =>
        (entry.getOptional ["port"]).any fun portText =>
          (env.toInt portText).any fun _ => nodeBuilt type (env.socket direction i)

/-- Whether all entries become nodes, from entry `i` on. -/
def entriesAccepted (env : Env) (direction : String) : List PTree → Nat → Bool
  | [], _ => true
  | entry :: rest, i =>
    entryAccepted env direction entry i && entriesAccepted env direction rest (i + 1)

/-- Whether a section is there and all its entries become nodes. -/
def sectionAccepted (env : Env) (tree : PTree) (direction : String) : Bool :=
  (tree.getChildOptional [direction ++ "Proxy"]).isSome &&
    entriesAccepted env direction (tree.entries (direction ++ "Proxy")) 0

/-- What `setDataManagerConf` makes of a topology that has all it needs. -/
def topologyConf (tree : PTree) : Option DataManagerConf := do
  let name ← tree.getOptional ["dataManager", "name"]
  let mode ← tree.getOptional ["dataManager", "mode"]
  let mode ← (stringToConf mode).toOption
  return ⟨name, 8, 8, mode⟩

/-- Whether a topology is accepted. -/
def accepted (env : Env) (tree : PTree) : Bool :=
  (topologyConf tree).isSome && sectionAccepted env tree "out" && sectionAccepted env tree "in"

/-! ### Computations that end -/

namespace Conf

variable {α β : Type} {w : World} {P Q : Prop}

/-- The computation is defined, and it returns `a` exactly if `P`. -/
def Returns (x : Conf α) (w : World) (a : α) (P : Prop) : Prop :=
  ∃ r w', x w = some (r, w') ∧ (r = .ok a ↔ P)

theorem Returns.congr {x : Conf α} {a : α} (h : Returns x w a P) (hiff : P ↔ Q) :
    Returns x w a Q := by
  obtain ⟨r, w', hx, hr⟩ := h
  exact ⟨r, w', hx, hr.trans hiff⟩

theorem returns_pure (a b : α) : Returns (pure b) w a (b = a) :=
  ⟨.ok b, w, rfl, by rw [Except.ok.injEq]⟩

theorem returns_throw (e : Thrown) (a : α) : Returns (throw e) w a False :=
  ⟨.error e, w, rfl, by simp⟩

/-- A sequence whose first part only decides whether the second one runs. -/
theorem Returns.bind {x : Conf α} {f : α → Conf β} {a : α} {b : β} (hx : Returns x w a P)
    (honly : ∀ a' u, x w = some (.ok a', u) → a' = a)
    (hf : ∀ u, x w = some (.ok a, u) → Returns (f a) u b Q) :
    Returns (x >>= f) w b (P ∧ Q) := by
  obtain ⟨r, u, hxw, hr⟩ := hx
  cases r with
  | error e =>
    refine ⟨.error e, u, by simp only [Bind.bind, hxw, Option.bind_some], ?_⟩
    have hP : ¬ P := fun hP => by cases hr.mpr hP
    simp [hP]
  | ok a' =>
    obtain rfl := honly a' u hxw
    obtain ⟨r, v, hfu, hr'⟩ := hf u hxw
    refine ⟨r, v, by simp only [Bind.bind, hxw, Option.bind_some, hfu], ?_⟩
    rw [hr', and_iff_right (hr.mp rfl)]

/-- The first part is known to go through. -/
theorem returns_bind_ok {x : Conf α} {f : α → Conf β} {a : α} {u : World} {b : β}
    (hx : x w = some (.ok a, u)) (hf : Returns (f a) u b Q) : Returns (x >>= f) w b Q := by
  obtain ⟨r, v, hfu, hr⟩ := hf
  exact ⟨r, v, by simp only [Bind.bind, hx, Option.bind_some, hfu], hr⟩

theorem returns_modifyFramework (f : DataFramework → DataFramework) :
    Returns (modifyFramework f) w () True :=
  ⟨.ok (), _, rfl, iff_of_true rfl trivial⟩

theorem returns_bind_unit {x : Conf Unit} {f : Unit → Conf β} {b : β} (hx : Returns x w () P)
    (hf : ∀ u, x w = some (.ok (), u) → Returns (f ()) u b Q) :
    Returns (x >>= f) w b (P ∧ Q) :=
  hx.bind (fun _ _ _ => rfl) hf

theorem returns_ofOption {e : Thrown} {o : Option α} {f : α → Conf β} {b : β} {P : α → Prop}
    (hf : ∀ a, o = some a → Returns (f a) w b (P a)) :
    Returns (ofOption e o >>= f) w b (∃ a, o = some a ∧ P a) := by
  cases o with
  | none => exact (returns_throw e b).congr (by simp)
  | some a => exact (hf a rfl).congr (by simp)

theorem returns_ofExcept {r : Except Thrown α} {f : α → Conf β} {b : β} {P : α → Prop}
    (hf : ∀ a, r = .ok a → Returns (f a) w b (P a)) :
    Returns (ofExcept r >>= f) w b (∃ a, r.toOption = some a ∧ P a) := by
  cases r with
  | error e => exact (returns_throw e b).congr (by simp [Except.toOption])
  | ok a => exact (hf a rfl).congr (by simp [Except.toOption])

theorem returns_orThrow {x : Conf Bool} (e : Thrown) (hx : Returns x w true P) :
    Returns (orThrow x e) w () P := by
  obtain ⟨r, u, hxw, hr⟩ := hx
  cases r with
  | error e' =>
    exact ⟨.error e', u, by simp only [orThrow, Bind.bind, hxw, Option.bind_some], by simp [← hr]⟩
  | ok b =>
    cases b with
    | false =>
      refine ⟨.error e, u, ?_, by simp [← hr]⟩
      simp only [orThrow, Bind.bind, hxw, Option.bind_some]
      rfl
    | true =>
      refine ⟨.ok (), u, ?_, by simp [← hr]⟩
      simp only [orThrow, Bind.bind, hxw, Option.bind_some]
      rfl

theorem returns_withManager {f : DataManager String → Except Thrown α × DataManager String}
    {dm : DataManager String} (hdm : w.manager = some dm) (a : α) :
    Returns (withManager w.framework.dataManager f) w a ((f dm).1 = .ok a) := by
  obtain ⟨p, hp, hj⟩ := Option.bind_eq_some_iff.mp hdm
  have hi : w.process.instances[p]? = some (some dm) := Option.join_eq_some_iff.mp hj
  have hw : withManager w.framework.dataManager f w = some ((f dm).1, { w with process :=
      { w.process with instances := w.process.instances.set p (some (f dm).2) } }) := by
    simp only [withManager, hp, hi, Option.bind_eq_bind, Option.bind_some]
  exact ⟨_, _, hw, Iff.rfl⟩

theorem Returns.true_and {x : Conf Bool} (hx : Returns x w true P) :
    Returns (x >>= fun ret => pure (true && ret)) w true P := by
  obtain ⟨r, u, hxw, hr⟩ := hx
  refine ⟨r, u, ?_, hr⟩
  simp only [Bind.bind, hxw, Option.bind_some]
  cases r <;> rfl

end Conf

/-! ### The parts of `parseConf` -/

theorem nodeBuilt_iff (type : ProxyType) (name : String) (o : SocketOutcome)
    (dm : DataManager String) :
    nodeBuilt type o = true ↔ (constructNode type name o dm).1 = .ok () := by
  cases type <;> cases o <;> simp [nodeBuilt, constructNode, tcpServer, udpServer, udpClient,
    consumer, createListenSocket, createRxSocket, createTxSocket, Except.isOk, Except.toBool]

theorem addNode_returns {direction : String} {type : ProxyType} {port : UInt16} {name : String}
    {o : SocketOutcome} {w : World} {dm : DataManager String} {nodes : List ProxyNode}
    (hb : Building direction w dm nodes) :
    (addNode direction type port name o).Returns w true (nodeBuilt type o = true) := by
  refine Conf.returns_bind_ok (a := w.framework) rfl ?_
  rw [hb.proxy]
  refine Conf.Returns.congr (Conf.returns_bind_unit (Conf.returns_withManager hb.manager ())
    fun u _ => ?_) ((and_iff_left trivial).trans (nodeBuilt_iff type name o dm).symm)
  exact (Conf.returns_pure true true).congr (iff_of_true rfl trivial)

theorem addNode_eq_true {direction : String} {type : ProxyType} {port : UInt16} {name : String}
    {o : SocketOutcome} {w w' : World} {r : Bool} {dm : DataManager String}
    {nodes : List ProxyNode} (hb : Building direction w dm nodes)
    (h : addNode direction type port name o w = some (.ok r, w')) : r = true := by
  replace h := Conf.framework_bind h
  rw [hb.proxy] at h
  obtain ⟨_, v, _, h⟩ := Conf.bind_eq_ok h
  obtain ⟨_, u, _, h⟩ := Conf.bind_eq_ok h
  exact (Conf.pure_eq_ok h).1.symm

theorem addEntries_returns {env : Env} {direction : String} {entries : List PTree} {i : Nat}
    {w : World} {dm : DataManager String} {nodes : List ProxyNode}
    (hb : Building direction w dm nodes) :
    (addEntries env direction entries i).Returns w true
      (entriesAccepted env direction entries i = true) := by
  induction entries generalizing i w dm nodes with
  | nil => exact (Conf.returns_pure true true).congr (by simp [entriesAccepted])
  | cons entry rest ih =>
    have hnode : ∀ type name port, Conf.Returns (do
        let added ← addNode direction type (UInt16.ofInt port) name (env.socket direction i)
        let ret ← addEntries env direction rest (i + 1)
        return added && ret) w true
        (nodeBuilt type (env.socket direction i) = true ∧
          entriesAccepted env direction rest (i + 1) = true) := by
      intro type name port
      refine (addNode_returns hb).bind (fun _ _ h => addNode_eq_true hb h) fun u hu => ?_
      exact (ih (addNode_eq_ok hu hb).2).true_and
    refine (Conf.returns_ofOption fun _ _ => Conf.returns_ofExcept fun type _ =>
      Conf.returns_ofOption fun name _ => Conf.returns_ofOption fun _ _ =>
      Conf.returns_ofOption fun port _ => hnode type name port).congr ?_
    simp only [entriesAccepted, entryAccepted, Bool.and_eq_true, Option.any_eq_true]
    constructor
    · rintro ⟨t, ht, type, htype, n, hn, text, htext, port, hport, hb, hr⟩
      exact ⟨⟨t, ht, type, htype, n, hn, text, htext, port, hport, hb⟩, hr⟩
    · rintro ⟨⟨t, ht, type, htype, n, hn, text, htext, port, hport, hb⟩, hr⟩
      exact ⟨t, ht, type, htype, n, hn, text, htext, port, hport, hb, hr⟩

theorem instantiateProxy_returns {env : Env} {tree : PTree} {direction : String}
    (hd : direction = "in" ∨ direction = "out") {w : World} {dm : DataManager String}
    (hm : w.manager = some dm) :
    (instantiateProxy env tree direction).Returns w true
      (sectionAccepted env tree direction = true) := by
  unfold instantiateProxy sectionAccepted
  rw [if_neg fun hne => hd.elim hne.1 hne.2]
  refine Conf.returns_bind_ok rfl ?_
  obtain ⟨_, u, hw, hr⟩ :=
    Conf.returns_withManager (f := fun dm => (Except.ok dm.name, dm)) hm dm.name
  obtain rfl := hr.mpr rfl
  obtain ⟨-, hu, -⟩ := Conf.withManager_eq_ok hm hw
  refine Conf.returns_bind_ok hw ?_
  cases tree.getChildOptional [direction ++ "Proxy"] with
  | none => exact (Conf.returns_pure true false).congr (by simp)
  | some _ =>
    refine Conf.returns_bind_ok rfl ?_
    refine Conf.Returns.congr (addEntries_returns (?_ : Building direction _ dm [])) (by simp)
    constructor
    · refine (World.manager_congr (w := u) ?_ ?_).trans hu
      · rfl
      · exact u.framework.setProxy_dataManager direction _
    · rw [DataFramework.proxy_setProxy, DataFramework.setProxy_dataManager]

theorem setDataManagerConf_returns (tree : PTree) (w : World) :
    (setDataManagerConf tree).Returns w () ((topologyConf tree).isSome = true) := by
  refine Conf.Returns.congr (Conf.returns_ofOption fun name _ => Conf.returns_ofOption
    fun mode _ => Conf.returns_bind_ok rfl (Conf.returns_ofExcept fun m _ =>
      Conf.returns_modifyFramework _)) ?_
  constructor
  · rintro ⟨name, hn, mode, hm, m, hmode, -⟩
    simp [topologyConf, hn, hm, hmode]
  · intro h
    obtain ⟨conf, hconf⟩ := Option.isSome_iff_exists.mp h
    obtain ⟨name, hn, hconf⟩ := Option.bind_eq_some_iff.mp hconf
    obtain ⟨mode, hm, hconf⟩ := Option.bind_eq_some_iff.mp hconf
    obtain ⟨m, hmode, -⟩ := Option.bind_eq_some_iff.mp hconf
    exact ⟨name, hn, mode, hm, m, hmode, trivial⟩

/-- The manager that `getInstance` returns is live. -/
theorem getInstance_returns (conf : DataManagerConf) {w : World} (hv : w.process.Valid) :
    ∃ p w' dm, getInstance conf w = some (.ok p, w') ∧ w'.framework = w.framework ∧
      w'.process.instances[p]? = some (some dm) := by
  unfold getInstance
  cases hp : w.process.pinstance with
  | some p =>
    obtain ⟨dm, hdm⟩ := hv p hp
    exact ⟨p, w, dm, rfl, rfl, hdm⟩
  | none => exact ⟨_, _, .new conf, rfl, rfl, List.getElem?_concat_length⟩

/-- With a valid `m_Pinstance` the framework gets a live manager, unless the configuration
is no good. -/
theorem instantiateDataManager_returns (tree : PTree) {w : World} (hv : w.process.Valid) :
    (instantiateDataManager tree).Returns w true ((topologyConf tree).isSome = true) := by
  refine Conf.Returns.congr (Conf.returns_bind_unit (setDataManagerConf_returns tree w)
    (Q := True) fun u hu => ?_) (and_iff_left trivial)
  have hvu : u.process.Valid := (setDataManagerConf_eq_ok hu).1 ▸ hv
  obtain ⟨p, v, dm, hget, _⟩ := getInstance_returns u.framework.dataManagerConf hvu
  refine Conf.returns_bind_ok rfl (Conf.returns_bind_ok hget (Conf.returns_bind_ok rfl ?_))
  exact (Conf.returns_pure true true).congr (iff_of_true rfl trivial)

theorem instantiateDataManager_manager {tree : PTree} {b : Bool} {w w' : World}
    (h : instantiateDataManager tree w = some (.ok b, w')) (hv : w.process.Valid) :
    ∃ dm, w'.manager = some dm := by
  obtain ⟨_, u, hu, h⟩ := Conf.bind_eq_ok h
  have hvu : u.process.Valid := (setDataManagerConf_eq_ok hu).1 ▸ hv
  replace h := Conf.framework_bind h
  obtain ⟨p, v, hp, h⟩ := Conf.bind_eq_ok h
  obtain ⟨p', v', dm, hget, _, hdm⟩ := getInstance_returns u.framework.dataManagerConf hvu
  obtain ⟨hpp, rfl⟩ := Prod.mk.inj (Option.some.inj (hget.symm.trans hp))
  cases hpp
  obtain ⟨_, x, hx, h⟩ := Conf.bind_eq_ok h
  obtain ⟨hpx, hfx⟩ := Conf.modifyFramework_eq_ok hx
  obtain ⟨-, rfl⟩ := Conf.pure_eq_ok h
  refine ⟨dm, ?_⟩
  rw [World.manager, hfx, Option.bind_some, hpx, hdm, Option.join_some]

/-- The construction of a framework always ends, and it is a success exactly when the
topology is accepted. -/
theorem parseConf_returns (env : Env) (json : Option PTree) {w : World} (hv : w.process.Valid) :
    ∃ b w', parseConf env json w = some (b, w') ∧ (b = true ↔ json.any (accepted env) = true) := by
  have htry : (parseConfBody env json).Returns w () (json.any (accepted env) = true) := by
    refine (Conf.returns_ofOption fun tree _ => Conf.returns_bind_ok rfl ?_).congr
      (Option.any_eq_true _ _).symm
    refine Conf.Returns.congr (Conf.returns_bind_unit
      (Q := sectionAccepted env tree "out" = true ∧ sectionAccepted env tree "in" = true)
      (Conf.returns_orThrow _ (instantiateDataManager_returns tree hv)) fun u hu => ?_) ?_
    · obtain ⟨dm, hdm⟩ := instantiateDataManager_manager (Conf.orThrow_eq_ok hu) hv
      refine Conf.returns_bind_unit (Conf.returns_orThrow _
        (instantiateProxy_returns (Or.inr rfl) hdm)) fun v hout => ?_
      obtain ⟨nodes, -, -, hb⟩ := instantiateProxy_eq_ok hdm (Conf.orThrow_eq_ok hout)
      exact Conf.returns_orThrow _ (instantiateProxy_returns (Or.inl rfl) hb.manager)
    · rw [accepted, Bool.and_eq_true, Bool.and_eq_true, and_assoc]
  obtain ⟨r, w', hw, hr⟩ := htry
  cases r with
  | ok _ => exact ⟨true, w', by rw [parseConf, hw]; rfl, iff_of_true rfl (hr.mp rfl)⟩
  | error e =>
    refine ⟨false, w', by rw [parseConf, hw]; rfl, iff_of_false (by simp) fun h => ?_⟩
    cases hr.mpr h

end DataPipeline
