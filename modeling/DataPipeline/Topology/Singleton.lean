import DataPipeline.Topology.Accepted
import DataPipeline.Topology.Frames

/-!
# The one manager of a process

What the construction of a framework does to the managers of the process. `getInstance`
returns the manager there is, whatever configuration it is called with, and makes one only
if there is none. All other parts of the construction work on a manager at most, and that
changes nothing of what it was constructed with.
-/

namespace DataPipeline

/-- What a manager was constructed with. -/
def DataManager.conf {T : Type*} (dm : DataManager T) : DataManagerConf :=
  ⟨dm.name, dm.maxNbInQueues, dm.maxNbOutQueues, dm.mode⟩

/-- What the managers at the addresses were constructed with, `none` for a deleted one. -/
def Process.confs (process : Process) : List (Option DataManagerConf) :=
  process.instances.map (Option.map DataManager.conf)

/-! ### What the construction of a framework leaves as it is -/

/-- The same managers, and the framework points to the one it pointed to. -/
structure SameManagers (w w' : World) : Prop where
  confs : w'.process.confs = w.process.confs
  pinstance : w'.process.pinstance = w.process.pinstance
  dataManager : w'.framework.dataManager = w.framework.dataManager
  dataManagerConf : w'.framework.dataManagerConf = w.framework.dataManagerConf

instance : Std.Refl SameManagers := ⟨fun _ => ⟨rfl, rfl, rfl, rfl⟩⟩

theorem SameManagers.trans {u v w : World} (h : SameManagers u v) (h' : SameManagers v w) :
    SameManagers u w where
  confs := h'.confs.trans h.confs
  pinstance := h'.pinstance.trans h.pinstance
  dataManager := h'.dataManager.trans h.dataManager
  dataManagerConf := h'.dataManagerConf.trans h.dataManagerConf

instance : IsTrans World SameManagers := ⟨fun _ _ _ => SameManagers.trans⟩

namespace Conf

variable {α β : Type}

/-- However the computation ends, the managers are the same. -/
def KeepsManagers (x : Conf α) : Prop := ∀ w r w', x w = some (r, w') → SameManagers w w'

/-- Work on a manager does not change what it was constructed with. -/
theorem keepsManagers_withManager (p : Option Nat)
    {f : DataManager String → Except Thrown α × DataManager String}
    (hf : ∀ dm, (f dm).2.conf = dm.conf) : KeepsManagers (withManager p f) := by
  intro w r w' h
  obtain ⟨a, dm, _, hi, _, rfl⟩ := withManager_cases h
  refine ⟨?_, rfl, rfl, rfl⟩
  rw [Process.confs, List.map_set, Option.map_some, hf]
  have hget : w.process.confs[a]? = some (some dm.conf) := by
    rw [Process.confs, List.getElem?_map, hi]
    rfl
  obtain ⟨hlt, he⟩ := List.getElem?_eq_some_iff.mp hget
  exact he ▸ List.set_getElem_self hlt

end Conf

theorem DataManager.conf_setFeeder (dm : DataManager String) (appId : String) :
    (dm.setFeeder appId).1.conf = dm.conf := by
  unfold setFeeder
  split <;> rfl

theorem DataManager.conf_setConsumer (dm : DataManager String) (appId : String) :
    (dm.setConsumer appId).1.conf = dm.conf := by
  unfold setConsumer
  split <;> rfl

theorem constructNode_conf (type : ProxyType) (name : String) (o : SocketOutcome)
    (dm : DataManager String) : (constructNode type name o dm).2.conf = dm.conf := by
  cases type with
  | TCPS | UDPRX => exact dm.conf_setFeeder name
  | CONSUMER => exact dm.conf_setConsumer name
  | TCPC | UDPTX | CUSTOM | UNKNOWN => rfl

theorem DataFramework.setProxy_dataManagerConf (fw : DataFramework) (direction : String)
    (p : Proxy) : (fw.setProxy direction p).dataManagerConf = fw.dataManagerConf := by
  unfold setProxy
  split <;> rfl

theorem builds_sameManagers (direction : String) : Builds SameManagers direction where
  construct := fun p type name o =>
    Conf.keepsManagers_withManager p (constructNode_conf type name o)
  getName := fun p => Conf.keepsManagers_withManager p fun _ => rfl
  setProxy := fun w p => ⟨rfl, rfl, w.framework.setProxy_dataManager direction p,
    w.framework.setProxy_dataManagerConf direction p⟩

theorem keepsManagers_instantiateProxy (env : Env) (tree : PTree) (direction : String) :
    (instantiateProxy env tree direction).KeepsManagers :=
  (builds_sameManagers direction).instantiateProxy env tree

/-! ### What the construction of a framework does -/

/-- The manager that `getInstance` returns: the one there is, or a new one. -/
def Obtains (process process' : Process) (conf : DataManagerConf) (p : Nat) : Prop :=
  process'.pinstance = some p ∧
    ((process.pinstance = some p ∧ process'.confs = process.confs) ∨
      (process.pinstance = none ∧ p = process.confs.length ∧
        process'.confs = process.confs ++ [some conf]))

theorem setDataManagerConf_cases {tree : PTree} {w w' : World} {r : Except Thrown Unit}
    (h : setDataManagerConf tree w = some (r, w')) :
    w'.process = w.process ∧
      (r = .ok () → topologyConf tree = some w'.framework.dataManagerConf) := by
  rcases Conf.bind_cases h with ⟨e, rfl, hn⟩ | ⟨name, u, hn, h⟩
  · exact ⟨by rw [Conf.ofOption_state hn], fun he => by cases he⟩
  obtain ⟨hname, rfl⟩ := Conf.ofOption_eq_ok hn
  rcases Conf.bind_cases h with ⟨e, rfl, hm⟩ | ⟨modeText, u, hm, h⟩
  · exact ⟨by rw [Conf.ofOption_state hm], fun he => by cases he⟩
  obtain ⟨hmode, rfl⟩ := Conf.ofOption_eq_ok hm
  rcases Conf.bind_cases h with ⟨e, rfl, hu⟩ | ⟨_, u, hu, h⟩
  · cases hu
  obtain ⟨hpu, hfu⟩ := Conf.modifyFramework_eq_ok hu
  rcases Conf.bind_cases h with ⟨e, rfl, hv⟩ | ⟨mode, v, hv, h⟩
  · exact ⟨by rw [Conf.ofExcept_state hv, hpu], fun he => by cases he⟩
  obtain ⟨htext, rfl⟩ := Conf.ofExcept_eq_ok hv
  cases h
  refine ⟨hpu, fun _ => ?_⟩
  simp [topologyConf, hname, hmode, htext, Except.toOption, hfu]

theorem getInstance_cases {conf : DataManagerConf} {w w' : World} {r : Except Thrown Nat}
    (h : getInstance conf w = some (r, w')) :
    ∃ p, r = .ok p ∧ w'.framework = w.framework ∧ Obtains w.process w'.process conf p := by
  unfold getInstance at h
  split at h
  · rename_i p hp
    cases h
    exact ⟨p, rfl, rfl, hp, Or.inl ⟨hp, rfl⟩⟩
  · rename_i hp
    cases h
    refine ⟨_, rfl, rfl, rfl, Or.inr ⟨hp, ?_, ?_⟩⟩
    · exact (List.length_map _).symm
    · exact List.map_append

theorem setDataManagerConf_eq_error {tree : PTree} {w w' : World} {e : Thrown}
    (h : setDataManagerConf tree w = some (.error e, w')) : topologyConf tree = none := by
  obtain ⟨r, u, hset, hr⟩ := setDataManagerConf_returns tree w
  obtain rfl := (Prod.mk.inj (Option.some.inj (hset.symm.trans h))).1
  rw [← Option.not_isSome_iff_eq_none, ← hr]
  exact fun he => by cases he

/-- Either the configuration is no good and nothing has changed, or the framework points to
the manager of the process. -/
theorem instantiateDataManager_cases {tree : PTree} {w w' : World} {r : Except Thrown Bool}
    (h : instantiateDataManager tree w = some (r, w')) :
    (∃ e, r = .error e ∧ topologyConf tree = none ∧ w'.process = w.process) ∨
      (r = .ok true ∧ ∃ conf p, topologyConf tree = some conf ∧
        w'.framework.dataManagerConf = conf ∧ w'.framework.dataManager = some p ∧
        Obtains w.process w'.process conf p) := by
  rcases Conf.bind_cases h with ⟨e, rfl, hset⟩ | ⟨_, u, hu, h⟩
  · exact Or.inl ⟨e, rfl, setDataManagerConf_eq_error hset, (setDataManagerConf_cases hset).1⟩
  obtain ⟨hpu, hconf⟩ := setDataManagerConf_cases hu
  replace h := Conf.framework_bind h
  rcases Conf.bind_cases h with ⟨e, _, hp⟩ | ⟨p, v, hv, h⟩
  · obtain ⟨p, hok, _⟩ := getInstance_cases hp
    cases hok
  obtain ⟨p', hp, hfv, hobtains⟩ := getInstance_cases hv
  cases hp
  rcases Conf.bind_cases h with ⟨e, _, hx⟩ | ⟨_, x, hx, h⟩
  · cases hx
  obtain ⟨hpx, hfx⟩ := Conf.modifyFramework_eq_ok hx
  cases h
  refine Or.inr ⟨rfl, _, p, hconf rfl, ?_, ?_, ?_⟩
  · rw [hfx, hfv]
  · rw [hfx]
  · rw [hpx, ← hpu]
    exact hobtains

/-- How the construction of a framework ends. It fails before there is a manager, or the
framework points to the manager of the process. -/
theorem parseConf_cases {env : Env} {json : Option PTree} {w w' : World} {b : Bool}
    (h : parseConf env json w = some (b, w')) :
    (json.bind topologyConf = none ∧ w'.process.confs = w.process.confs ∧
        w'.process.pinstance = w.process.pinstance) ∨
      ∃ conf p, json.bind topologyConf = some conf ∧ w'.framework.dataManagerConf = conf ∧
        w'.framework.dataManager = some p ∧ Obtains w.process w'.process conf p := by
  have hprocess : ∀ {tree u}, instantiateThreadPool env tree w = some (.ok true, u) →
      u.process = w.process := by
    intro tree u hpool
    cases hpool
    rfl
  -- the proxies change neither the managers nor what the framework points to
  have hgoes : ∀ {tree u v}, instantiateThreadPool env tree w = some (.ok true, u) →
      instantiateDataManager tree u = some (.ok true, v) → SameManagers v w' →
      ∃ conf p, topologyConf tree = some conf ∧ w'.framework.dataManagerConf = conf ∧
        w'.framework.dataManager = some p ∧ Obtains w.process w'.process conf p := by
    intro tree u v hpool hdm hsame
    rcases instantiateDataManager_cases hdm with
      ⟨_, hok, _⟩ | ⟨_, conf, p, hconf, hown, hptr, hobtains⟩
    · cases hok
    rw [hprocess hpool] at hobtains
    refine ⟨conf, p, hconf, hsame.dataManagerConf.trans hown, hsame.dataManager.trans hptr,
      hsame.pinstance.trans hobtains.1, ?_⟩
    rw [hsame.confs]
    exact hobtains.2
  cases parseConf_parsed h with
  | malformed hw =>
    subst hw
    exact Or.inl ⟨rfl, rfl, rfl⟩
  | noManager hpool hdm hr =>
    rcases instantiateDataManager_cases hdm with ⟨_, _, hnone, hsame⟩ | ⟨hok, _⟩
    · exact Or.inl ⟨hnone, by rw [hsame, hprocess hpool], by rw [hsame, hprocess hpool]⟩
    · exact absurd hok hr
  | noOutput hpool hdm hout =>
    exact Or.inr (hgoes hpool hdm (keepsManagers_instantiateProxy env _ "out" _ _ _ hout))
  | input hpool hdm hout hin =>
    have hsame := keepsManagers_instantiateProxy env _ "out" _ _ _ hout
    exact Or.inr (hgoes hpool hdm
      (hsame.trans (keepsManagers_instantiateProxy env _ "in" _ _ _ hin)))

end DataPipeline
