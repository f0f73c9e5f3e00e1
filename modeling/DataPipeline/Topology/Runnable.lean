import DataPipeline.Topology.Built

/-!
# Whether a constructed framework can run

`parseConf` sets the pointers of a framework one after the other and stops at the first
thing that fails. It catches everything and returns `false`; the constructor only logs the
difference. So a framework may come into being with null pointers, and `run` and `stop`
use all of them. A missing file is the only reason for the constructor to throw.
-/

namespace DataPipeline

namespace DataFramework

/-- `m_threadPoolPtr`, `m_dataManager`, `m_inProxyPtr` and `m_outProxyPtr` are set. -/
structure Runnable (fw : DataFramework) : Prop where
  threadPool : fw.threadPool.isSome
  dataManager : fw.dataManager.isSome
  inProxy : fw.inProxy.isSome
  outProxy : fw.outProxy.isSome

/-- The pointers that `DataFramework::run` and its thread use. A null one is undefined
behaviour, `none`. -/
def runPointers (fw : DataFramework) : Option Unit := do
  let _threadPoolPtr ← fw.threadPool
  let _dataManager ← fw.dataManager
  let _outProxyPtr ← fw.outProxy
  let _inProxyPtr ← fw.inProxy
  return ()

/-- The pointers that `DataFramework::stop` uses, if no `stop` before returns `false`. -/
def stopPointers (fw : DataFramework) : Option Unit := do
  let _dataManager ← fw.dataManager
  let _inProxyPtr ← fw.inProxy
  let _outProxyPtr ← fw.outProxy
  let _threadPoolPtr ← fw.threadPool
  return ()

/-- `run` uses no null pointer exactly if all are set. -/
theorem runPointers_iff (fw : DataFramework) : fw.runPointers.isSome ↔ fw.Runnable := by
  constructor
  · intro h
    obtain ⟨_, hrun⟩ := Option.isSome_iff_exists.mp h
    obtain ⟨_, hpool, hrun⟩ := Option.bind_eq_some_iff.mp hrun
    obtain ⟨_, hdm, hrun⟩ := Option.bind_eq_some_iff.mp hrun
    obtain ⟨_, hout, hrun⟩ := Option.bind_eq_some_iff.mp hrun
    obtain ⟨_, hin, _⟩ := Option.bind_eq_some_iff.mp hrun
    exact ⟨by simp [hpool], by simp [hdm], by simp [hin], by simp [hout]⟩
  · rintro ⟨hpool, hdm, hin, hout⟩
    obtain ⟨_, hpool⟩ := Option.isSome_iff_exists.mp hpool
    obtain ⟨_, hdm⟩ := Option.isSome_iff_exists.mp hdm
    obtain ⟨_, hin⟩ := Option.isSome_iff_exists.mp hin
    obtain ⟨_, hout⟩ := Option.isSome_iff_exists.mp hout
    simp [runPointers, hpool, hdm, hin, hout]

/-- Nor does `stop` then. -/
theorem Runnable.stopPointers {fw : DataFramework} (h : fw.Runnable) : fw.stopPointers.isSome := by
  obtain ⟨_, hpool⟩ := Option.isSome_iff_exists.mp h.threadPool
  obtain ⟨_, hdm⟩ := Option.isSome_iff_exists.mp h.dataManager
  obtain ⟨_, hin⟩ := Option.isSome_iff_exists.mp h.inProxy
  obtain ⟨_, hout⟩ := Option.isSome_iff_exists.mp h.outProxy
  simp [DataFramework.stopPointers, hpool, hdm, hin, hout]

end DataFramework

/-- Whether the construction gets to the input proxy: the manager can be configured and the
output proxy is complete. -/
def reachesInput (env : Env) (tree : PTree) : Bool :=
  (topologyConf tree).isSome && sectionAccepted env tree "out"

/-- Whether a file sets all pointers: it is a topology whose construction gets to the input
proxy, and there is a section for that one. -/
def setsPointers (env : Env) (json : Option PTree) : Bool :=
  json.any fun tree => reachesInput env tree && (tree.getChildOptional ["inProxy"]).isSome

/-! ### One proxy -/

/-- A proxy that is set stays set. -/
def StaysSet (direction : String) (w w' : World) : Prop :=
  (w.framework.proxy direction).isSome → (w'.framework.proxy direction).isSome

instance (direction : String) : Std.Refl (StaysSet direction) := ⟨fun _ h => h⟩

instance (direction : String) : IsTrans World (StaysSet direction) :=
  ⟨fun _ _ _ h h' hs => h' (h hs)⟩

theorem builds_staysSet (direction : String) : Builds (StaysSet direction) direction where
  construct := fun p type name o w r w' h hs => by
    obtain ⟨a, dm, _, _, _, rfl⟩ := Conf.withManager_cases h
    exact hs
  getName := fun p w r w' h hs => by
    obtain ⟨a, dm, _, _, _, rfl⟩ := Conf.withManager_cases h
    exact hs
  setProxy := fun w p _ => by
    rw [DataFramework.proxy_setProxy]
    rfl

/-- The proxy is set as soon as its section is found, whatever becomes of the entries. -/
theorem instantiateProxy_sets {env : Env} {tree : PTree} {direction : String}
    (hd : direction = "in" ∨ direction = "out") {w w' : World} {r : Except Thrown Bool}
    (hnull : w.framework.proxy direction = none)
    (h : instantiateProxy env tree direction w = some (r, w')) :
    (w'.framework.proxy direction).isSome ↔
      (tree.getChildOptional [direction ++ "Proxy"]).isSome := by
  rw [instantiateProxy, if_neg fun hne => hd.elim hne.1 hne.2] at h
  replace h := Conf.framework_bind h
  rcases Conf.bind_cases h with ⟨e, _, hv⟩ | ⟨_, v, hv, h⟩
  · obtain ⟨_, _, _, _, hr, _⟩ := Conf.withManager_cases hv
    cases hr
  obtain ⟨_, _, _, _, _, rfl⟩ := Conf.withManager_cases hv
  cases hsec : tree.getChildOptional [direction ++ "Proxy"] with
  | none =>
    rw [hsec] at h
    cases h
    simp [hnull]
  | some _ =>
    rw [hsec] at h
    replace h := Conf.modifyFramework_bind h
    refine iff_of_true ((builds_staysSet direction).addEntries env _ 0 _ r w' h ?_) rfl
    rw [DataFramework.proxy_setProxy]
    rfl

theorem instantiateProxy_eq_true_iff {env : Env} {tree : PTree} {direction : String}
    (hd : direction = "in" ∨ direction = "out") {w w' : World} {r : Except Thrown Bool}
    (h : instantiateProxy env tree direction w = some (r, w')) :
    r = .ok true ↔ sectionAccepted env tree direction = true := by
  obtain ⟨dm, hdm⟩ := instantiateProxy_manager hd h
  have hreturns : (instantiateProxy env tree direction).Returns w true _ :=
    instantiateProxy_returns hd hdm
  obtain ⟨r', u, hr, hiff⟩ := hreturns
  obtain ⟨rfl, rfl⟩ := Prod.mk.inj (Option.some.inj (hr.symm.trans h))
  exact hiff

/-! ### The construction -/

theorem DataFramework.setProxy_inProxy (fw : DataFramework) (p : Proxy) :
    (fw.setProxy "out" p).inProxy = fw.inProxy := by
  rw [setProxy, if_neg (by decide)]

/-- A construction that gets to the input proxy has set everything else; one that does not
leaves the pointer to the input proxy as it was. -/
theorem parseConf_reaches {env : Env} {json : Option PTree} {w w' : World} {b : Bool}
    (h : parseConf env json w = some (b, w')) :
    (json.any (reachesInput env) = false ∧ w'.framework.inProxy = w.framework.inProxy) ∨
      ∃ tree z r, json = some tree ∧ reachesInput env tree = true ∧
        instantiateProxy env tree "in" z = some (r, w') ∧
        z.framework.inProxy = w.framework.inProxy ∧ z.framework.threadPool.isSome ∧
        z.framework.dataManager.isSome ∧ z.framework.outProxy.isSome := by
  -- whatever comes before the input proxy leaves its pointer alone
  have hdmIn : ∀ tree, (instantiateDataManager tree).Within
      (Keeps fun w => (w.framework.threadPool, w.framework.inProxy)) :=
    instantiateDataManager_keeps (fun _ _ => rfl) (fun _ _ => rfl) (fun _ _ => rfl)
  have houtIn : ∀ tree, (instantiateProxy env tree "out").Within
      (Keeps fun w => w.framework.inProxy) :=
    (builds_keeps (fun _ _ => rfl) fun w p => w.framework.setProxy_inProxy p).instantiateProxy env
  have hpoolSet : ∀ {tree u}, instantiateThreadPool env tree w = some (.ok true, u) →
      u.framework.threadPool.isSome ∧ u.framework.inProxy = w.framework.inProxy := by
    intro tree u hpool
    cases hpool
    exact ⟨rfl, rfl⟩
  cases parseConf_parsed h with
  | malformed hw => exact Or.inl ⟨rfl, by rw [hw]⟩
  | @noManager tree u r hpool hdm hr =>
    rcases instantiateDataManager_cases hdm with ⟨_, _, hnone, _⟩ | ⟨hok, _⟩
    · have hsame := Prod.mk.inj (hdmIn tree u r w' hdm)
      exact Or.inl ⟨by simp [reachesInput, hnone], hsame.2.trans (hpoolSet hpool).2⟩
    · exact absurd hok hr
  | @noOutput tree u v r hpool hdm hout hr =>
    have hrej := mt (instantiateProxy_eq_true_iff (Or.inr rfl) hout).mpr hr
    have hsame := Prod.mk.inj (hdmIn tree u _ v hdm)
    exact Or.inl ⟨by simp [reachesInput, hrej],
      (houtIn tree v r w' hout).trans (hsame.2.trans (hpoolSet hpool).2)⟩
  | @input tree u v z r _ hpool hdm hout hin =>
    obtain ⟨hsetPool, hsetIn⟩ := hpoolSet hpool
    obtain ⟨hvPool, hvIn⟩ := Prod.mk.inj (hdmIn tree u _ v hdm)
    rcases instantiateDataManager_cases hdm with ⟨_, hok, _⟩ | ⟨_, conf, p, hconf, _, hptr, _⟩
    · cases hok
    have hacc := (instantiateProxy_eq_true_iff (Or.inr rfl) hout).mp rfl
    have hzPool : z.framework.threadPool = v.framework.threadPool :=
      (builds_keeps_threadPool "out").instantiateProxy env tree v _ z hout
    obtain ⟨dm, hmanager⟩ := instantiateProxy_manager (Or.inr rfl) hout
    obtain ⟨nodes, -, hkept, hbuilding⟩ := instantiateProxy_eq_ok hmanager hout
    have hzOut : z.framework.outProxy = some ⟨z.framework.dataManager, nodes⟩ := hbuilding.proxy
    refine Or.inr ⟨tree, z, r, rfl, by simp [reachesInput, hconf, hacc], hin,
      (houtIn tree v _ z hout).trans (hvIn.trans hsetIn), ?_, ?_, ?_⟩
    · rw [hzPool, hvPool]
      exact hsetPool
    · rw [hkept.dataManager, hptr]
      rfl
    · rw [hzOut]
      rfl

/-- After the constructor has returned all pointers are set exactly if the file sets them. -/
theorem setConf_runnable_iff {env : Env} {conf : String} {json : Option PTree} {w w' : World}
    {b : Bool} (hnew : w.framework = World.fresh.framework)
    (h : setConf env conf (some json) w = some (.ok b, w')) :
    w'.framework.Runnable ↔ setsPointers env json = true := by
  obtain ⟨⟨b', w''⟩, hparse, he⟩ := Option.map_eq_some_iff.mp h
  obtain rfl := (Prod.mk.inj he).2
  have hnull : w.framework.inProxy = none := by rw [hnew]; rfl
  rcases parseConf_reaches hparse with ⟨hno, hin⟩ | ⟨tree, z, r, rfl, hreach, hz, hin, hsets⟩
  · refine iff_of_false (fun hrun => ?_) fun hsets => ?_
    · have hset := hrun.inProxy
      rw [hin, hnull] at hset
      cases hset
    · obtain ⟨tree, rfl, hboth⟩ := (Option.any_eq_true ..).mp hsets
      rw [Option.any_some] at hno
      rw [hno] at hboth
      cases hboth
  obtain ⟨hpool, hdm, hout⟩ := hsets
  have hproxy : (w''.framework.inProxy).isSome ↔ (tree.getChildOptional ["inProxy"]).isSome :=
    instantiateProxy_sets (Or.inl rfl) (hin.trans hnull) hz
  have hkeeps : (instantiateProxy env tree "in").Within (Keeps fun w =>
      (w.framework.threadPool, w.framework.dataManager, w.framework.outProxy)) := by
    refine (builds_keeps (fun _ _ => rfl) fun w p => ?_).instantiateProxy env tree
    rw [w.framework.setProxy_threadPool, w.framework.setProxy_dataManager,
      w.framework.setProxy_outProxy p rfl]
  obtain ⟨hpool', hrest⟩ := Prod.mk.inj (hkeeps z r w'' hz)
  obtain ⟨hdm', hout'⟩ := Prod.mk.inj hrest
  rw [setsPointers, Option.any_some, hreach, Bool.true_and, ← hproxy]
  refine ⟨fun hrun => hrun.inProxy, fun hset => ⟨?_, ?_, hset, ?_⟩⟩
  · rwa [hpool']
  · rwa [hdm']
  · rwa [hout']

namespace Frameworks

/-- The constructor returns for every existing file, and the new framework can run exactly if
the file sets all pointers. -/
theorem constructed_runnable_iff {s t : Frameworks} {env : Env} {conf : String}
    {json : Option PTree} (h : step s (.construct env conf (some json)) = some t) :
    ∃ o, t.objects = s.objects ++ [some o] ∧
      (o.framework.Runnable ↔ setsPointers env json = true) := by
  obtain ⟨⟨r, w'⟩, hset, ht⟩ := Option.map_eq_some_iff.mp h
  obtain ⟨⟨b, w''⟩, hparse, he⟩ := Option.map_eq_some_iff.mp hset
  cases he
  cases ht
  have hnew : (⟨s.process, World.fresh.framework⟩ : World).framework = World.fresh.framework := rfl
  exact ⟨⟨b, w''.framework⟩, rfl, setConf_runnable_iff hnew hset⟩

/-- A framework with a server and a consumer. -/
theorem constructed_runnable_server :
    ∃ t, step start (constructOn "dm" "50000") = some t ∧
      ∃ o, t.objects = [some o] ∧ o.framework.Runnable := by
  have hstep : ∃ t, step start (constructOn "dm" "50000") = some t := ⟨_, rfl⟩
  obtain ⟨t, h⟩ := hstep
  obtain ⟨o, ho, hrun⟩ := constructed_runnable_iff h
  exact ⟨t, h, o, ho, hrun.mpr (by decide)⟩

/-- A file that is not JSON makes a framework whose `run` uses null pointers. -/
theorem malformed_file_not_runnable :
    ∃ t o, step start (.construct twoPorts "topology.json" (some none)) = some t ∧
      t.objects = [some o] ∧ ¬ o.framework.Runnable ∧ o.framework.runPointers = none :=
  ⟨_, _, rfl, rfl, fun h => absurd h.inProxy (by decide), rfl⟩

end Frameworks

end DataPipeline
