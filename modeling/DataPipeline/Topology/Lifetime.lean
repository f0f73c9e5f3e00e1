import DataPipeline.Topology.Singleton
import Mathlib.Data.List.DropRight

/-!
# The lifetime of the manager

All frameworks of a process share the one manager, and the destructor of every framework
deletes it, whether or not another one still works on it. So the frameworks made since the
last destruction hold a live manager, that of the configuration which was asked for first.
A framework has a manager of its own configuration only as long as nobody comes with
another one and nobody goes.
-/

namespace DataPipeline

open Machine

/-- `DataManager::deleteInstance`. -/
def Process.deleteInstance (process : Process) : Process where
  instances :=
    match process.pinstance with
    | some p => process.instances.set p none
    | none => process.instances
  pinstance := none

/-! ### All frameworks of a process -/

/-- `DataFramework::setConf`; `file` is what there is under the path, and `some none` is a
file the reader rejects. -/
def setConf (env : Env) (conf : String) (file : Option (Option PTree)) (w : World) :
    Option (Except Thrown Bool × World) :=
  match file with
  | none => some (.error (.runtimeError ("Configuration file " ++ conf ++ " does not exist")), w)
  | some json => (parseConf env json w).map fun r => (.ok r.1, r.2)

/-- A framework with what its `parseConf` returned. -/
structure FrameworkObject where
  parsed : Bool
  framework : DataFramework

/-- The process and the frameworks made in it, `none` for a destroyed one. -/
structure Frameworks where
  process : Process
  objects : List (Option FrameworkObject)

/-- What a program does with frameworks. -/
inductive FrameworkAct where
  | construct (env : Env) (conf : String) (file : Option (Option PTree))
  | destroy (i : Nat)

namespace Frameworks

/-- Before there is any framework. -/
def start : Frameworks := ⟨World.fresh.process, []⟩

/-- One constructor or destructor. A constructor that throws leaves no object, and only an
object that is there is destroyed. -/
def step : Machine Frameworks FrameworkAct
  | s, .construct env conf file =>
    (setConf env conf file ⟨s.process, World.fresh.framework⟩).map fun r =>
      match r.1 with
      | .ok parsed => ⟨r.2.process, s.objects ++ [some ⟨parsed, r.2.framework⟩]⟩
      | .error _ => ⟨r.2.process, s.objects⟩
  | s, .destroy i =>
    match s.objects[i]? with
    | some (some _) => some ⟨s.process.deleteInstance, s.objects.set i none⟩
    | _ => none

end Frameworks

/-- The framework holds a live manager that was made of the framework's own configuration. -/
def HasOwn (process : Process) (fw : DataFramework) : Prop :=
  ∃ p dm, fw.dataManager = some p ∧ process.instances[p]? = some (some dm) ∧
    dm.conf = fw.dataManagerConf

/-- Every framework that is there and was parsed has its own manager. -/
def Frameworks.AllOwn (s : Frameworks) : Prop :=
  ∀ o, some o ∈ s.objects → o.parsed = true → HasOwn s.process o.framework

/-- What the manager of the process was constructed with. -/
def Process.current (process : Process) : Option DataManagerConf :=
  process.pinstance.bind fun p => process.confs[p]?.join

/-- An accepted topology asks for the manager there is, if there is one, and a framework that
goes leaves no parsed one behind. -/
def Frameworks.Fits (s : Frameworks) : FrameworkAct → Prop
  | .construct env _ file => ∀ tree ∈ file.join, accepted env tree = true →
      ∀ conf ∈ s.process.current, topologyConf tree = some conf
  | .destroy i => ∀ other ∈ s.objects.eraseIdx i, ∀ o ∈ other, o.parsed = false

instance (s : Frameworks) : (act : FrameworkAct) → Decidable (s.Fits act)
  | .construct env _ file => inferInstanceAs <| Decidable <| ∀ tree ∈ file.join,
      accepted env tree = true → ∀ conf ∈ s.process.current, topologyConf tree = some conf
  | .destroy i => inferInstanceAs <| Decidable <|
      ∀ other ∈ s.objects.eraseIdx i, ∀ o ∈ other, o.parsed = false

/-- The manager that `m_Pinstance` points to is the only one alive. -/
def Process.Single (process : Process) : Prop :=
  ∀ p, process.pinstance = some p ↔ ∃ conf, process.confs[p]? = some (some conf)

theorem Process.confs_eq_some {process : Process} {p : Nat} {conf : DataManagerConf} :
    process.confs[p]? = some (some conf) ↔
      ∃ dm, process.instances[p]? = some (some dm) ∧ dm.conf = conf := by
  simp [Process.confs, List.getElem?_map, Option.map_eq_some_iff]

theorem hasOwn_iff {process : Process} {fw : DataFramework} :
    HasOwn process fw ↔
      ∃ p, fw.dataManager = some p ∧ process.confs[p]? = some (some fw.dataManagerConf) := by
  simp only [HasOwn, Process.confs_eq_some, exists_and_left]

theorem HasOwn.congr {process process' : Process} {fw : DataFramework} (h : HasOwn process fw)
    (hconfs : process'.confs = process.confs) : HasOwn process' fw := by
  rw [hasOwn_iff, hconfs]
  exact hasOwn_iff.mp h

theorem Process.Single.valid {process : Process} (h : process.Single) : process.Valid := by
  intro p hp
  obtain ⟨conf, hconf⟩ := (h p).mp hp
  obtain ⟨dm, hdm, _⟩ := Process.confs_eq_some.mp hconf
  exact ⟨dm, hdm⟩

theorem Process.Single.not_hasOwn {process : Process} (h : process.Single)
    (hnone : process.pinstance = none) (fw : DataFramework) : ¬ HasOwn process fw := by
  intro hown
  obtain ⟨p, _, hp⟩ := hasOwn_iff.mp hown
  cases hnone.symm.trans ((h p).mpr ⟨_, hp⟩)

theorem Process.Single.congr {process process' : Process} (h : process.Single)
    (hconfs : process'.confs = process.confs) (hp : process'.pinstance = process.pinstance) :
    process'.Single := by
  intro p
  rw [hconfs, hp]
  exact h p

theorem Process.current_eq {process : Process} {p : Nat} {conf : DataManagerConf}
    (hp : process.pinstance = some p) (hconf : process.confs[p]? = some (some conf)) :
    process.current = some conf := by
  rw [Process.current, hp, Option.bind_some, hconf, Option.join_some]

/-- The manager that `getInstance` returns is the only one. -/
theorem Obtains.single {process process' : Process} {conf : DataManagerConf} {p : Nat}
    (h : Obtains process process' conf p) (hs : process.Single) : process'.Single := by
  obtain ⟨hp, ⟨hpold, hconfs⟩ | ⟨hnone, rfl, hconfs⟩⟩ := h
  · exact hs.congr hconfs (hp.trans hpold.symm)
  intro q
  rw [hp, hconfs, Option.some.injEq]
  constructor
  · rintro rfl
    exact ⟨conf, List.getElem?_concat_length⟩
  · rintro ⟨c, hc⟩
    by_contra hne
    rcases Nat.lt_or_gt_of_ne hne with hlt | hlt
    · rw [List.getElem?_eq_none (by rw [List.length_append]; exact hlt)] at hc
      cases hc
    · rw [List.getElem?_append_left hlt] at hc
      cases hnone.symm.trans ((hs q).mpr ⟨c, hc⟩)

/-- It was constructed with the configuration of the first call. -/
theorem Obtains.current {process process' : Process} {conf : DataManagerConf} {p : Nat}
    (h : Obtains process process' conf p) (hs : process.Single) :
    process'.current = process.current.or (some conf) := by
  obtain ⟨hp, ⟨hpold, hconfs⟩ | ⟨hnone, rfl, hconfs⟩⟩ := h
  · obtain ⟨c, hc⟩ := (hs p).mp hpold
    rw [Process.current_eq hpold hc, Process.current_eq hp (hconfs ▸ hc), Option.some_or]
  · rw [Process.current_eq hp (hconfs ▸ List.getElem?_concat_length), Process.current, hnone]
    rfl

theorem Process.confs_deleteInstance {process : Process} {p : Nat}
    (hp : process.pinstance = some p) :
    process.deleteInstance.confs = process.confs.set p none := by
  simp only [Process.deleteInstance, hp, Process.confs, List.map_set, Option.map_none]

/-- After `deleteInstance` no manager is alive. -/
theorem Process.Single.deleteInstance {process : Process} (h : process.Single) :
    process.deleteInstance.Single := by
  intro q
  refine iff_of_false (by simp [Process.deleteInstance]) ?_
  rintro ⟨conf, hconf⟩
  cases hp : process.pinstance with
  | none =>
    have hsame : process.deleteInstance.confs = process.confs := by
      simp only [Process.deleteInstance, hp, Process.confs]
    rw [hsame] at hconf
    cases hp.symm.trans ((h q).mpr ⟨conf, hconf⟩)
  | some p =>
    rw [Process.confs_deleteInstance hp, List.getElem?_set] at hconf
    split at hconf
    · split at hconf <;> cases hconf
    · rename_i hne
      exact hne (Option.some.inj (hp.symm.trans ((h q).mpr ⟨conf, hconf⟩)))

/-! ### Steps -/

namespace FrameworkAct

/-- The configuration that a construction asks `getInstance` for. -/
def asked : FrameworkAct → Option DataManagerConf
  | .construct _ _ file => file.join.bind topologyConf
  | .destroy _ => none

/-- A construction. -/
def constructs : FrameworkAct → Bool
  | .construct .. => true
  | .destroy _ => false

/-- The part of a history up to the last destruction. -/
def untilDestroyed (acts : List FrameworkAct) : List FrameworkAct := acts.rdropWhile constructs

/-- The constructions since the last destruction. -/
def sinceDestroyed (acts : List FrameworkAct) : List FrameworkAct := acts.rtakeWhile constructs

/-- The configuration that was asked for first since the last destruction. -/
def firstAsked (acts : List FrameworkAct) : Option DataManagerConf :=
  (sinceDestroyed acts).findSome? asked

theorem untilDestroyed_construct (acts : List FrameworkAct) (env : Env) (conf : String)
    (file : Option (Option PTree)) :
    untilDestroyed (acts ++ [.construct env conf file]) = untilDestroyed acts :=
  List.rdropWhile_concat_pos _ _ _ rfl

theorem firstAsked_construct (acts : List FrameworkAct) (env : Env) (conf : String)
    (file : Option (Option PTree)) :
    firstAsked (acts ++ [.construct env conf file]) =
      (firstAsked acts).or (file.join.bind topologyConf) := by
  rw [firstAsked, sinceDestroyed, List.rtakeWhile_concat_pos _ _ _ rfl, List.findSome?_append]
  simp [firstAsked, sinceDestroyed, asked]

theorem untilDestroyed_destroy (acts : List FrameworkAct) (i : Nat) :
    untilDestroyed (acts ++ [.destroy i]) = acts ++ [.destroy i] :=
  List.rdropWhile_concat_neg _ _ _ (by simp [constructs])

theorem firstAsked_destroy (acts : List FrameworkAct) (i : Nat) :
    firstAsked (acts ++ [.destroy i]) = none := by
  rw [firstAsked, sinceDestroyed, List.rtakeWhile_concat_neg _ _ _ (by simp [constructs])]
  rfl

end FrameworkAct

namespace Frameworks

open FrameworkAct (untilDestroyed firstAsked)

/-- How a construction ends: without a configuration, and then without a framework that was
parsed, or with the manager of the process. -/
inductive Constructed (s : Frameworks) (env : Env) (file : Option (Option PTree)) :
    Frameworks → Prop where
  | failed {process' : Process} {new : List (Option FrameworkObject)}
      (hasked : file.join.bind topologyConf = none) (hconfs : process'.confs = s.process.confs)
      (hp : process'.pinstance = s.process.pinstance)
      (hnew : ∀ o, some o ∈ new → o.parsed = false) :
      Constructed s env file ⟨process', s.objects ++ new⟩
  | made {process' : Process} {conf : DataManagerConf} {p : Nat} {o : FrameworkObject}
      (hasked : file.join.bind topologyConf = some conf)
      (hparsed : o.parsed = true ↔ file.join.any (accepted env) = true)
      (hown : o.framework.dataManagerConf = conf) (hptr : o.framework.dataManager = some p)
      (hobtains : Obtains s.process process' conf p) :
      Constructed s env file ⟨process', s.objects ++ [some o]⟩

/-- A construction is defined in every process with one manager at most. -/
theorem step_construct {s : Frameworks} (hs : s.process.Single) (env : Env) (conf : String)
    (file : Option (Option PTree)) :
    ∃ t, step s (.construct env conf file) = some t ∧ Constructed s env file t := by
  cases file with
  | none =>
    refine ⟨⟨s.process, s.objects ++ []⟩, by rw [List.append_nil]; rfl, ?_⟩
    exact .failed rfl rfl rfl fun o ho => by cases ho
  | some json =>
    obtain ⟨b, w', hparse, hb⟩ :=
      parseConf_returns env json (w := ⟨s.process, World.fresh.framework⟩) hs.valid
    refine ⟨⟨w'.process, s.objects ++ [some ⟨b, w'.framework⟩]⟩, ?_, ?_⟩
    · simp only [step, setConf, hparse, Option.map_some]
    rcases parseConf_cases hparse with ⟨hnone, hconfs, hp⟩ | ⟨c, p, hc, hown, hptr, hobtains⟩
    · refine .failed hnone hconfs hp fun o ho => ?_
      cases List.mem_singleton.mp ho
      cases json with
      | none => simpa using hb
      | some tree => simpa [accepted, show topologyConf tree = none from hnone] using hb
    · exact .made hc hb hown hptr hobtains

theorem constructed_of_step {s t : Frameworks} {env : Env} {conf : String}
    {file : Option (Option PTree)} (hs : s.process.Single)
    (h : step s (.construct env conf file) = some t) : Constructed s env file t := by
  obtain ⟨t', ht', hmade⟩ := step_construct hs env conf file
  exact Option.some.inj (ht'.symm.trans h) ▸ hmade

theorem Constructed.single {s t : Frameworks} {env : Env} {file : Option (Option PTree)}
    (h : Constructed s env file t) (hs : s.process.Single) : t.process.Single := by
  cases h with
  | failed _ hconfs hp => exact hs.congr hconfs hp
  | made _ _ _ _ hobtains => exact hobtains.single hs

theorem step_destroy {s t : Frameworks} {i : Nat} (h : step s (.destroy i) = some t) :
    t = ⟨s.process.deleteInstance, s.objects.set i none⟩ := by
  simp only [step] at h
  split at h <;> cases h
  rfl

theorem step_single {s t : Frameworks} {act : FrameworkAct} (hs : s.process.Single)
    (h : step s act = some t) : t.process.Single := by
  cases act with
  | construct env conf file => exact (constructed_of_step hs h).single hs
  | destroy i =>
    rw [step_destroy h]
    exact hs.deleteInstance

theorem single_start : start.process.Single := by
  intro p
  exact iff_of_false (by simp [start, World.fresh]) (by simp [start, World.fresh, Process.confs])

/-- Whatever frameworks came and went, a construction does not run into a dangling manager. -/
theorem construct_defined {acts : List FrameworkAct} {s : Frameworks}
    (hrun : Machine.run step start acts = some s) (env : Env) (conf : String)
    (file : Option (Option PTree)) : ∃ t, step s (.construct env conf file) = some t := by
  have hs : s.process.Single := run_invariant (fun _ _ _ => step_single) single_start hrun
  obtain ⟨t, ht, _⟩ := step_construct hs env conf file
  exact ⟨t, ht⟩

/-! ### One manager for all -/

/-- The frameworks from the `n`-th on share the manager that was made of `first`. -/
structure Shared (n : Nat) (first : Option DataManagerConf) (s : Frameworks) : Prop where
  current : s.process.current = first
  count : n ≤ s.objects.length
  holds : ∀ o, some o ∈ s.objects.drop n → o.parsed = true →
    o.framework.dataManager = s.process.pinstance ∧ s.process.pinstance.isSome

theorem Constructed.shared {s t : Frameworks} {env : Env} {file : Option (Option PTree)}
    {n : Nat} {first : Option DataManagerConf} (h : Constructed s env file t)
    (hs : s.process.Single) (hshared : Shared n first s) :
    Shared n (first.or (file.join.bind topologyConf)) t := by
  obtain ⟨hcurrent, hcount, hholds⟩ := hshared
  cases h with
  | failed hasked hconfs hp hnew =>
    rw [hasked, Option.or_none]
    refine ⟨by rw [Process.current, hconfs, hp]; exact hcurrent, ?_, fun o ho hparsed => ?_⟩
    · exact hcount.trans (List.length_append ▸ Nat.le_add_right ..)
    · rw [List.drop_append_of_le_length hcount, List.mem_append] at ho
      rcases ho with ho | ho
      · rw [hp]
        exact hholds o ho hparsed
      · cases (hnew o ho).symm.trans hparsed
  | @made process' conf p o hasked _ hown hptr hobtains =>
    rw [hasked, ← hcurrent, ← hobtains.current hs]
    refine ⟨rfl, hcount.trans (List.length_append ▸ Nat.le_add_right ..), fun o' ho hparsed => ?_⟩
    rw [List.drop_append_of_le_length hcount, List.mem_append, List.mem_singleton] at ho
    rw [hobtains.1]
    rcases ho with ho | ho
    · obtain ⟨hd, hsome⟩ := hholds o' ho hparsed
      rcases hobtains.2 with ⟨hp, _⟩ | ⟨hp, _⟩
      · exact ⟨hd.trans hp, rfl⟩
      · rw [hp] at hsome
        cases hsome
    · cases ho
      exact ⟨hptr, rfl⟩

/-- What was made since the last destruction shares the manager, in every run. -/
theorem run_shared {acts : List FrameworkAct} {s : Frameworks}
    (hrun : Machine.run step start acts = some s) :
    s.process.Single ∧ ∃ s₀, Machine.run step start (untilDestroyed acts) = some s₀ ∧
      Shared s₀.objects.length (firstAsked acts) s := by
  refine run_history (I := fun acts s => s.process.Single ∧ ∃ s₀,
    Machine.run step start (untilDestroyed acts) = some s₀ ∧
      Shared s₀.objects.length (firstAsked acts) s) ?_ ?_ hrun
  · exact ⟨single_start, start, rfl, rfl, Nat.zero_le _, fun o ho => by cases ho⟩
  intro acts u act v hu ⟨hs, s₀, hs₀, hshared⟩ hv
  refine ⟨step_single hs hv, ?_⟩
  cases act with
  | construct env conf file =>
    rw [FrameworkAct.untilDestroyed_construct, FrameworkAct.firstAsked_construct]
    exact ⟨s₀, hs₀, (constructed_of_step hs hv).shared hs hshared⟩
  | destroy i =>
    rw [FrameworkAct.untilDestroyed_destroy, FrameworkAct.firstAsked_destroy]
    refine ⟨v, run_concat_eq_some.mpr ⟨u, hu, hv⟩, ?_, Nat.le_refl _, fun o ho => ?_⟩
    · rw [step_destroy hv]
      rfl
    · rw [List.drop_length] at ho
      cases ho

/-- All frameworks that were made since the last one was destroyed, and parsed, hold the one
manager of the process. It is alive and was made of the configuration that was asked for first
since then. -/
theorem manager_shared {acts : List FrameworkAct} {s : Frameworks}
    (hrun : Machine.run step start acts = some s) :
    ∃ s₀, Machine.run step start (untilDestroyed acts) = some s₀ ∧
      ∀ o, some o ∈ s.objects.drop s₀.objects.length → o.parsed = true →
        ∃ p dm, o.framework.dataManager = some p ∧ s.process.pinstance = some p ∧
          s.process.instances[p]? = some (some dm) ∧ firstAsked acts = some dm.conf := by
  obtain ⟨hs, s₀, hs₀, hshared⟩ := run_shared hrun
  refine ⟨s₀, hs₀, fun o ho hparsed => ?_⟩
  obtain ⟨hd, hsome⟩ := hshared.holds o ho hparsed
  obtain ⟨p, hp⟩ := Option.isSome_iff_exists.mp hsome
  obtain ⟨conf, hconf⟩ := (hs p).mp hp
  obtain ⟨dm, hdm, rfl⟩ := Process.confs_eq_some.mp hconf
  exact ⟨p, dm, hd.trans hp, hp, hdm, hshared.current ▸ Process.current_eq hp hconf⟩

/-! ### A manager of one's own -/

/-- New objects change what has to hold only by what has to hold of them. -/
theorem allOwn_append {s : Frameworks} {process' : Process} {new : List (Option FrameworkObject)}
    (hown : s.AllOwn) (hkept : ∀ fw, HasOwn s.process fw → HasOwn process' fw) :
    AllOwn ⟨process', s.objects ++ new⟩ ↔
      ∀ o, some o ∈ new → o.parsed = true → HasOwn process' o.framework := by
  constructor
  · exact fun h o ho => h o (List.mem_append_right _ ho)
  · intro h o ho hparsed
    rcases List.mem_append.mp ho with hold | hnew
    · exact hkept _ (hown o hold hparsed)
    · exact h o hnew hparsed

theorem Constructed.allOwn_iff {s t : Frameworks} {env : Env} {file : Option (Option PTree)}
    (h : Constructed s env file t) (hs : s.process.Single) (hown : s.AllOwn) (conf : String) :
    t.AllOwn ↔ s.Fits (.construct env conf file) := by
  have hfits : s.Fits (.construct env conf file) ↔ (file.join.any (accepted env) = true →
      ∀ c ∈ s.process.current, file.join.bind topologyConf = some c) := by
    simp only [Fits]
    cases file.join <;> simp
  rw [hfits]
  cases h with
  | failed hasked hconfs _ hnew =>
    rw [allOwn_append hown fun fw hfw => hfw.congr hconfs]
    refine iff_of_true (fun o ho hparsed => ?_) fun hacc => ?_
    · cases (hnew o ho).symm.trans hparsed
    · obtain ⟨tree, htree, hacc⟩ := (Option.any_eq_true ..).mp hacc
      rw [htree, Option.bind_some] at hasked
      simp [accepted, hasked] at hacc
  | @made process' c p o hasked hparsed hmine hptr hobtains =>
    rw [← hparsed, hasked]
    have hnew : (∀ o', some o' ∈ [some o] → o'.parsed = true → HasOwn process' o'.framework) ↔
        (o.parsed = true → HasOwn process' o.framework) := by simp
    obtain ⟨hp, ⟨hpold, hconfs⟩ | ⟨hnone, rfl, hconfs⟩⟩ := hobtains
    · -- the manager there is
      rw [allOwn_append hown fun fw hfw => hfw.congr hconfs, hnew]
      obtain ⟨c', hc'⟩ := (hs p).mp hpold
      rw [Process.current_eq hpold hc', hasOwn_iff, hconfs, hmine]
      refine forall_congr' fun _ => ⟨?_, fun h => ⟨p, hptr, ?_⟩⟩
      · rintro ⟨q, hq, hqc⟩ d ⟨⟩
        cases hptr.symm.trans hq
        exact Option.some.inj (hqc.symm.trans hc')
      · rw [hc', h c' rfl]
    · -- a new manager
      rw [allOwn_append hown fun fw hfw => absurd hfw (hs.not_hasOwn hnone fw), hnew]
      refine iff_of_true (fun _ => hasOwn_iff.mpr ⟨_, hptr, ?_⟩) fun _ c' hc' => ?_
      · rw [hconfs, hmine]
        exact List.getElem?_concat_length
      · rw [Process.current, hnone] at hc'
        cases hc'

theorem destroy_allOwn_iff {s t : Frameworks} {i : Nat} (hs : s.process.Single)
    (h : step s (.destroy i) = some t) : t.AllOwn ↔ s.Fits (.destroy i) := by
  rw [step_destroy h]
  have hnobody : ∀ fw, ¬ HasOwn s.process.deleteInstance fw :=
    hs.deleteInstance.not_hasOwn rfl
  have hmem : ∀ o : FrameworkObject, some o ∈ s.objects.set i none ↔
      some o ∈ s.objects.eraseIdx i := by
    intro o
    rw [List.mem_eraseIdx_iff_getElem?, List.mem_iff_getElem?]
    refine exists_congr fun j => ?_
    rw [List.getElem?_set]
    by_cases hij : i = j
    · rw [if_pos hij]
      refine iff_of_false ?_ fun hne => hne.1 hij.symm
      split <;> simp
    · rw [if_neg hij, and_iff_right (Ne.symm hij)]
  refine ⟨fun hown other hother o ho => ?_, fun hfits o ho hparsed => ?_⟩
  · obtain rfl := Option.mem_def.mp ho
    by_contra hparsed
    exact hnobody _ (hown o ((hmem o).mpr hother) (by simpa using hparsed))
  · cases (hfits _ ((hmem o).mp ho) o rfl).symm.trans hparsed

/-- All frameworks that are there and were parsed have their own manager throughout, exactly
if every topology that is accepted asks for the manager there is and no framework goes while
another one is at work. -/
theorem own_manager_iff {acts : List FrameworkAct} {s : Frameworks}
    (hrun : Machine.run step start acts = some s) :
    Always step AllOwn start acts ↔ Meets step Fits start acts := by
  refine always_iff_meets (I := fun s => s.process.Single) (fun s a t hs hown h => ?_)
    single_start ?_ hrun
  · refine ⟨step_single hs h, ?_⟩
    cases a with
    | construct env conf file => exact (constructed_of_step hs h).allOwn_iff hs hown conf
    | destroy i => exact destroy_allOwn_iff hs h
  · exact fun o ho => by cases ho

/-- A server and a consumer under a manager with a name. -/
def serverAndConsumer (name port : String) : PTree :=
  .node "" [
    ("dataManager", .node "" [("name", .node name []), ("mode", .node "broadcast" [])]),
    ("inProxy", .node "" [("", .node "" [("type", .node "TCP_Server" []),
      ("port", .node port []), ("name", .node "TcpServer1" [])])]),
    ("outProxy", .node "" [("", .node "" [("type", .node "CONSUMER" []),
      ("port", .node port []), ("name", .node "Consumer1" [])])])]

/-- Two ports are read, and the sockets are free. -/
def twoPorts : Env where
  toInt := fun s => if s = "50000" then some 50000 else if s = "50001" then some 50001 else none
  socket := fun _ _ => .ok

/-- The construction of a framework on a port. -/
def constructOn (name port : String) : FrameworkAct :=
  .construct twoPorts "topology.json" (some (some (serverAndConsumer name port)))

/-- The first framework of a process. -/
def firstOn (name : String) : Frameworks where
  process :=
    { instances := [some (((DataManager.new ⟨name, 8, 8, .BROADCAST⟩).setConsumer
        "Consumer1").1.setFeeder "TcpServer1").1]
      pinstance := some 0 }
  objects := [some
    { parsed := true
      framework :=
        { threadCount := 1, threadPool := some 1, dataManagerConf := ⟨name, 8, 8, .BROADCAST⟩,
          dataManager := some 0, inProxy := some ⟨some 0, [⟨.TCPS, 50000, "TcpServer1"⟩]⟩,
          outProxy := some ⟨some 0, [⟨.CONSUMER, 50000, "Consumer1"⟩]⟩ } }]

theorem step_constructOn (name : String) :
    step start (constructOn name "50000") = some (firstOn name) := by
  rfl

/-- A second framework of another name does not fit; the only one may go. -/
example : ¬ (firstOn "a").Fits (constructOn "b" "50001") ∧ (firstOn "a").Fits (.destroy 0) := by
  decide

/-- A second framework gets the manager of the first one. -/
theorem step_constructOn_second : ∃ dm fw,
    step (firstOn "a") (constructOn "b" "50001") =
      some ⟨⟨[some dm], some 0⟩, (firstOn "a").objects ++ [some ⟨true, fw⟩]⟩ ∧
    dm.conf = ⟨"a", 8, 8, .BROADCAST⟩ ∧ fw.dataManager = some 0 ∧
    fw.dataManagerConf = ⟨"b", 8, 8, .BROADCAST⟩ :=
  ⟨_, _, rfl, rfl, rfl, rfl⟩

/-- Two frameworks share the manager of the first one. -/
theorem second_shares_first : ∃ s fw p dm,
    Machine.run step start [constructOn "a" "50000", constructOn "b" "50001"] = some s ∧
      s.objects[1]? = some (some ⟨true, fw⟩) ∧ fw.dataManager = some p ∧
      s.process.instances[p]? = some (some dm) ∧ dm.conf = ⟨"a", 8, 8, .BROADCAST⟩ := by
  obtain ⟨dm, fw, hs, _⟩ := step_constructOn_second
  have hrun : Machine.run step start [constructOn "a" "50000", constructOn "b" "50001"] =
      some ⟨⟨[some dm], some 0⟩, (firstOn "a").objects ++ [some ⟨true, fw⟩]⟩ := by
    rw [run_cons, step_constructOn, Option.bind_some, run_cons, hs, Option.bind_some, run_nil]
  obtain ⟨s₀, hs₀, hshared⟩ := manager_shared hrun
  cases hs₀
  obtain ⟨p, dm', hp, _, hdm, hasked⟩ :=
    hshared ⟨true, fw⟩ (List.mem_append_right _ List.mem_cons_self) rfl
  have hfirst : firstAsked [constructOn "a" "50000", constructOn "b" "50001"] =
      some ⟨"a", 8, 8, .BROADCAST⟩ := rfl
  exact ⟨_, fw, p, dm', hrun, rfl, hp, hdm, Option.some.inj (hasked.symm.trans hfirst)⟩

/-- The second framework works on the manager of the first one, until that one goes and takes
the manager with it. -/
theorem other_manager_then_none :
    ∃ s t, Machine.run step start [constructOn "a" "50000", constructOn "b" "50001"] = some s ∧
      step s (.destroy 0) = some t ∧ ¬ s.AllOwn ∧ ¬ t.AllOwn := by
  obtain ⟨dm, fw, hs, hconf, hptr, hown⟩ := step_constructOn_second
  refine ⟨⟨⟨[some dm], some 0⟩, (firstOn "a").objects ++ [some ⟨true, fw⟩]⟩,
    ⟨⟨[none], none⟩, [none, some ⟨true, fw⟩]⟩, ?_, rfl, fun h => ?_, fun h => ?_⟩
  · rw [run_cons, step_constructOn, Option.bind_some, run_cons, hs, Option.bind_some, run_nil]
  · obtain ⟨p, dm', hp, hdm, hc⟩ := h _ (List.mem_append_right _ List.mem_cons_self) rfl
    cases hptr.symm.trans hp
    cases hdm
    simp [hconf, hown] at hc
  · obtain ⟨p, dm', hp, hdm, hc⟩ := h _ (List.mem_cons_of_mem _ List.mem_cons_self) rfl
    cases hptr.symm.trans hp
    cases hdm

end Frameworks

end DataPipeline
