import DataPipeline.Topology.Config

/-!
# What a computation may change

A computation is within a relation if that relates the worlds before and after it, however
it ends. For a reflexive and transitive relation it is enough to look at the parts. With
this the construction of a framework is taken apart for what it leaves alone.
-/

namespace DataPipeline

/-- The two worlds agree on a part. -/
def Keeps {γ : Type} (part : World → γ) (w w' : World) : Prop := part w' = part w

instance {γ : Type} (part : World → γ) : Std.Refl (Keeps part) := ⟨fun _ => rfl⟩

instance {γ : Type} (part : World → γ) : IsTrans World (Keeps part) :=
  ⟨fun _ _ _ h h' => Eq.trans h' h⟩

namespace Conf

variable {α β : Type}

/-- The worlds before and after the computation are related. -/
def Within (R : World → World → Prop) (x : Conf α) : Prop := ∀ w r w', x w = some (r, w') → R w w'

/-- How a sequence of two computations ends. -/
theorem bind_cases {x : Conf α} {f : α → Conf β} {w w' : World} {r : Except Thrown β}
    (h : (x >>= f) w = some (r, w')) :
    (∃ e, r = .error e ∧ x w = some (.error e, w')) ∨
      ∃ a u, x w = some (.ok a, u) ∧ f a u = some (r, w') := by
  obtain ⟨⟨r', u⟩, hx, hr⟩ := Option.bind_eq_some_iff.mp h
  cases r' with
  | ok a => exact Or.inr ⟨a, u, hx, hr⟩
  | error e =>
    cases hr
    exact Or.inl ⟨e, rfl, hx⟩

theorem ofExcept_state {r r' : Except Thrown α} {w w' : World}
    (h : ofExcept r w = some (r', w')) : w' = w := by
  cases h
  rfl

theorem ofOption_state {e : Thrown} {o : Option α} {r : Except Thrown α} {w w' : World}
    (h : ofOption e o w = some (r, w')) : w' = w := by
  cases o <;> cases h <;> rfl

theorem framework_state {r : Except Thrown DataFramework} {w w' : World}
    (h : framework w = some (r, w')) : r = .ok w.framework ∧ w' = w := by
  cases h
  exact ⟨rfl, rfl⟩

theorem modifyFramework_state {f : DataFramework → DataFramework} {r : Except Thrown Unit}
    {w w' : World} (h : modifyFramework f w = some (r, w')) :
    r = .ok () ∧ w' = { w with framework := f w.framework } := by
  cases h
  exact ⟨rfl, rfl⟩

/-- What comes after reading the framework. -/
theorem framework_bind {f : DataFramework → Conf β} {r : Except Thrown β} {w w' : World}
    (h : (framework >>= f) w = some (r, w')) : f w.framework w = some (r, w') := h

/-- What comes after changing the framework. -/
theorem modifyFramework_bind {f : DataFramework → DataFramework} {g : Unit → Conf β}
    {r : Except Thrown β} {w w' : World} (h : (modifyFramework f >>= g) w = some (r, w')) :
    g () { w with framework := f w.framework } = some (r, w') := h

/-- A computation goes on after `orThrow` only if it has returned `true`. -/
theorem orThrow_cases {x : Conf Bool} {e : Thrown} {r : Except Thrown Unit} {w w' : World}
    (h : orThrow x e w = some (r, w')) :
    (r = .ok () ∧ x w = some (.ok true, w')) ∨
      ∃ e' r', r = .error e' ∧ r' ≠ .ok true ∧ x w = some (r', w') := by
  rcases bind_cases h with ⟨e', he, hx⟩ | ⟨b, u, hx, hb⟩
  · exact Or.inr ⟨e', _, he, by simp, hx⟩
  · cases b with
    | true =>
      cases hb
      exact Or.inl ⟨rfl, hx⟩
    | false =>
      cases hb
      exact Or.inr ⟨e, _, rfl, by simp, hx⟩

/-- Work on a manager ends as it says, and only this manager has changed. -/
theorem withManager_cases {p : Option Nat}
    {f : DataManager String → Except Thrown α × DataManager String} {w w' : World}
    {r : Except Thrown α} (h : withManager p f w = some (r, w')) :
    ∃ a dm, p = some a ∧ w.process.instances[a]? = some (some dm) ∧ r = (f dm).1 ∧
      w' = { w with process :=
        { w.process with instances := w.process.instances.set a (some (f dm).2) } } := by
  obtain ⟨a, ha, h⟩ := Option.bind_eq_some_iff.mp h
  obtain ⟨i, hi, h⟩ := Option.bind_eq_some_iff.mp h
  obtain ⟨dm, rfl, h⟩ := Option.bind_eq_some_iff.mp h
  cases h
  exact ⟨a, dm, ha, hi, rfl, rfl⟩

section Rules

variable {R : World → World → Prop}

theorem Within.bind [IsTrans World R] {x : Conf α} {f : α → Conf β} (hx : Within R x)
    (hf : ∀ a, Within R (f a)) : Within R (x >>= f) := by
  intro w r w' h
  rcases bind_cases h with ⟨e, _, h⟩ | ⟨a, u, h, h'⟩
  · exact hx w _ w' h
  · exact trans_of R (hx w _ u h) (hf a u r w' h')

variable [Std.Refl R]

theorem within_pure (a : α) : Within R (pure a) := by
  intro w r w' h
  cases h
  exact refl_of R w

theorem within_framework : Within R framework := by
  intro w r w' h
  exact (framework_state h).2 ▸ refl_of R w

theorem within_ofExcept (r : Except Thrown α) : Within R (ofExcept r) := by
  intro w r' w' h
  exact ofExcept_state h ▸ refl_of R w

theorem within_ofOption (e : Thrown) (o : Option α) : Within R (ofOption e o) := by
  intro w r w' h
  exact ofOption_state h ▸ refl_of R w

end Rules

theorem within_modifyFramework {R : World → World → Prop} {f : DataFramework → DataFramework}
    (hf : ∀ w : World, R w { w with framework := f w.framework }) :
    Within R (modifyFramework f) := by
  intro w r w' h
  exact (modifyFramework_state h).2 ▸ hf w

end Conf

/-! ### The configuration of the manager -/

section Configuration

variable {γ : Type} {part : World → γ}
  (hconf : ∀ (w : World) (dataManagerConf : DataManagerConf),
    part { w with framework := { w.framework with dataManagerConf } } = part w)
include hconf

theorem setDataManagerConf_keeps (tree : PTree) :
    (setDataManagerConf tree).Within (Keeps part) := by
  refine (Conf.within_ofOption _ _).bind fun _ => (Conf.within_ofOption _ _).bind fun _ => ?_
  refine (Conf.within_modifyFramework fun w => ?_).bind fun _ =>
    (Conf.within_ofExcept _).bind fun _ => Conf.within_modifyFramework fun w => ?_
  · exact hconf w _
  · exact hconf w _

theorem instantiateDataManager_keeps
    (hprocess : ∀ (w : World) (process : Process), part { w with process } = part w)
    (hptr : ∀ (w : World) (dataManager : Option Nat),
      part { w with framework := { w.framework with dataManager } } = part w) (tree : PTree) :
    (instantiateDataManager tree).Within (Keeps part) := by
  refine (setDataManagerConf_keeps hconf tree).bind fun _ => Conf.within_framework.bind fun _ => ?_
  refine Conf.Within.bind ?_ fun p => (Conf.within_modifyFramework fun w => ?_).bind fun _ =>
    Conf.within_pure true
  · intro w r w' h
    unfold getInstance at h
    split at h <;> cases h
    · exact refl_of _ w
    · exact hprocess w _
  · exact hptr w _

end Configuration

/-! ### Building a proxy -/

/-- What the building of a proxy is put together from is within a relation: the work of the
constructors on a manager, reading its name, and replacing the proxy. -/
structure Builds (R : World → World → Prop) (direction : String) : Prop where
  construct : ∀ p type name o, (Conf.withManager p (constructNode type name o)).Within R
  getName : ∀ p, (Conf.withManager p fun dm => (.ok dm.name, dm)).Within R
  setProxy : ∀ (w : World) (p : Proxy),
    R w { w with framework := w.framework.setProxy direction p }

/-- What is neither in the process nor in the proxy stays as it is. -/
theorem builds_keeps {γ : Type} {part : World → γ} {direction : String}
    (hprocess : ∀ (w : World) (process : Process), part { w with process } = part w)
    (hproxy : ∀ (w : World) (p : Proxy),
      part { w with framework := w.framework.setProxy direction p } = part w) :
    Builds (Keeps part) direction := by
  have hmanager : ∀ (α : Type) p (f : DataManager String → Except Thrown α × DataManager String),
      (Conf.withManager p f).Within (Keeps part) := by
    intro α p f w r w' h
    obtain ⟨a, dm, _, _, _, rfl⟩ := Conf.withManager_cases h
    exact hprocess w _
  exact ⟨fun _ _ _ _ => hmanager _ _ _, fun _ => hmanager _ _ _, hproxy⟩

namespace Builds

variable {R : World → World → Prop} [Std.Refl R] [IsTrans World R] {direction : String}

theorem addNode (h : Builds R direction) (type : ProxyType) (port : UInt16) (name : String)
    (o : SocketOutcome) : (addNode direction type port name o).Within R := by
  refine Conf.within_framework.bind fun fw => ?_
  split
  · exact fun _ _ _ h => by cases h
  · refine (h.construct _ type name o).bind fun _ => ?_
    exact (Conf.within_modifyFramework fun w => h.setProxy w _).bind fun _ => Conf.within_pure true

theorem addEntries (h : Builds R direction) (env : Env) (entries : List PTree) (i : Nat) :
    (addEntries env direction entries i).Within R := by
  induction entries generalizing i with
  | nil => exact Conf.within_pure true
  | cons entry rest ih =>
    refine (Conf.within_ofOption _ _).bind fun _ => ?_
    refine (Conf.within_ofExcept _).bind fun _ => ?_
    refine (Conf.within_ofOption _ _).bind fun _ => ?_
    refine (Conf.within_ofOption _ _).bind fun _ => ?_
    refine (Conf.within_ofOption _ _).bind fun _ => ?_
    refine (h.addNode _ _ _ _).bind fun _ => ?_
    exact (ih (i + 1)).bind fun _ => Conf.within_pure _

theorem instantiateProxy (h : Builds R direction) (env : Env) (tree : PTree) :
    (instantiateProxy env tree direction).Within R := by
  unfold DataPipeline.instantiateProxy
  split
  · exact Conf.within_pure false
  refine Conf.within_framework.bind fun fw => ?_
  refine (h.getName _).bind fun _ => ?_
  split
  · exact Conf.within_pure false
  · exact (Conf.within_modifyFramework fun w => h.setProxy w _).bind fun _ => h.addEntries _ _ _

end Builds

/-! ### How `parseConf` ends -/

/-- Where `parseConf` stops, with what it has done by then. -/
inductive Parsed (env : Env) (w w' : World) : Option PTree → Bool → Prop where
  | malformed (hw : w' = w) : Parsed env w w' none false
  | noManager {tree u r} (hpool : instantiateThreadPool env tree w = some (.ok true, u))
      (hdm : instantiateDataManager tree u = some (r, w')) (hr : r ≠ .ok true) :
      Parsed env w w' (some tree) false
  | noOutput {tree u v r} (hpool : instantiateThreadPool env tree w = some (.ok true, u))
      (hdm : instantiateDataManager tree u = some (.ok true, v))
      (hout : instantiateProxy env tree "out" v = some (r, w')) (hr : r ≠ .ok true) :
      Parsed env w w' (some tree) false
  | input {tree u v z r b} (hpool : instantiateThreadPool env tree w = some (.ok true, u))
      (hdm : instantiateDataManager tree u = some (.ok true, v))
      (hout : instantiateProxy env tree "out" v = some (.ok true, z))
      (hin : instantiateProxy env tree "in" z = some (r, w')) (hb : b = true ↔ r = .ok true) :
      Parsed env w w' (some tree) b

theorem parseConf_parsed {env : Env} {json : Option PTree} {w w' : World} {b : Bool}
    (h : parseConf env json w = some (b, w')) : Parsed env w w' json b := by
  obtain ⟨⟨r, w''⟩, hbody, hr⟩ := Option.map_eq_some_iff.mp h
  rcases Conf.bind_cases hbody with ⟨e, rfl, hj⟩ | ⟨tree, u, hj, hbody⟩
  · cases hr
    cases json with
    | none => exact .malformed (Conf.ofOption_state hj)
    | some tree => cases hj
  obtain ⟨rfl, rfl⟩ := Conf.ofOption_eq_ok hj
  rcases Conf.bind_cases hbody with ⟨e, _, hp⟩ | ⟨_, u, hp, hbody⟩
  · cases hp
  have hpool : instantiateThreadPool env tree w = some (.ok true, u) := by
    cases hp
    rfl
  rcases Conf.bind_cases hbody with ⟨e, rfl, hm⟩ | ⟨_, v, hm, hbody⟩
  · cases hr
    obtain ⟨hok, _⟩ | ⟨_, r, _, hne, hdm⟩ := Conf.orThrow_cases hm
    · cases hok
    · exact .noManager hpool hdm hne
  have hdm := Conf.orThrow_eq_ok hm
  rcases Conf.bind_cases hbody with ⟨e, rfl, ho⟩ | ⟨_, z, ho, hbody⟩
  · cases hr
    obtain ⟨hok, _⟩ | ⟨_, r, _, hne, hout⟩ := Conf.orThrow_cases ho
    · cases hok
    · exact .noOutput hpool hdm hout hne
  have hout := Conf.orThrow_eq_ok ho
  obtain ⟨rfl, hin⟩ | ⟨e, r, rfl, hne, hin⟩ := Conf.orThrow_cases hbody
  · cases hr
    exact .input hpool hdm hout hin (iff_of_true rfl rfl)
  · cases hr
    exact .input hpool hdm hout hin (iff_of_false Bool.false_ne_true hne)

end DataPipeline
