import Mathlib.Data.Finset.Insert
import Mathlib.Data.List.Basic
import Mathlib.Data.List.Infix

/-!
# Labelled machines and their finite runs

A machine is its partial next-state function. A label carries every choice the
scheduler and the environment make, so a run is a list of labels and replays by
computation; `none` means that the labelled step is not enabled. The rules here
prove a property of all runs from what one step preserves, also where the
property mentions the history or the steps are restricted by a condition.
-/

namespace DataPipeline

/-- A partial next-state function over explicit labels. -/
abbrev Machine (σ α : Type*) := σ → α → Option σ

namespace Machine

variable {σ α β : Type*}

/-- Take the labelled steps of a list in order. -/
def run (m : Machine σ α) : σ → List α → Option σ
  | s, [] => some s
  | s, a :: as => (m s a).bind fun t => run m t as

@[simp] theorem run_nil (m : Machine σ α) (s : σ) : run m s [] = some s := rfl

theorem run_cons (m : Machine σ α) (s : σ) (a : α) (as : List α) :
    run m s (a :: as) = (m s a).bind fun t => run m t as := rfl

/-- A run of two parts is the second part taken from where the first one ends. -/
theorem run_append (m : Machine σ α) (s : σ) (as bs : List α) :
    run m s (as ++ bs) = (run m s as).bind fun t => run m t bs := by
  induction as generalizing s with
  | nil => rfl
  | cons a as ih =>
    simp only [List.cons_append, run_cons, Option.bind_assoc]
    exact congrArg _ (funext ih)

/-- The last step of a run, exposed. -/
theorem run_concat (m : Machine σ α) (s : σ) (as : List α) (a : α) :
    run m s (as ++ [a]) = (run m s as).bind fun t => m t a := by
  rw [run_append]
  refine congrArg _ (funext fun t => ?_)
  simp only [run_cons, run_nil, Option.bind_fun_some]

theorem run_concat_eq_some {m : Machine σ α} {s t : σ} {as : List α} {a : α} :
    run m s (as ++ [a]) = some t ↔ ∃ u, run m s as = some u ∧ m u a = some t := by
  rw [run_concat, Option.bind_eq_some_iff]

theorem run_append_eq_some {m : Machine σ α} {s t : σ} {as bs : List α} :
    run m s (as ++ bs) = some t ↔ ∃ u, run m s as = some u ∧ run m u bs = some t := by
  rw [run_append, Option.bind_eq_some_iff]

/-- A run goes on from every state it passes through. -/
theorem run_from {m : Machine σ α} {s u t : σ} {as bs : List α} (hu : run m s as = some u)
    (hrun : run m s (as ++ bs) = some t) : run m u bs = some t := by
  rwa [run_append, hu, Option.bind_some] at hrun

/-- What can be done for one member of a finite set more can be done for all of them. -/
theorem run_each {ι : Type*} [DecidableEq ι] {m : Machine σ α} {I : Finset ι → σ → Prop}
    {C : Finset ι} (hstep : ∀ D i u, i ∈ C → D ⊆ C → i ∉ D → I D u →
      ∃ as v, run m u as = some v ∧ I (insert i D) v) {s : σ} (hs : I ∅ s) :
    ∃ as t, run m s as = some t ∧ I C t := by
  suffices h : ∀ D, D ⊆ C → ∃ as t, run m s as = some t ∧ I D t from h C (Finset.Subset.refl C)
  intro D
  induction D using Finset.induction_on with
  | empty => exact fun _ => ⟨[], s, rfl, hs⟩
  | @insert i D hnot ih =>
    intro hsub
    obtain ⟨hi, hD⟩ := Finset.insert_subset_iff.mp hsub
    obtain ⟨as, u, hu, hI⟩ := ih hD
    obtain ⟨bs, v, hv, hIv⟩ := hstep D i u hi hD hnot hI
    exact ⟨as ++ bs, v, run_append_eq_some.mpr ⟨u, hu, hv⟩, hIv⟩

/-! ### Invariants -/

/-- What every step preserves holds at the end of every run. -/
theorem run_invariant {m : Machine σ α} {I : σ → Prop}
    (hstep : ∀ s a t, I s → m s a = some t → I t) {s t : σ} {as : List α}
    (hs : I s) (hrun : run m s as = some t) : I t := by
  induction as generalizing s with
  | nil => exact Option.some.inj hrun ▸ hs
  | cons a as ih =>
    obtain ⟨u, hu, hrest⟩ := Option.bind_eq_some_iff.mp hrun
    exact ih (hstep s a u hs hu) hrest

/-- Where a step never gets stuck in a state that keeps the invariant, no run does. -/
theorem run_total {m : Machine σ α} {I : σ → Prop}
    (hstep : ∀ s a, I s → ∃ t, m s a = some t ∧ I t) {s : σ} (hs : I s) (as : List α) :
    ∃ t, run m s as = some t ∧ I t := by
  induction as generalizing s with
  | nil => exact ⟨s, rfl, hs⟩
  | cons a as ih =>
    obtain ⟨u, hu, hI⟩ := hstep s a hs
    obtain ⟨t, ht, hIt⟩ := ih hI
    exact ⟨t, by rw [run_cons, hu, Option.bind_some, ht], hIt⟩

/-- The invariant rule for a property of the state together with the labels taken so far. -/
theorem run_history {m : Machine σ α} {I : List α → σ → Prop} {s : σ} (hs : I [] s)
    (hstep : ∀ as u a v, run m s as = some u → I as u → m u a = some v → I (as ++ [a]) v)
    {as : List α} {t : σ} (hrun : run m s as = some t) : I as t := by
  induction as using List.reverseRecOn generalizing t with
  | nil => exact Option.some.inj hrun ▸ hs
  | append_singleton as a ih =>
    obtain ⟨u, hu, ha⟩ := run_concat_eq_some.mp hrun
    exact hstep as u a t hu (ih hu) ha

/-- Where every step of a machine is a step of a second one, seen through a map of the
states and one of the labels, so is every run. -/
theorem run_simulation {τ : Type*} {m : Machine σ α} {m' : Machine τ β} {I : σ → Prop}
    {f : σ → τ} {g : α → β}
    (hstep : ∀ s a t, I s → m s a = some t → I t ∧ m' (f s) (g a) = some (f t))
    {s t : σ} {as : List α} (hs : I s) (hrun : run m s as = some t) :
    run m' (f s) (as.map g) = some (f t) := by
  induction as generalizing s with
  | nil => exact congrArg (fun u => some (f u)) (Option.some.inj hrun)
  | cons a as ih =>
    obtain ⟨u, hu, hrest⟩ := Option.bind_eq_some_iff.mp hrun
    obtain ⟨hI, hu'⟩ := hstep s a u hs hu
    rw [List.map_cons, run_cons, hu', Option.bind_some]
    exact ih hI hrest

/-! ### Conditions on the steps of a run -/

/-- Every step the run takes meets `C` in the state before it. -/
def Meets (m : Machine σ α) (C : σ → α → Prop) (s : σ) (as : List α) : Prop :=
  ∀ before a after u, as = before ++ a :: after → run m s before = some u → C u a

theorem Meets.prefix {m : Machine σ α} {C : σ → α → Prop} {s : σ} {as bs : List α}
    (h : Meets m C s (as ++ bs)) : Meets m C s as := by
  intro before a after u he hu
  exact h before a (after ++ bs) u (by rw [he, List.append_assoc, List.cons_append]) hu

theorem Meets.last {m : Machine σ α} {C : σ → α → Prop} {s u : σ} {as : List α} {a : α}
    (h : Meets m C s (as ++ [a])) (hu : run m s as = some u) : C u a :=
  h as a [] u rfl hu

theorem Meets.suffix {m : Machine σ α} {C : σ → α → Prop} {s t : σ} {as bs : List α}
    (h : Meets m C s (as ++ bs)) (ht : run m s as = some t) : Meets m C t bs := by
  intro before a after u he hu
  apply h (as ++ before) a after u (by rw [he, List.append_assoc])
  exact run_append_eq_some.mpr ⟨t, ht, hu⟩

theorem Meets.concat {m : Machine σ α} {C : σ → α → Prop} {s : σ} {as : List α} {a : α}
    (h : Meets m C s as) (ha : ∀ u, run m s as = some u → C u a) : Meets m C s (as ++ [a]) := by
  intro before b after u he hu
  rcases List.eq_nil_or_concat after with rfl | ⟨after, c, rfl⟩
  · obtain ⟨rfl, hb⟩ := List.append_inj' he rfl
    cases hb
    exact ha u hu
  · rw [List.concat_eq_append, ← List.cons_append, ← List.append_assoc] at he
    obtain ⟨rfl, _⟩ := List.append_inj' he rfl
    exact h before b after u rfl hu

theorem meets_nil (m : Machine σ α) (C : σ → α → Prop) (s : σ) : Meets m C s [] :=
  fun _ _ _ _ he => absurd he.symm (List.append_ne_nil_of_right_ne_nil _ nofun)

theorem meets_cons {m : Machine σ α} {C : σ → α → Prop} {s : σ} {a : α} {as : List α} :
    Meets m C s (a :: as) ↔ C s a ∧ ∀ t, m s a = some t → Meets m C t as := by
  constructor
  · intro h
    refine ⟨h [] a as s rfl rfl, fun t ht before b after u he hu => ?_⟩
    apply h (a :: before) b after u (by rw [he, List.cons_append])
    rw [run_cons, ht, Option.bind_some, hu]
  · rintro ⟨ha, hrest⟩ before b after u he hu
    cases before with
    | nil =>
      obtain ⟨rfl, rfl⟩ := List.cons.inj he
      exact Option.some.inj hu ▸ ha
    | cons c before =>
      obtain ⟨rfl, rfl⟩ := List.cons.inj he
      obtain ⟨t, ht, hu⟩ := Option.bind_eq_some_iff.mp hu
      exact hrest t ht before b after u rfl hu

/-- Steps that meet the condition in any state meet it along every run. -/
theorem meets_of_forall {m : Machine σ α} {C : σ → α → Prop} {as : List α}
    (h : ∀ a ∈ as, ∀ u, C u a) (s : σ) : Meets m C s as := by
  rintro before a after u rfl _
  exact h a (List.mem_append_right _ List.mem_cons_self) u

/-- What the steps of a run meet may be restated for the states the run passes through. -/
theorem meets_congr {m : Machine σ α} {C D : σ → α → Prop} {s : σ} {as : List α}
    (h : ∀ before u a, run m s before = some u → (C u a ↔ D u a)) :
    Meets m C s as ↔ Meets m D s as := by
  constructor
  · intro hC before a after u he hu
    exact (h before u a hu).mp (hC before a after u he hu)
  · intro hD before a after u he hu
    exact (h before u a hu).mpr (hD before a after u he hu)

/-- The same where the restatement needs an invariant that the condition itself keeps. -/
theorem meets_congr_of_invariant {m : Machine σ α} {I : σ → Prop} {C D : σ → α → Prop}
    (hstep : ∀ s a t, I s → C s a → m s a = some t → I t)
    (hiff : ∀ s a, I s → (C s a ↔ D s a)) {s : σ} (hs : I s) (as : List α) :
    Meets m C s as ↔ Meets m D s as := by
  induction as generalizing s with
  | nil => exact ⟨fun _ => meets_nil m D s, fun _ => meets_nil m C s⟩
  | cons a as ih =>
    rw [meets_cons, meets_cons]
    constructor
    · rintro ⟨ha, h⟩
      exact ⟨(hiff s a hs).mp ha, fun t ht => (ih (hstep s a t hs ha ht)).mp (h t ht)⟩
    · rintro ⟨ha, h⟩
      have hC := (hiff s a hs).mpr ha
      exact ⟨hC, fun t ht => (ih (hstep s a t hs hC ht)).mpr (h t ht)⟩

/-- Along a run whose steps are all enabled the restatement need only hold for such steps. -/
theorem meets_congr_of_run {m : Machine σ α} {C D : σ → α → Prop} {s t : σ} {as : List α}
    (hrun : run m s as = some t) (h : ∀ u a v, m u a = some v → (C u a ↔ D u a)) :
    Meets m C s as ↔ Meets m D s as := by
  have henabled : ∀ before a after u, as = before ++ a :: after → run m s before = some u →
      (C u a ↔ D u a) := by
    rintro before a after u rfl hu
    obtain ⟨v, hv, _⟩ := Option.bind_eq_some_iff.mp (run_from hu hrun)
    exact h u a v hv
  constructor
  · intro hC before a after u he hu
    exact (henabled before a after u he hu).mp (hC before a after u he hu)
  · intro hD before a after u he hu
    exact (henabled before a after u he hu).mpr (hD before a after u he hu)

theorem meets_and {m : Machine σ α} {C D : σ → α → Prop} {s : σ} {as : List α} :
    Meets m (fun u a => C u a ∧ D u a) s as ↔ Meets m C s as ∧ Meets m D s as := by
  constructor
  · intro h
    exact ⟨fun before a after u he hu => (h before a after u he hu).1,
      fun before a after u he hu => (h before a after u he hu).2⟩
  · rintro ⟨hC, hD⟩ before a after u he hu
    exact ⟨hC before a after u he hu, hD before a after u he hu⟩

/-- A condition on the run of the second machine of a simulation is one on the run of the
first, if the first one never gets stuck. -/
theorem meets_simulation {τ : Type*} {m : Machine σ α} {m' : Machine τ β} {f : σ → τ} {g : α → β}
    {s : σ} (hsim : ∀ as t, run m s as = some t → run m' (f s) (as.map g) = some (f t))
    (htotal : ∀ as, ∃ t, run m s as = some t) (C : τ → β → Prop) (as : List α) :
    Meets m' C (f s) (as.map g) ↔ Meets m (fun u a => C (f u) (g a)) s as := by
  constructor
  · rintro h before a after u rfl hu
    exact h (before.map g) (g a) (after.map g) (f u) (by rw [List.map_append, List.map_cons])
      (hsim before u hu)
  · intro h before b after t he ht
    obtain ⟨before, rest, rfl, rfl, hrest⟩ := List.map_eq_append_iff.mp he
    obtain ⟨a, after, rfl, rfl, rfl⟩ := List.map_eq_cons_iff.mp hrest
    obtain ⟨u, hu⟩ := htotal before
    obtain rfl := Option.some.inj ((hsim before u hu).symm.trans ht)
    exact h before a after u rfl hu

/-- A condition that can be computed can be computed along a run. -/
instance decidableMeets (m : Machine σ α) (C : σ → α → Prop) [∀ s a, Decidable (C s a)] :
    (s : σ) → (as : List α) → Decidable (Meets m C s as)
  | s, [] => isTrue (meets_nil m C s)
  | s, a :: as =>
    match h : m s a with
    | none => decidable_of_iff (C s a)
        ⟨fun ha => meets_cons.mpr ⟨ha, fun _ ht => nomatch h.symm.trans ht⟩,
          fun hm => (meets_cons.mp hm).1⟩
    | some t =>
      have := decidableMeets m C t as
      decidable_of_iff (C s a ∧ Meets m C t as)
        ⟨fun ha => meets_cons.mpr ⟨ha.1, fun _ hu => Option.some.inj (h.symm.trans hu) ▸ ha.2⟩,
          fun hm => ⟨(meets_cons.mp hm).1, (meets_cons.mp hm).2 t h⟩⟩

/-- What every step that meets the condition preserves holds at the end of
every run whose steps all meet it. -/
theorem run_invariant_of_meets {m : Machine σ α} {C : σ → α → Prop} {I : σ → Prop}
    (hstep : ∀ s a t, I s → C s a → m s a = some t → I t) {s t : σ} {as : List α}
    (hs : I s) (hC : Meets m C s as) (hrun : run m s as = some t) : I t := by
  induction as using List.reverseRecOn generalizing t with
  | nil => exact Option.some.inj hrun ▸ hs
  | append_singleton as a ih =>
    obtain ⟨u, hu, ha⟩ := run_concat_eq_some.mp hrun
    exact hstep u a t (ih hC.prefix hu) (hC.last hu) ha

/-! ### Properties of all states of a run -/

/-- `P` holds in every state that the run passes through, the first one included. -/
def Always (m : Machine σ α) (P : σ → Prop) (s : σ) (as : List α) : Prop :=
  ∀ before after t, as = before ++ after → run m s before = some t → P t

theorem always_nil {m : Machine σ α} {P : σ → Prop} {s : σ} : Always m P s [] ↔ P s := by
  constructor
  · intro h
    exact h [] [] s rfl rfl
  · intro h before after t he ht
    obtain ⟨rfl, _⟩ := List.append_eq_nil_iff.mp he.symm
    exact Option.some.inj ht ▸ h

theorem always_cons {m : Machine σ α} {P : σ → Prop} {s : σ} {a : α} {as : List α} :
    Always m P s (a :: as) ↔ P s ∧ ∀ t, m s a = some t → Always m P t as := by
  constructor
  · intro h
    refine ⟨h [] (a :: as) s rfl rfl, fun t ht before after u he hu => ?_⟩
    apply h (a :: before) after u (by rw [he, List.cons_append])
    rw [run_cons, ht, Option.bind_some, hu]
  · rintro ⟨hs, hrest⟩ before after u he hu
    cases before with
    | nil => exact Option.some.inj hu ▸ hs
    | cons b before =>
      obtain ⟨rfl, rfl⟩ := List.cons.inj he
      obtain ⟨t, ht, hu⟩ := Option.bind_eq_some_iff.mp hu
      exact hrest t ht before after u rfl hu

/-- Where `C` says of each step exactly whether it keeps `P`, a run keeps `P` throughout
exactly when all its steps meet `C`. -/
theorem always_iff_meets {m : Machine σ α} {I P : σ → Prop} {C : σ → α → Prop}
    (hstep : ∀ s a t, I s → P s → m s a = some t → I t ∧ (P t ↔ C s a)) {s t : σ} {as : List α}
    (hI : I s) (hP : P s) (hrun : run m s as = some t) : Always m P s as ↔ Meets m C s as := by
  induction as generalizing s with
  | nil => exact ⟨fun _ => meets_nil m C s, fun _ => always_nil.mpr hP⟩
  | cons a as ih =>
    obtain ⟨u, hu, hrest⟩ := Option.bind_eq_some_iff.mp hrun
    obtain ⟨hIu, hPu⟩ := hstep s a u hI hP hu
    rw [always_cons, meets_cons]
    constructor
    · rintro ⟨_, h⟩
      have hu' := h u hu
      have hPu' := hu' [] as u rfl rfl
      refine ⟨hPu.mp hPu', fun v hv => ?_⟩
      obtain rfl := Option.some.inj (hu.symm.trans hv)
      exact (ih hIu hPu' hrest).mp hu'
    · rintro ⟨ha, h⟩
      refine ⟨hP, fun v hv => ?_⟩
      obtain rfl := Option.some.inj (hu.symm.trans hv)
      exact (ih hIu (hPu.mpr ha) hrest).mpr (h u hu)

/-! ### Observations along a run -/

/-- What the steps of a run show, in the order of the steps. -/
def observe (m : Machine σ α) (f : σ → α → List β) : σ → List α → List β
  | _, [] => []
  | s, a :: as => f s a ++ ((m s a).map fun t => observe m f t as).getD []

/-- A run of two parts shows what they show. -/
theorem observe_append {m : Machine σ α} (f : σ → α → List β) {s u : σ} {as : List α}
    (hu : run m s as = some u) (bs : List α) :
    observe m f s (as ++ bs) = observe m f s as ++ observe m f u bs := by
  induction as generalizing s with
  | nil =>
    obtain rfl := Option.some.inj hu
    rfl
  | cons b as ih =>
    obtain ⟨t, ht, hrest⟩ := Option.bind_eq_some_iff.mp hu
    simp only [List.cons_append, observe, ht, Option.map_some, Option.getD_some, ih hrest,
      List.append_assoc]

/-- The last step adds what it shows in the state before it. -/
theorem observe_concat {m : Machine σ α} (f : σ → α → List β) {s u : σ} {as : List α}
    (hu : run m s as = some u) (a : α) :
    observe m f s (as ++ [a]) = observe m f s as ++ f u a := by
  rw [observe_append f hu]
  cases h : m u a <;> simp [observe, h]

/-- The invariant rule for a property of the state together with what was shown so far, where
the labels are restricted. -/
theorem run_observe_invariant {m : Machine σ α} {f : σ → α → List β} {C : α → Prop}
    {I : σ → List β → Prop}
    (hstep : ∀ s log a t, I s log → C a → m s a = some t → I t (log ++ f s a))
    {s t : σ} {log : List β} {as : List α} (hs : I s log) (hC : ∀ a ∈ as, C a)
    (hrun : run m s as = some t) : I t (log ++ observe m f s as) := by
  induction as generalizing s log with
  | nil =>
    obtain rfl := Option.some.inj hrun
    rwa [observe, List.append_nil]
  | cons a as ih =>
    obtain ⟨u, hu, hrest⟩ := Option.bind_eq_some_iff.mp hrun
    have hI := hstep s log a u hs (hC a List.mem_cons_self) hu
    have := ih hI (fun b hb => hC b (List.mem_cons_of_mem a hb)) hrest
    rwa [observe, hu, Option.map_some, Option.getD_some, ← List.append_assoc]

/-- What holds of all that a run shows holds of what each of its steps shows. -/
theorem forall_mem_observe {m : Machine σ α} {f : σ → α → List β} {P : β → Prop} {s : σ}
    {as : List α} : (∀ b ∈ observe m f s as, P b) ↔ Meets m (fun u a => ∀ b ∈ f u a, P b) s as := by
  induction as generalizing s with
  | nil => exact ⟨fun _ => meets_nil m _ s, fun _ _ hb => absurd hb List.not_mem_nil⟩
  | cons a as ih =>
    rw [meets_cons, observe, List.forall_mem_append]
    refine and_congr_right fun _ => ?_
    cases h : m s a with
    | none => simp
    | some t => simp [ih]

/-- A longer run shows more, never something else. -/
theorem observe_prefix {m : Machine σ α} (f : σ → α → List β) (s : σ) (as bs : List α) :
    observe m f s as <+: observe m f s (as ++ bs) := by
  induction as generalizing s with
  | nil => exact List.nil_prefix
  | cons a as ih =>
    simp only [List.cons_append, observe]
    apply (List.prefix_append_right_inj _).mpr
    cases m s a with
    | none => exact List.prefix_refl _
    | some t => exact ih t

end Machine

end DataPipeline
