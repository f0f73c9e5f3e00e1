import Mathlib.Data.Set.Finite.Basic
import Mathlib.Data.Fintype.Card
import Mathlib.Logic.Relation
import Mathlib.Order.WellFounded

/-!
# Cycles of a relation

A relation has a cycle if something is related to itself in one or more steps. This is the
same as a finite set, not empty, in which everything has a successor. Where a rank grows
along the relation there is no cycle.
-/

namespace DataPipeline

/-- Something is related to itself in one or more steps. -/
def Cyclic {θ : Type*} (r : θ → θ → Prop) : Prop := ∃ t, Relation.TransGen r t t

/-- The set is not empty, and every member has a successor in it. -/
structure ClosedUnder {θ : Type*} (r : θ → θ → Prop) (s : Finset θ) : Prop where
  nonempty : s.Nonempty
  successor : ∀ t ∈ s, ∃ u ∈ s, r t u

variable {θ : Type*} {r r' : θ → θ → Prop}

theorem Cyclic.mono (h : Cyclic r) (hr : ∀ t u, r t u → r' t u) : Cyclic r' := by
  obtain ⟨t, ht⟩ := h
  exact ⟨t, Relation.TransGen.mono hr t t ht⟩

/-- What holds of every successor holds all along a cycle. -/
theorem Cyclic.restrict_successors {P : θ → Prop} (h : Cyclic r) (hP : ∀ t u, r t u → P u) :
    Cyclic fun t u => P t ∧ r t u := by
  obtain ⟨t, ht⟩ := h
  obtain ⟨v, _, hlast⟩ := Relation.TransGen.tail'_iff.mp ht
  have hpath : ∀ u, Relation.TransGen r t u → Relation.TransGen (fun t u => P t ∧ r t u) t u := by
    intro u hu
    induction hu with
    | single hr => exact .single ⟨hP v t hlast, hr⟩
    | tail hu hr ih =>
      obtain ⟨x, _, hx⟩ := Relation.TransGen.tail'_iff.mp hu
      exact .tail ih ⟨hP x _ hx, hr⟩
  exact ⟨t, hpath t ht⟩

/-- A rank that grows along the relation leaves no room for a cycle. -/
theorem not_cyclic_of_rank (rank : θ → Nat) (h : ∀ t u, r t u → rank t < rank u) : ¬ Cyclic r := by
  rintro ⟨t, ht⟩
  have hlt : ∀ u, Relation.TransGen r t u → rank t < rank u := by
    intro u hu
    induction hu with
    | single hr => exact h _ _ hr
    | tail _ hr ih => exact Nat.lt_trans ih (h _ _ hr)
  exact Nat.lt_irrefl _ (hlt t ht)

/-- The members of a path, each with its successor. -/
theorem exists_path_set {a b : θ} (h : Relation.TransGen r a b) :
    ∃ s : Finset θ, a ∈ s ∧ ∀ t ∈ s, ∃ u, r t u ∧ (u ∈ s ∨ u = b) := by
  classical
  induction h using Relation.TransGen.head_induction_on with
  | @single a hr =>
    refine ⟨{a}, Finset.mem_singleton_self a, fun t ht => ⟨b, ?_, Or.inr rfl⟩⟩
    rwa [Finset.mem_singleton.mp ht]
  | @head a c hr _ ih =>
    obtain ⟨s, hc, hs⟩ := ih
    refine ⟨insert a s, Finset.mem_insert_self a s, fun t ht => ?_⟩
    rcases Finset.mem_insert.mp ht with rfl | ht
    · exact ⟨c, hr, Or.inl (Finset.mem_insert_of_mem hc)⟩
    · obtain ⟨u, hu, hmem⟩ := hs t ht
      exact ⟨u, hu, hmem.imp_left Finset.mem_insert_of_mem⟩

theorem Cyclic.exists_closed (h : Cyclic r) : ∃ s, ClosedUnder r s := by
  obtain ⟨t, ht⟩ := h
  obtain ⟨s, hmem, hs⟩ := exists_path_set ht
  refine ⟨s, ⟨t, hmem⟩, fun x hx => ?_⟩
  obtain ⟨u, hu, hus | rfl⟩ := hs x hx
  · exact ⟨u, hus, hu⟩
  · exact ⟨u, hmem, hu⟩

/-- Successors cannot be followed for ever through a finite set without a repetition. -/
theorem ClosedUnder.cyclic {s : Finset θ} (h : ClosedUnder r s) : Cyclic r := by
  by_contra hno
  let after : {t // t ∈ s} → {t // t ∈ s} → Prop := fun t u => Relation.TransGen r u t
  have : IsTrans _ after := ⟨fun _ _ _ h h' => h'.trans h⟩
  have : Std.Irrefl after := ⟨fun t ht => hno ⟨t, ht⟩⟩
  obtain ⟨t, ht⟩ := h.nonempty
  obtain ⟨m, _, hmin⟩ :=
    (Finite.wellFounded_of_trans_of_irrefl after).has_min Set.univ ⟨⟨t, ht⟩, trivial⟩
  obtain ⟨u, hu, hmu⟩ := h.successor m m.2
  exact hmin ⟨u, hu⟩ trivial (.single hmu)

/-- On a cycle everything is a successor and has one. -/
theorem Cyclic.restrict {P Q : θ → Prop} (h : Cyclic r) (hP : ∀ t u, r t u → P u)
    (hQ : ∀ t u, r t u → Q t) : Cyclic fun t u => P t ∧ r t u ∧ Q u := by
  obtain ⟨s, hs⟩ := (h.restrict_successors hP).exists_closed
  refine ClosedUnder.cyclic (s := s) ⟨hs.nonempty, fun t ht => ?_⟩
  obtain ⟨u, hu, hPt, htu⟩ := hs.successor t ht
  obtain ⟨v, _, _, huv⟩ := hs.successor u hu
  exact ⟨u, hu, hPt, htu, hQ u v huv⟩

/-- Where successors are a matter of a label, one member for each label is enough. -/
theorem ClosedUnder.exists_injOn {κ : Type*} [DecidableEq κ] {s : Finset θ} (h : ClosedUnder r s)
    (label : θ → κ) (hr : ∀ t u v, r t u → label u = label v → r t v) :
    ∃ s', ClosedUnder r s' ∧ Set.InjOn label s' := by
  obtain ⟨s', hsub, hinj, himage⟩ := Finset.exists_subset_injOn_image_eq_of_surjOn (f := label)
    s (s.image label) (by simp [Set.SurjOn])
  have hrep : ∀ u ∈ s, ∃ v ∈ s', label v = label u := by
    intro u hu
    exact Finset.mem_image.mp (himage ▸ Finset.mem_image_of_mem label hu)
  refine ⟨s', ⟨?_, fun t ht => ?_⟩, hinj⟩
  · obtain ⟨t, ht⟩ := h.nonempty
    obtain ⟨v, hv, _⟩ := hrep t ht
    exact ⟨v, hv⟩
  · obtain ⟨u, hu, htu⟩ := h.successor t (hsub ht)
    obtain ⟨v, hv, hlabel⟩ := hrep u hu
    exact ⟨v, hv, hr t u v htu hlabel.symm⟩

end DataPipeline
