import Mathlib.Data.List.Basic
import Mathlib.Data.List.Count

/-!
# A loop over a list that its own body shortens

The loop has an index and goes on while the index is below the length of a list. Its
body looks up what to do in a copy of the list that was taken before, and takes some of
the entries out of the list itself. So the bound comes down while the index goes up, and
the loop ends before the entries at the end of the copy are visited. The first entry to
be taken out is always reached.
-/

namespace DataPipeline.ShrinkingLoop

variable {α : Type*} (gone : α → Bool) (l : List α)

/-- What is left of the list after the first `i` entries of the copy were visited. -/
def left (i : Nat) : List α := (l.take i).filter (fun a => !gone a) ++ l.drop i

/-- The loop does not end before entry `i` of the copy, if it gets there. -/
def Reached (i : Nat) : Prop := i < (left gone l i).length

/-- The loop ends before entry `m` of the copy. -/
def Stops (m : Nat) : Prop := ¬ Reached gone l m ∧ ∀ i < m, Reached gone l i

variable {gone : α → Bool} {l : List α}

@[simp] theorem left_zero : left gone l 0 = l := by simp [left]

theorem left_eq_cons {i : Nat} {a : α} (h : l[i]? = some a) :
    left gone l i = (l.take i).filter (fun a => !gone a) ++ a :: l.drop (i + 1) := by
  obtain ⟨hlt, rfl⟩ := List.getElem?_eq_some_iff.mp h
  rw [left, List.drop_eq_getElem_cons hlt]

theorem left_succ {i : Nat} {a : α} (h : l[i]? = some a) :
    left gone l (i + 1) = (l.take i).filter (fun a => !gone a) ++
      ((if gone a then [] else [a]) ++ l.drop (i + 1)) := by
  rw [left, List.take_add_one, h, List.filter_append, List.append_assoc]
  cases hg : gone a <;> simp [hg]

theorem left_succ_of_gone {i : Nat} {a : α} (h : l[i]? = some a) (hg : gone a = true) :
    left gone l (i + 1) = (l.take i).filter (fun a => !gone a) ++ l.drop (i + 1) := by
  rw [left_succ h, if_pos hg, List.nil_append]

theorem left_succ_of_not_gone {i : Nat} {a : α} (h : l[i]? = some a) (hg : gone a = false) :
    left gone l (i + 1) = left gone l i := by
  rw [left_succ h, left_eq_cons h, hg]
  simp

theorem length_left_add {i : Nat} (hi : i ≤ l.length) :
    (left gone l i).length + (l.take i).countP gone = l.length := by
  have hsplit := (l.take i).length_eq_countP_add_countP gone
  have hkept : ((l.take i).filter fun a => !gone a).length =
      (l.take i).countP fun a => decide ¬ gone a = true := by
    rw [← List.countP_eq_length_filter]
    congr 1
    ext a
    simp
  rw [List.length_take, Nat.min_eq_left hi] at hsplit
  rw [left, List.length_append, hkept, List.length_drop]
  omega

/-- The loop does not end before an entry as long as there are more entries than this one
and the entries taken out before it. -/
theorem reached_iff {i : Nat} :
    Reached gone l i ↔ i + (l.take i).countP gone < l.length := by
  unfold Reached
  rcases Nat.le_total i l.length with hi | hi
  · have hsum : (left gone l i).length + (l.take i).countP gone = l.length := length_left_add hi
    omega
  · have hle : (left gone l i).length ≤ l.length := by
      rw [left, List.take_of_length_le hi, List.drop_eq_nil_of_le hi, List.append_nil]
      exact List.length_filter_le ..
    omega

theorem Reached.lt_length {i : Nat} (h : Reached gone l i) : i < l.length := by
  rw [reached_iff] at h
  omega

theorem Reached.of_le {i j : Nat} (h : Reached gone l j) (hij : i ≤ j) : Reached gone l i := by
  rw [reached_iff] at h ⊢
  have hsub : (l.take i).Sublist (l.take j) := List.take_sublist_take_left hij
  have := hsub.countP_le (p := gone)
  omega

/-- The first entry to be taken out is reached. -/
theorem reached_first {i : Nat} (hi : i < l.length) (h : ∀ a ∈ l.take i, gone a = false) :
    Reached gone l i := by
  rw [reached_iff, List.countP_eq_zero.mpr (by simpa using h)]
  exact hi

theorem Stops.reached_iff {m i : Nat} (h : Stops gone l m) : Reached gone l i ↔ i < m := by
  constructor
  · intro hi
    by_contra hle
    exact h.1 (hi.of_le (Nat.le_of_not_lt hle))
  · exact h.2 i

theorem mem_drop_iff {m : Nat} {a : α} : a ∈ l.drop m ↔ ∃ i, m ≤ i ∧ l[i]? = some a := by
  rw [List.mem_iff_getElem?]
  constructor
  · rintro ⟨i, hi⟩
    rw [List.getElem?_drop] at hi
    exact ⟨m + i, by omega, hi⟩
  · rintro ⟨i, hmi, hi⟩
    refine ⟨i - m, ?_⟩
    rw [List.getElem?_drop, Nat.add_sub_cancel' hmi, hi]

theorem Stops.forall_mem_drop {m : Nat} (h : Stops gone l m) {P : α → Prop} :
    (∀ a ∈ l.drop m, P a) ↔ ∀ i a, l[i]? = some a → ¬ Reached gone l i → P a := by
  constructor
  · intro hP i a hi hr
    rw [h.reached_iff, Nat.not_lt] at hr
    exact hP a (mem_drop_iff.mpr ⟨i, hr, hi⟩)
  · intro hP a ha
    obtain ⟨i, hmi, hi⟩ := mem_drop_iff.mp ha
    exact hP i a hi (by rw [h.reached_iff]; omega)

theorem filter_take_drop (p : α → Bool) (m : Nat) :
    l.filter p = (l.take m).filter p ++ (l.drop m).filter p := by
  rw [← List.filter_append, List.take_append_drop]

/-- The loop takes out all it should exactly when there is none of it in the part that is
not reached. -/
theorem Stops.left_eq_filter_iff {m : Nat} (h : Stops gone l m) :
    left gone l m = l.filter (fun a => !gone a) ↔
      ∀ i a, l[i]? = some a → ¬ Reached gone l i → gone a = false := by
  rw [← h.forall_mem_drop]
  rw [filter_take_drop _ m, left, List.append_cancel_left_eq, eq_comm, List.filter_eq_self]
  simp

/-- The loop visits all it should exactly when there is none of it in the part that is not
reached. -/
theorem Stops.filter_take_eq_iff {m : Nat} (h : Stops gone l m) (p : α → Bool) :
    (l.take m).filter p = l.filter p ↔
      ∀ i a, l[i]? = some a → ¬ Reached gone l i → p a = false := by
  rw [← h.forall_mem_drop]
  rw [filter_take_drop (l := l) p m, List.self_eq_append_right, List.filter_eq_nil_iff]
  simp

/-- What is not to be taken out stays, in its order. -/
theorem filter_left (i : Nat) :
    (left gone l i).filter (fun a => !gone a) = l.filter (fun a => !gone a) := by
  rw [filter_take_drop (l := l) _ i, left, List.filter_append, List.filter_filter]
  simp

/-- If there is something to be taken out, at least one entry is. -/
theorem Stops.countP_left_lt {m : Nat} (h : Stops gone l m) (hpos : 0 < l.countP gone) :
    (left gone l m).countP gone < l.countP gone := by
  have hkept : ((l.take m).filter fun a => !gone a).countP gone = 0 := by
    rw [List.countP_eq_zero]
    intro a ha
    simpa using (List.mem_filter.mp ha).2
  have hsplit : l.countP gone = (l.take m).countP gone + (l.drop m).countP gone := by
    rw [← List.countP_append, List.take_append_drop]
  have htaken : 0 < (l.take m).countP gone := by
    by_contra hzero
    have hnone : ∀ a ∈ l.take m, gone a = false := by
      have := List.countP_eq_zero.mp (Nat.eq_zero_of_not_pos hzero)
      simpa using this
    rcases Nat.lt_or_ge m l.length with hlt | hge
    · exact h.1 (reached_first hlt hnone)
    · rw [List.take_of_length_le hge] at hzero
      exact hzero hpos
  rw [left, List.countP_append, hkept]
  omega

end DataPipeline.ShrinkingLoop
