import Mathlib.Data.List.Infix
import Mathlib.Data.List.TakeWhile

/-!
# Lines of a text

Messages are written one after the other, each ended by a separator, and read back line by
line. A message that has separators itself comes back in pieces; but what has none occurs
in a piece exactly if it occurs in a message.
-/

namespace DataPipeline.Lines

variable {α : Type*} [DecidableEq α] {sep : α}

/-! ### Reading -/

/-- All lines of a text. A separator ends a line and is taken out; behind the last one there is no
line if there is nothing. -/
def getlines (sep : α) : List α → List (List α)
  | [] => []
  | c :: cs =>
    if c = sep then [] :: getlines sep cs
    else match getlines sep cs with
      | [] => [[c]]
      | line :: lines => (c :: line) :: lines

/-- A line goes up to the first separator, and reading goes on behind it. -/
theorem getlines_of_ne_nil {s : List α} (h : s ≠ []) :
    getlines sep s = s.takeWhile (· ≠ sep) :: getlines sep (s.dropWhile (· ≠ sep)).tail := by
  induction s with
  | nil => exact absurd rfl h
  | cons c cs ih =>
    by_cases hc : c = sep
    · simp [getlines, hc]
    · cases cs with
      | nil => simp [getlines, hc]
      | cons d ds =>
        rw [getlines, if_neg hc, ih (List.cons_ne_nil d ds)]
        simp [hc]

theorem getlines_eq_nil {s : List α} : getlines sep s = [] ↔ s = [] := by
  constructor
  · intro h
    by_contra hne
    rw [getlines_of_ne_nil hne] at h
    cases h
  · rintro rfl
    rfl

/-! ### What occurs in a line -/

omit [DecidableEq α] in
theorem prefix_takeWhile_iff {q : α → Bool} {p s : List α} (hp : ∀ x ∈ p, q x = true) :
    p <+: s.takeWhile q ↔ p <+: s := by
  constructor
  · exact fun h => h.trans (List.takeWhile_prefix q)
  · rintro ⟨t, rfl⟩
    rw [List.takeWhile_append_of_pos hp]
    exact List.prefix_append _ _

/-- What has no separator and is not empty occurs in a text exactly if it occurs in a line. -/
theorem infix_getlines_iff {p : List α} (hsep : sep ∉ p) (hne : p ≠ []) {s : List α} :
    (∃ line ∈ getlines sep s, p <:+: line) ↔ p <:+: s := by
  induction s with
  | nil =>
    refine iff_of_false ?_ fun h => hne (List.infix_nil.mp h)
    rintro ⟨_, hm, _⟩
    exact absurd hm List.not_mem_nil
  | cons c cs ih =>
    rw [List.infix_cons_iff, ← ih, getlines]
    split
    · rename_i hc
      -- the text begins with a separator, and what occurs does not
      have hnot : ¬ p <+: c :: cs := fun h => by
        obtain ⟨x, p, rfl⟩ := List.exists_cons_of_ne_nil hne
        obtain ⟨rfl, _⟩ := List.cons_prefix_cons.mp h
        exact hsep (hc ▸ List.mem_cons_self)
      rw [List.exists_mem_cons_iff, List.infix_nil, or_iff_right hne, or_iff_right hnot]
    · rename_i hc
      have hall : ∀ x ∈ p, decide (x ≠ sep) = true := fun x hx =>
        decide_eq_true fun he => hsep (he ▸ hx)
      have hfirst : p <+: c :: cs.takeWhile (· ≠ sep) ↔ p <+: c :: cs := by
        have htake : (c :: cs).takeWhile (· ≠ sep) = c :: cs.takeWhile (· ≠ sep) :=
          List.takeWhile_cons_of_pos (by simpa using hc)
        rw [← htake]
        exact prefix_takeWhile_iff hall
      by_cases hcs : cs = []
      · subst hcs
        simp [getlines, List.infix_cons_iff, hne]
      · rw [getlines_of_ne_nil hcs]
        simp only [List.exists_mem_cons_iff, List.infix_cons_iff, hfirst, or_assoc]

/-! ### Reading back what was written -/

/-- Messages written one after the other, each with a separator behind it. -/
def written (sep : α) (msgs : List (List α)) : List α := msgs.flatMap (· ++ [sep])

/-- A separator ends a line whatever comes next. -/
theorem getlines_append (a b : List α) :
    getlines sep (a ++ [sep] ++ b) = getlines sep (a ++ [sep]) ++ getlines sep b := by
  induction a with
  | nil => simp [getlines]
  | cons c a ih =>
    simp only [List.cons_append] at ih ⊢
    rw [getlines, getlines, ih]
    split
    · rfl
    · cases h : getlines sep (a ++ [sep]) with
      | nil => exact absurd (getlines_eq_nil.mp h) (by simp)
      | cons => rfl

theorem getlines_written (msgs : List (List α)) :
    getlines sep (written sep msgs) = msgs.flatMap fun m => getlines sep (m ++ [sep]) := by
  induction msgs with
  | nil => rfl
  | cons m msgs ih =>
    rw [written, List.flatMap_cons, getlines_append, List.flatMap_cons]
    exact congrArg _ ih

/-- What has no separator occurs in a line that is read exactly if it occurs in a message that was
written. -/
theorem infix_written_iff {p : List α} (hsep : sep ∉ p) {msgs : List (List α)} :
    (∃ line ∈ getlines sep (written sep msgs), p <:+: line) ↔ ∃ m ∈ msgs, p <:+: m := by
  have hone : ∀ m : List α, (∃ line ∈ getlines sep (m ++ [sep]), p <:+: line) ↔ p <:+: m := by
    intro m
    by_cases hne : p = []
    · subst hne
      have hread : getlines sep (m ++ [sep]) ≠ [] := fun h =>
        absurd (getlines_eq_nil.mp h) (by simp)
      obtain ⟨line, lines, hlines⟩ := List.exists_cons_of_ne_nil hread
      exact iff_of_true ⟨line, hlines ▸ List.mem_cons_self, List.nil_infix⟩ List.nil_infix
    · rw [infix_getlines_iff hsep hne, List.infix_concat_iff]
      refine or_iff_right fun h => ?_
      rcases List.suffix_concat_iff.mp h with rfl | ⟨t, rfl, _⟩
      · exact hne rfl
      · exact hsep (List.mem_append_right _ (List.mem_singleton_self _))
  rw [getlines_written]
  constructor
  · rintro ⟨line, hline, hp⟩
    obtain ⟨m, hm, hread⟩ := List.mem_flatMap.mp hline
    exact ⟨m, hm, (hone m).mp ⟨line, hread, hp⟩⟩
  · rintro ⟨m, hm, hp⟩
    obtain ⟨line, hread, hline⟩ := (hone m).mpr hp
    exact ⟨line, List.mem_flatMap.mpr ⟨m, hm, hread⟩, hline⟩

end DataPipeline.Lines
