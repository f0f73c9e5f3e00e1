import Mathlib.Data.List.AList
import Mathlib.Data.List.Perm.Subperm

/-!
# Tables from names to slot numbers

A slot table is an association list whose keys occur once. Besides lookup what
matters of it is whether two names ever share a slot (`Distinct`), whether
all its slots lie below a bound (`Below`), and whether every slot below the bound
is somebody's (`Fills`).
-/

namespace DataPipeline

/-- A finite map from names to slot numbers. -/
abbrev Slots (κ : Type*) := AList fun _ : κ => Nat

namespace Slots

variable {κ : Type*} [DecidableEq κ]

/-- The number of names in the table. -/
def size (s : Slots κ) : Nat := s.keys.length

/-- No two names share a slot. -/
def Distinct (s : Slots κ) : Prop :=
  ∀ n m i, s.lookup n = some i → s.lookup m = some i → n = m

/-- Every slot in use is less than `k`. -/
def Below (s : Slots κ) (k : Nat) : Prop := ∀ n i, s.lookup n = some i → i < k

omit [DecidableEq κ] in
@[simp] theorem size_empty : size (∅ : Slots κ) = 0 := rfl

theorem mem_of_lookup {s : Slots κ} {n : κ} {i : Nat} (h : s.lookup n = some i) : n ∈ s :=
  AList.lookup_isSome.mp (by simp only [h, Option.isSome_some])

theorem exists_lookup_of_mem {s : Slots κ} {n : κ} (h : n ∈ s) : ∃ i, s.lookup n = some i :=
  Option.isSome_iff_exists.mp (AList.lookup_isSome.mpr h)

theorem size_insert {s : Slots κ} {n : κ} (h : n ∉ s) (i : Nat) :
    size (s.insert n i) = s.size + 1 := by
  have he : s.keys.erase n = s.keys := List.erase_of_not_mem (mt AList.mem_keys.mpr h)
  simp only [size, AList.keys_insert, he, List.length_cons]

theorem size_erase {s : Slots κ} {n : κ} (h : n ∈ s) : size (s.erase n) = s.size - 1 := by
  simp only [size, AList.keys_erase, List.length_erase_of_mem (AList.mem_keys.mp h)]

theorem lookup_insert_eq_some {s : Slots κ} {n m : κ} {i j : Nat} :
    (s.insert n i).lookup m = some j ↔ (m = n ∧ j = i) ∨ (m ≠ n ∧ s.lookup m = some j) := by
  by_cases h : m = n
  · subst m
    simp only [AList.lookup_insert, Option.some.injEq, true_and, ne_eq, not_true_eq_false,
      false_and, or_false, eq_comm]
  · simp only [AList.lookup_insert_ne h, h, false_and, ne_eq, not_false_eq_true, true_and, false_or]

theorem lookup_erase_eq_some {s : Slots κ} {n m : κ} {j : Nat} :
    (s.erase n).lookup m = some j ↔ m ≠ n ∧ s.lookup m = some j := by
  by_cases h : m = n
  · subst m
    simp only [AList.lookup_erase, reduceCtorEq, ne_eq, not_true_eq_false, false_and]
  · simp only [AList.lookup_erase_ne h, ne_eq, h, not_false_eq_true, true_and]

theorem distinct_empty : Distinct (∅ : Slots κ) := by
  intro n m i h
  simp only [AList.lookup_empty, reduceCtorEq] at h

/-- A new name keeps the table distinct exactly when its slot is in nobody's use. -/
theorem distinct_insert_iff {s : Slots κ} {n : κ} {i : Nat} (hn : n ∉ s) (hs : s.Distinct) :
    Distinct (s.insert n i) ↔ ∀ m, s.lookup m ≠ some i := by
  constructor
  · intro h m hm
    have hne : m ≠ n := fun he => hn (he ▸ mem_of_lookup hm)
    exact hne (h m n i (lookup_insert_eq_some.mpr (Or.inr ⟨hne, hm⟩)) (AList.lookup_insert s))
  · intro hfree a b j ha hb
    rcases lookup_insert_eq_some.mp ha with ⟨rfl, rfl⟩ | ⟨_, ha'⟩
    · rcases lookup_insert_eq_some.mp hb with ⟨rfl, _⟩ | ⟨_, hb'⟩
      · rfl
      · exact absurd hb' (hfree b)
    · rcases lookup_insert_eq_some.mp hb with ⟨rfl, rfl⟩ | ⟨_, hb'⟩
      · exact absurd ha' (hfree a)
      · exact hs a b j ha' hb'

theorem Distinct.erase {s : Slots κ} (hs : s.Distinct) (n : κ) : Distinct (s.erase n) := by
  intro a b i ha hb
  exact hs a b i (lookup_erase_eq_some.mp ha).2 (lookup_erase_eq_some.mp hb).2

theorem Below.mono {s : Slots κ} {k l : Nat} (hs : s.Below k) (h : k ≤ l) : s.Below l :=
  fun n i hi => Nat.lt_of_lt_of_le (hs n i hi) h

theorem Below.erase {s : Slots κ} {k : Nat} (hs : s.Below k) (n : κ) : Below (s.erase n) k :=
  fun m i hi => hs m i (lookup_erase_eq_some.mp hi).2

theorem Below.insert {s : Slots κ} {k : Nat} (hs : s.Below k) {n : κ} {i : Nat} (hi : i < k) :
    Below (s.insert n i) k := by
  intro m j hj
  rcases lookup_insert_eq_some.mp hj with ⟨_, rfl⟩ | ⟨_, hj⟩
  · exact hi
  · exact hs m j hj

/-- Slots below `k` leave the slot `k` itself free. -/
theorem Below.free {s : Slots κ} {k : Nat} (hs : s.Below k) (n : κ) : s.lookup n ≠ some k :=
  fun h => Nat.lt_irrefl k (hs n k h)

/-- The table is a bijection between its names and the slots below `k`. -/
def Fills (s : Slots κ) (k : Nat) : Prop :=
  (∀ n ∈ s, ∃ i < k, s.lookup n = some i) ∧ ∀ i < k, ∃! n, s.lookup n = some i

theorem nodup_slots {s : Slots κ} (hs : s.Distinct) :
    (s.entries.map Sigma.snd).Nodup := by
  apply List.Nodup.map_on _ s.nodupKeys.nodup
  rintro ⟨n, i⟩ hn ⟨m, j⟩ hm hij
  obtain rfl : i = j := hij
  obtain rfl := hs n m i (AList.mem_lookup_iff.mpr hn) (AList.mem_lookup_iff.mpr hm)
  rfl

/-- As many names as slots, each on a slot of its own, leave no slot over. -/
theorem Distinct.fills {s : Slots κ} {k : Nat} (hs : s.Distinct) (hb : s.Below k)
    (hk : s.size = k) : s.Fills k := by
  have hsub : s.entries.map Sigma.snd ⊆ List.range k := by
    intro i hi
    obtain ⟨⟨n, j⟩, hn, rfl⟩ := List.mem_map.mp hi
    exact List.mem_range.mpr (hb n j (AList.mem_lookup_iff.mpr hn))
  have hlen : (s.entries.map Sigma.snd).length = k := by
    rw [List.length_map, ← hk, size, AList.keys, List.keys, List.length_map]
  have hperm : (s.entries.map Sigma.snd).Perm (List.range k) := by
    apply (List.subperm_of_subset (nodup_slots hs) hsub).perm_of_length_le
    rw [hlen, List.length_range]
  constructor
  · intro n hn
    obtain ⟨i, hi⟩ := exists_lookup_of_mem hn
    exact ⟨i, hb n i hi, hi⟩
  · intro i hi
    obtain ⟨⟨n, j⟩, hn, rfl⟩ := List.mem_map.mp (hperm.mem_iff.mpr (List.mem_range.mpr hi))
    have hl : s.lookup n = some j := AList.mem_lookup_iff.mpr hn
    exact ⟨n, hl, fun m hm => hs m n j hm hl⟩

/-! ### Handing a slot over

The name `e` gives its slot to the new name `n` and leaves the table. -/

/-- The table after `e`, holding slot `i`, was replaced by `n`. -/
def handOver (s : Slots κ) (e n : κ) (i : Nat) : Slots κ := (s.insert n i).erase e

theorem lookup_handOver_eq_some {s : Slots κ} {e n m : κ} {i j : Nat} :
    (s.handOver e n i).lookup m = some j ↔
      m ≠ e ∧ ((m = n ∧ j = i) ∨ (m ≠ n ∧ s.lookup m = some j)) := by
  rw [handOver, lookup_erase_eq_some, lookup_insert_eq_some]

theorem size_handOver {s : Slots κ} {e n : κ} {i : Nat} (hn : n ∉ s) (he : e ∈ s) :
    size (s.handOver e n i) = s.size := by
  rw [handOver, size_erase ((AList.mem_insert s).mpr (Or.inr he)), size_insert hn]
  rfl

theorem Distinct.handOver {s : Slots κ} (hs : s.Distinct) {e n : κ} {i : Nat}
    (he : s.lookup e = some i) : Distinct (s.handOver e n i) := by
  intro a b j ha hb
  obtain ⟨hae, ⟨rfl, rfl⟩ | ⟨_, ha'⟩⟩ := lookup_handOver_eq_some.mp ha
  · obtain ⟨hbe, ⟨rfl, _⟩ | ⟨_, hb'⟩⟩ := lookup_handOver_eq_some.mp hb
    · rfl
    · exact absurd (hs b e j hb' he) hbe
  · obtain ⟨_, ⟨rfl, rfl⟩ | ⟨_, hb'⟩⟩ := lookup_handOver_eq_some.mp hb
    · exact absurd (hs a e j ha' he) hae
    · exact hs a b j ha' hb'

theorem Below.handOver {s : Slots κ} {k : Nat} (hs : s.Below k) {e n : κ} {i : Nat}
    (he : s.lookup e = some i) : Below (s.handOver e n i) k :=
  (hs.insert (hs e i he)).erase e

end Slots

end DataPipeline
