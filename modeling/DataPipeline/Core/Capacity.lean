import DataPipeline.Core.Slots
import Mathlib.Data.List.Dedup
import Mathlib.Data.List.Induction

/-!
# Filling a slot table of bounded size

Names are admitted in turn. Below the capacity a new name gets a new slot; at the
capacity it can only take over the slot of one reserved name, the spare, and once the
spare is gone the table is frozen. Which names are in the table at the end is decided
by the first names that fill it and the one name after them (`admitAll_cases`); from
this follow the conditions under which all names of a final, or of an initial, part of
the sequence keep a place.
-/

namespace DataPipeline.Slots

variable {κ : Type*} [DecidableEq κ]

/-- Admit one name to a table of capacity `cap`, where `spare` gives way. -/
def admitOne (cap : Nat) (spare : κ) (s : Slots κ) (n : κ) : Slots κ :=
  if n ∈ s then s
  else if s.size < cap then s.insert n s.size
  else match s.lookup spare with
    | some f => s.handOver spare n f
    | none => s

/-- Admit names in turn, starting with the empty table. -/
def admitAll (cap : Nat) (spare : κ) (ns : List κ) : Slots κ := ns.foldl (admitOne cap spare) ∅

variable {cap : Nat} {spare : κ}

@[simp] theorem admitAll_nil : admitAll cap spare [] = ∅ := rfl

theorem admitAll_concat (ns : List κ) (n : κ) :
    admitAll cap spare (ns ++ [n]) = admitOne cap spare (admitAll cap spare ns) n := by
  rw [admitAll, List.foldl_append]
  rfl

theorem admitOne_of_mem {s : Slots κ} {n : κ} (h : n ∈ s) : admitOne cap spare s n = s := by
  rw [admitOne, if_pos h]

theorem admitOne_of_lt {s : Slots κ} {n : κ} (h : n ∉ s) (hlt : s.size < cap) :
    admitOne cap spare s n = s.insert n s.size := by
  rw [admitOne, if_neg h, if_pos hlt]

theorem admitOne_of_spare {s : Slots κ} {n : κ} (h : n ∉ s) (hge : cap ≤ s.size) {f : Nat}
    (hf : s.lookup spare = some f) : admitOne cap spare s n = s.handOver spare n f := by
  rw [admitOne, if_neg h, if_neg (Nat.not_lt_of_le hge), hf]

theorem admitOne_of_frozen {s : Slots κ} (n : κ) (hge : cap ≤ s.size) (hs : spare ∉ s) :
    admitOne cap spare s n = s := by
  rw [admitOne, if_neg (Nat.not_lt_of_le hge), AList.lookup_eq_none.mpr hs]
  exact ite_self s

theorem mem_handOver {s : Slots κ} {e n m : κ} {f : Nat} :
    m ∈ s.handOver e n f ↔ m ≠ e ∧ (m = n ∨ m ∈ s) := by
  rw [handOver, AList.mem_erase, AList.mem_insert]

/-- The number of different names of a list. -/
def distinctCount (ns : List κ) : Nat := ns.dedup.length

theorem distinctCount_concat (ns : List κ) (n : κ) :
    distinctCount (ns ++ [n]) = if n ∈ ns then distinctCount ns else distinctCount ns + 1 := by
  unfold distinctCount
  have h : (ns ++ [n]).dedup.length = (n :: ns).dedup.length :=
    (List.perm_append_singleton n ns).dedup.length_eq
  rw [h]
  split
  · rename_i hn
    rw [List.dedup_cons_of_mem hn]
  · rename_i hn
    rw [List.dedup_cons_of_notMem hn, List.length_cons]

theorem distinctCount_le_append (ns ms : List κ) :
    distinctCount ns ≤ distinctCount (ns ++ ms) := by
  induction ms using List.reverseRecOn with
  | nil => rw [List.append_nil]
  | append_singleton ms m ih =>
    rw [← List.append_assoc, distinctCount_concat]
    split <;> omega

theorem distinctCount_of_nodup {ns : List κ} (h : ns.Nodup) : distinctCount ns = ns.length := by
  rw [distinctCount, h.dedup]

/-- The table is every name as long as they fit. -/
theorem admitAll_of_fit {ns : List κ} (h : distinctCount ns ≤ cap) :
    (∀ n, n ∈ admitAll cap spare ns ↔ n ∈ ns) ∧
      size (admitAll cap spare ns) = distinctCount ns := by
  induction ns using List.reverseRecOn with
  | nil =>
    refine ⟨fun n => ?_, rfl⟩
    simp only [admitAll_nil, AList.notMem_empty, List.not_mem_nil]
  | append_singleton ns n ih =>
    rw [distinctCount_concat] at h ⊢
    rw [admitAll_concat]
    split at h
    · rename_i hn
      obtain ⟨hm, hsz⟩ := ih h
      rw [admitOne_of_mem ((hm n).mpr hn), if_pos hn]
      refine ⟨fun m => ?_, hsz⟩
      rw [hm m, List.mem_append, List.mem_singleton]
      exact ⟨Or.inl, fun hor => hor.elim (fun hm => hm) fun he => he ▸ hn⟩
    · rename_i hn
      obtain ⟨hm, hsz⟩ := ih (by omega)
      have hn' : n ∉ admitAll cap spare ns := mt (hm n).mp hn
      rw [admitOne_of_lt hn' (by omega), if_neg hn, size_insert hn', hsz]
      refine ⟨fun m => ?_, rfl⟩
      rw [AList.mem_insert, hm m, List.mem_append, List.mem_singleton, or_comm]

/-- Either everything fits, or the table is what the names before the first one too many
left, in which the spare, if it was there, has given its place to that one. -/
theorem admitAll_cases (cap : Nat) (spare : κ) (ns : List κ) :
    (distinctCount ns ≤ cap ∧ ∀ n, n ∈ admitAll cap spare ns ↔ n ∈ ns) ∨
      ∃ p x r, ns = p ++ x :: r ∧ x ∉ p ∧ distinctCount p = cap ∧
        size (admitAll cap spare ns) = cap ∧
        ∀ n, n ∈ admitAll cap spare ns ↔
          if spare ∈ p then (n ∈ p ∧ n ≠ spare) ∨ n = x else n ∈ p := by
  induction ns using List.reverseRecOn with
  | nil => exact Or.inl ⟨Nat.zero_le _, (admitAll_of_fit (Nat.zero_le cap)).1⟩
  | append_singleton ns n ih =>
    by_cases hfit : distinctCount (ns ++ [n]) ≤ cap
    · exact Or.inl ⟨hfit, (admitAll_of_fit hfit).1⟩
    apply Or.inr
    rw [admitAll_concat]
    rcases ih with ⟨hle, hmem⟩ | ⟨p, x, r, rfl, hx, hp, hsz, hmem⟩
    · -- `n` is the first name too many
      rw [distinctCount_concat] at hfit
      have hn : n ∉ ns := fun hn => hfit (by rw [if_pos hn]; exact hle)
      rw [if_neg hn] at hfit
      have hcap : distinctCount ns = cap := by omega
      have hsize : size (admitAll cap spare ns) = cap := (admitAll_of_fit hle).2.trans hcap
      have hn' : n ∉ admitAll cap spare ns := mt (hmem n).mp hn
      refine ⟨ns, n, [], rfl, hn, hcap, ?_⟩
      by_cases hs : spare ∈ ns
      · obtain ⟨f, hf⟩ := exists_lookup_of_mem ((hmem spare).mpr hs)
        rw [admitOne_of_spare hn' (Nat.le_of_eq hsize.symm) hf,
          size_handOver hn' ((hmem spare).mpr hs)]
        refine ⟨hsize, fun m => ?_⟩
        rw [mem_handOver, if_pos hs, hmem m]
        constructor
        · rintro ⟨hne, rfl | hm⟩
          · exact Or.inr rfl
          · exact Or.inl ⟨hm, hne⟩
        · rintro (⟨hm, hne⟩ | rfl)
          · exact ⟨hne, Or.inr hm⟩
          · exact ⟨fun he => hn (he ▸ hs), Or.inl rfl⟩
      · rw [admitOne_of_frozen n (Nat.le_of_eq hsize.symm) (mt (hmem spare).mp hs)]
        refine ⟨hsize, fun m => ?_⟩
        rw [if_neg hs, hmem m]
    · -- the table is frozen
      have hspare : spare ∉ admitAll cap spare (p ++ x :: r) := by
        rw [hmem spare]
        split
        · rename_i hs
          rintro (⟨_, hne⟩ | he)
          · exact hne rfl
          · exact hx (he ▸ hs)
        · rename_i hs
          exact hs
      refine ⟨p, x, r ++ [n], by rw [List.append_assoc, List.cons_append], hx, hp, ?_⟩
      rw [admitOne_of_frozen n (Nat.le_of_eq hsz.symm) hspare]
      exact ⟨hsz, hmem⟩

/-- Only admitted names are in the table. -/
theorem mem_of_mem_admitAll {ns : List κ} {n : κ} (h : n ∈ admitAll cap spare ns) : n ∈ ns := by
  rcases admitAll_cases cap spare ns with ⟨_, hmem⟩ | ⟨p, x, r, rfl, _, _, _, hmem⟩
  · exact (hmem n).mp h
  · have hor := (hmem n).mp h
    rw [List.mem_append, List.mem_cons]
    split at hor
    · exact hor.elim (fun hp => Or.inl hp.1) fun he => Or.inr (Or.inl he)
    · exact Or.inl hor

/-- A name that occurs once, at the end, is not among the names before. -/
theorem count_concat_eq_one {ns : List κ} {z : κ} (h : (ns ++ [z]).count z = 1) : z ∉ ns := by
  rw [List.count_append, List.count_singleton_self] at h
  exact List.count_eq_zero.mp (by omega)

/-- A name that occurs once in all does not occur in two parts. -/
theorem not_mem_left_of_count_eq_one {os is : List κ} {n : κ} (h : (os ++ is).count n = 1)
    (hn : n ∈ is) : n ∉ os := by
  intro ho
  have h1 := List.count_pos_iff.mpr ho
  have h2 := List.count_pos_iff.mpr hn
  rw [List.count_append] at h
  omega

/-- Passing the name that is one too many takes the count over the capacity. -/
theorem lt_distinctCount {p r : List κ} {x : κ} (hx : x ∉ p) (hp : distinctCount p = cap) :
    cap < distinctCount (p ++ x :: r) := by
  have hmono := distinctCount_le_append (p ++ [x]) r
  rw [distinctCount_concat, if_neg hx, hp, List.append_assoc, List.singleton_append] at hmono
  exact hmono

/-- The names of a final part, none of which occurs twice, all have a place exactly when
there are at most `cap` different names, or one more and the spare is among the others. -/
theorem final_part_admitted_iff {os is : List κ} (hne : is ≠ [])
    (honce : ∀ n ∈ is, (os ++ is).count n = 1) :
    (∀ n ∈ is, n ∈ admitAll cap spare (os ++ is)) ↔
      distinctCount (os ++ is) ≤ cap ∨
        (distinctCount (os ++ is) = cap + 1 ∧ spare ∈ os) := by
  obtain ⟨init, z, rfl⟩ : ∃ init z, is = init ++ [z] :=
    ⟨is.dropLast, is.getLast hne, (List.dropLast_append_getLast hne).symm⟩
  have hz : z ∉ os ++ init := by
    have h1 := honce z (List.mem_append_right _ (List.mem_singleton_self z))
    rw [← List.append_assoc] at h1
    exact count_concat_eq_one h1
  have hcount : distinctCount (os ++ (init ++ [z])) = distinctCount (os ++ init) + 1 := by
    rw [← List.append_assoc, distinctCount_concat, if_neg hz]
  rcases admitAll_cases cap spare (os ++ (init ++ [z])) with
    ⟨hle, hmem⟩ | ⟨p, x, r, heq, hx, hp, _, hmem⟩
  · exact ⟨fun _ => Or.inl hle, fun _ n hn => (hmem n).mpr (List.mem_append_right _ hn)⟩
  rcases List.eq_nil_or_concat' r with rfl | ⟨r', y, rfl⟩
  · -- the last name is the only one too many
    rw [← List.append_assoc] at heq
    obtain ⟨rfl, hzx⟩ := List.append_inj' heq rfl
    obtain rfl := (List.cons.inj hzx).1
    rw [hcount, hp]
    constructor
    · intro hall
      have hzA := (hmem z).mp (hall z (List.mem_append_right _ (List.mem_singleton_self z)))
      have hs : spare ∈ os ++ init := by
        by_contra hs
        rw [if_neg hs] at hzA
        exact hz hzA
      refine Or.inr ⟨rfl, ?_⟩
      rcases List.mem_append.mp hs with ho | hi
      · exact ho
      · have hsA := (hmem spare).mp (hall spare (List.mem_append_left _ hi))
        rw [if_pos hs] at hsA
        rcases hsA with ⟨_, hns⟩ | rfl
        · exact absurd rfl hns
        · exact absurd hs hz
    · rintro (hle | ⟨_, ho⟩) n hn
      · omega
      · rw [hmem n, if_pos (List.mem_append_left _ ho)]
        rcases List.mem_append.mp hn with hi | hl
        · refine Or.inl ⟨List.mem_append_right _ hi, ?_⟩
          rintro rfl
          exact not_mem_left_of_count_eq_one (honce n hn) hn ho
        · exact Or.inr (List.mem_singleton.mp hl)
  · -- the last name comes after the one too many and finds no place
    rw [← List.cons_append, ← List.append_assoc, ← List.append_assoc] at heq
    obtain ⟨hinit, hzy⟩ := List.append_inj' heq rfl
    obtain rfl := (List.cons.inj hzy).1
    rw [hinit] at hz hcount
    have hover := lt_distinctCount (r := r') hx hp
    refine ⟨fun hall => ?_, fun hor => by omega⟩
    have hzA := (hmem z).mp (hall z (List.mem_append_right _ (List.mem_singleton_self z)))
    rw [List.mem_append, List.mem_cons, not_or, not_or] at hz
    split at hzA
    · exact (hzA.elim (fun h => hz.1 h.1) hz.2.1).elim
    · exact absurd hzA hz.1

/-- The names of an initial part, none of which occurs twice, all keep a place exactly when
they fit and the spare, if it is one of them, is never asked to give way. -/
theorem initial_part_admitted_iff {os is : List κ}
    (honce : ∀ n ∈ os, (os ++ is).count n = 1) :
    (∀ n ∈ os, n ∈ admitAll cap spare (os ++ is)) ↔
      os.length ≤ cap ∧ (spare ∈ os → distinctCount (os ++ is) ≤ cap) := by
  have hnodup : os.Nodup := by
    rw [List.nodup_iff_count_le_one]
    intro n
    by_cases hn : n ∈ os
    · have h := honce n hn
      rw [List.count_append] at h
      omega
    · rw [List.count_eq_zero.mpr hn]
      exact Nat.zero_le 1
  have hos : distinctCount os = os.length := distinctCount_of_nodup hnodup
  have hle := distinctCount_le_append os is
  rcases admitAll_cases cap spare (os ++ is) with ⟨hfit, hmem⟩ | ⟨p, x, r, heq, hx, hp, _, hmem⟩
  · exact ⟨fun _ => ⟨by omega, fun _ => hfit⟩,
      fun _ n hn => (hmem n).mpr (List.mem_append_left _ hn)⟩
  have hover : cap < distinctCount (os ++ is) := heq ▸ lt_distinctCount hx hp
  -- the names that filled the table, compared with the initial part
  have hpart : (∃ r', os = p ++ x :: r') ∨ ∃ p', p = os ++ p' := by
    rcases List.append_eq_append_iff.mp heq with ⟨p', hp', _⟩ | ⟨r', hos', hr'⟩
    · exact Or.inr ⟨p', hp'⟩
    · cases r' with
      | nil => exact Or.inr ⟨[], by rw [hos', List.append_nil, List.append_nil]⟩
      | cons y r' =>
        obtain rfl := (List.cons.inj hr').1
        exact Or.inl ⟨r', hos'⟩
  rcases hpart with ⟨r', rfl⟩ | ⟨p', rfl⟩
  · constructor
    · intro hall
      have hxA := (hmem x).mp (hall x (List.mem_append_right _ (List.mem_cons_self ..)))
      have hs : spare ∈ p := by
        by_contra hs
        rw [if_neg hs] at hxA
        exact hx hxA
      have hsA := (hmem spare).mp (hall spare (List.mem_append_left _ hs))
      rw [if_pos hs] at hsA
      rcases hsA with ⟨_, hns⟩ | rfl
      · exact absurd rfl hns
      · exact absurd hs hx
    · rintro ⟨hlen, _⟩
      have hnp : p.Nodup := hnodup.sublist (List.sublist_append_left _ _)
      rw [distinctCount_of_nodup hnp] at hp
      rw [List.length_append, List.length_cons] at hlen
      omega
  · constructor
    · intro hall
      refine ⟨by have := distinctCount_le_append os p'; omega, fun ho => ?_⟩
      have hsA := (hmem spare).mp (hall spare ho)
      rw [if_pos (List.mem_append_left _ ho)] at hsA
      rcases hsA with ⟨_, hns⟩ | rfl
      · exact absurd rfl hns
      · exact absurd (List.mem_append_left _ ho) hx
    · rintro ⟨_, hspare⟩ n hn
      have hno : spare ∉ os := fun ho => Nat.not_le_of_lt hover (hspare ho)
      rw [hmem n]
      split
      · exact Or.inl ⟨List.mem_append_left _ hn, fun he => hno (he ▸ hn)⟩
      · exact List.mem_append_left _ hn

end DataPipeline.Slots
