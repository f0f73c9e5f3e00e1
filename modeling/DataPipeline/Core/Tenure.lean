import DataPipeline.Core.Capacity
import DataPipeline.Core.Machine

/-!
# How long a name keeps its slot

A table of bounded size under any sequence of requests to enter and to leave. A name
that entered keeps its slot until it leaves itself, with one exception: at the capacity
the spare is ousted by the next new name. Over a whole sequence nobody loses a slot
exactly when no request ousts the spare.
-/

namespace DataPipeline.Slots

open Machine

variable {κ : Type*} [DecidableEq κ]

/-- What a caller asks of a table. -/
inductive Request (κ : Type*) where
  | enter (n : κ)
  | leave (n : κ)
  | clear
  | pass
  deriving DecidableEq

/-- The table as a machine whose labels are the requests. -/
def serve (cap : Nat) (spare : κ) : Machine (Slots κ) (Request κ)
  | s, .enter n => some (admitOne cap spare s n)
  | s, .leave n => some (s.erase n)
  | _, .clear => some ∅
  | s, .pass => some s

variable {cap : Nat} {spare : κ}

/-- The request of a new name is granted. -/
def Granted (cap : Nat) (spare : κ) (s : Slots κ) (n : κ) : Prop :=
  n ∉ s ∧ (s.size < cap ∨ spare ∈ s)

/-- The request is granted with the slot of the spare. -/
def Ousts (cap : Nat) (spare : κ) (s : Slots κ) : Request κ → Prop
  | .enter n => n ∉ s ∧ cap ≤ s.size ∧ spare ∈ s
  | _ => False

instance (s : Slots κ) (r : Request κ) : Decidable (Ousts cap spare s r) := by
  unfold Ousts
  cases r <;> infer_instance

/-- Whoever is in the table after a request was there before or has just been granted entry. -/
theorem mem_admitOne {s : Slots κ} {n m : κ} (h : m ∈ admitOne cap spare s n) :
    m ∈ s ∨ (m = n ∧ Granted cap spare s n) := by
  by_cases hn : n ∈ s
  · rw [admitOne_of_mem hn] at h
    exact Or.inl h
  · by_cases hlt : s.size < cap
    · rw [admitOne_of_lt hn hlt, AList.mem_insert] at h
      rcases h with rfl | h
      · exact Or.inr ⟨rfl, hn, Or.inl hlt⟩
      · exact Or.inl h
    · by_cases hsp : spare ∈ s
      · obtain ⟨f, hf⟩ := exists_lookup_of_mem hsp
        rw [admitOne_of_spare hn (Nat.le_of_not_lt hlt) hf, mem_handOver] at h
        rcases h with ⟨_, rfl | h⟩
        · exact Or.inr ⟨rfl, hn, Or.inr hsp⟩
        · exact Or.inl h
      · rw [admitOne_of_frozen n (Nat.le_of_not_lt hlt) hsp] at h
        exact Or.inl h

/-- A request that ousts nobody moves nobody. -/
theorem lookup_admitOne {s : Slots κ} {n m : κ} {i : Nat} (ho : ¬ Ousts cap spare s (.enter n))
    (h : s.lookup m = some i) : (admitOne cap spare s n).lookup m = some i := by
  by_cases hn : n ∈ s
  · rwa [admitOne_of_mem hn]
  · by_cases hlt : s.size < cap
    · rw [admitOne_of_lt hn hlt, lookup_insert_eq_some]
      apply Or.inr
      refine ⟨?_, h⟩
      rintro rfl
      exact hn (mem_of_lookup h)
    · have hge := Nat.le_of_not_lt hlt
      rwa [admitOne_of_frozen n hge fun hsp => ho ⟨hn, hge, hsp⟩]

/-- The ousted spare is no longer in the table. -/
theorem not_mem_of_ousts {s : Slots κ} {n : κ} (ho : Ousts cap spare s (.enter n)) :
    spare ∉ admitOne cap spare s n := by
  obtain ⟨hn, hge, hsp⟩ := ho
  obtain ⟨f, hf⟩ := exists_lookup_of_mem hsp
  rw [admitOne_of_spare hn hge hf, mem_handOver]
  exact fun h => h.1 rfl

/-- A granted name is in the table. -/
theorem mem_of_granted {s : Slots κ} {n : κ} (h : Granted cap spare s n) :
    n ∈ admitOne cap spare s n := by
  obtain ⟨hn, hroom⟩ := h
  by_cases hlt : s.size < cap
  · rw [admitOne_of_lt hn hlt, AList.mem_insert]
    exact Or.inl rfl
  · have hsp : spare ∈ s := hroom.resolve_left hlt
    obtain ⟨f, hf⟩ := exists_lookup_of_mem hsp
    rw [admitOne_of_spare hn (Nat.le_of_not_lt hlt) hf, mem_handOver]
    refine ⟨?_, Or.inl rfl⟩
    rintro rfl
    exact hn hsp

/-- One request that neither clears the table nor removes the name nor ousts leaves the name
where it is. -/
theorem serve_keeps {s t : Slots κ} {r : Request κ} (h : serve cap spare s r = some t) {n : κ}
    {i : Nat} (hn : s.lookup n = some i) (hc : r ≠ .clear) (hl : r ≠ .leave n)
    (ho : ¬ Ousts cap spare s r) : t.lookup n = some i := by
  cases r with
  | enter m =>
    obtain rfl := Option.some.inj h
    exact lookup_admitOne ho hn
  | leave m =>
    obtain rfl := Option.some.inj h
    rw [lookup_erase_eq_some]
    refine ⟨?_, hn⟩
    rintro rfl
    exact hl rfl
  | clear => exact absurd rfl hc
  | pass =>
    obtain rfl := Option.some.inj h
    exact hn

/-- The name has entered during the requests, and since then it has neither left nor has the
table been cleared. -/
def Entered (cap : Nat) (spare : κ) (rs : List (Request κ)) (n : κ) : Prop :=
  ∃ before middle s, rs = before ++ .enter n :: middle ∧
    run (serve cap spare) ∅ before = some s ∧ Granted cap spare s n ∧
    .clear ∉ middle ∧ .leave n ∉ middle

theorem Entered.concat {rs : List (Request κ)} {n : κ} (h : Entered cap spare rs n)
    {r : Request κ} (hc : r ≠ .clear) (hl : r ≠ .leave n) : Entered cap spare (rs ++ [r]) n := by
  obtain ⟨before, middle, s, rfl, hs, hg, hcl, hle⟩ := h
  refine ⟨before, middle ++ [r], s, ?_, hs, hg, ?_, ?_⟩
  · rw [List.append_assoc, List.cons_append]
  · rw [List.mem_append, List.mem_singleton, not_or]
    exact ⟨hcl, Ne.symm hc⟩
  · rw [List.mem_append, List.mem_singleton, not_or]
    exact ⟨hle, Ne.symm hl⟩

/-- Only who entered is in the table. -/
theorem entered_of_mem {rs : List (Request κ)} {t : Slots κ}
    (hrun : run (serve cap spare) ∅ rs = some t) {n : κ} (hn : n ∈ t) :
    Entered cap spare rs n := by
  refine run_history (I := fun rs t => n ∈ t → Entered cap spare rs n) ?_ ?_ hrun hn
  · intro hn
    exact absurd hn (AList.notMem_empty n)
  · intro rs u r v hu hI hstep hn
    cases r with
    | enter m =>
      obtain rfl := Option.some.inj hstep
      rcases mem_admitOne hn with hn | ⟨rfl, hg⟩
      · exact (hI hn).concat nofun nofun
      · exact ⟨rs, [], u, rfl, hu, hg, List.not_mem_nil, List.not_mem_nil⟩
    | leave m =>
      obtain rfl := Option.some.inj hstep
      obtain ⟨hne, hn⟩ := AList.mem_erase.mp hn
      refine (hI hn).concat nofun fun he => ?_
      cases he
      exact hne rfl
    | clear =>
      obtain rfl := Option.some.inj hstep
      exact absurd hn (AList.notMem_empty n)
    | pass =>
      obtain rfl := Option.some.inj hstep
      exact (hI hn).concat nofun nofun

/-- Every name that enters during the requests keeps the slot it gets, as long as it does not
leave and the table is not cleared. -/
def Tenured (cap : Nat) (spare : κ) (rs : List (Request κ)) : Prop :=
  ∀ before n middle after s t, rs = before ++ .enter n :: (middle ++ after) →
    run (serve cap spare) ∅ before = some s → Granted cap spare s n →
    .clear ∉ middle → .leave n ∉ middle →
    run (serve cap spare) (admitOne cap spare s n) middle = some t →
    ∃ i, (admitOne cap spare s n).lookup n = some i ∧ t.lookup n = some i

/-- The tenure of the names in a table that is part of a larger machine, in terms of the runs
of that machine. -/
theorem tenured_map {σ α : Type*} {m : Machine σ α} {f : σ → Slots κ} {g : α → Request κ} {r : σ}
    (hr : f r = ∅)
    (hsim : ∀ as t, run m r as = some t → run (serve cap spare) (f r) (as.map g) = some (f t))
    (htotal : ∀ as, ∃ t, run m r as = some t) (as : List α) :
    Tenured cap spare (as.map g) ↔
      ∀ before a n middle after s t, as = before ++ a :: (middle ++ after) → g a = .enter n →
        run m r before = some s → Granted cap spare (f s) n →
        .clear ∉ middle.map g → .leave n ∉ middle.map g →
        run m r (before ++ a :: middle) = some t →
        ∃ i, (admitOne cap spare (f s) n).lookup n = some i ∧ (f t).lookup n = some i := by
  rw [hr] at hsim
  constructor
  · rintro h before a n middle after s t rfl ha hs hg hcl hle ht
    have htab := hsim _ _ ht
    rw [List.map_append, List.map_cons, ha] at htab
    have hmid := run_from (hsim _ _ hs) htab
    apply h (before.map g) n (middle.map g) (after.map g) _ _ _ (hsim _ _ hs) hg hcl hle hmid
    simp only [List.map_append, List.map_cons, ha]
  · intro h before n middle after s t he hs hg hcl hle ht
    obtain ⟨before, rest, rfl, rfl, hrest⟩ := List.map_eq_append_iff.mp he
    obtain ⟨a, rest, rfl, ha, hrest⟩ := List.map_eq_cons_iff.mp hrest
    obtain ⟨middle, after, rfl, rfl, rfl⟩ := List.map_eq_append_iff.mp hrest
    obtain ⟨u, hu⟩ := htotal before
    obtain ⟨v, hv⟩ := htotal (before ++ a :: middle)
    obtain rfl := Option.some.inj ((hsim _ _ hu).symm.trans hs)
    have htab := hsim _ _ hv
    rw [List.map_append, List.map_cons, ha] at htab
    have hmid := run_from hs htab
    obtain rfl := Option.some.inj (hmid.symm.trans ht)
    exact h before a n middle after u v rfl ha hu hg hcl hle hv

/-- Nobody loses a slot exactly when nobody ousts the spare. -/
theorem tenured_iff (rs : List (Request κ)) :
    Tenured cap spare rs ↔ Meets (serve cap spare) (fun s r => ¬ Ousts cap spare s r) ∅ rs := by
  constructor
  · intro h before r after u he hu ho
    cases r with
    | enter m =>
      obtain ⟨past, middle, s, rfl, hs, hg, hcl, hle⟩ := entered_of_mem hu ho.2.2
      have hmid := run_from hs hu
      have hlast : run (serve cap spare) (admitOne cap spare s spare) (middle ++ [.enter m]) =
          some (admitOne cap spare u m) := run_concat_eq_some.mpr ⟨u, hmid, rfl⟩
      obtain ⟨i, _, hi⟩ := h past spare (middle ++ [.enter m]) after s _
        (by simp only [he, List.append_assoc, List.cons_append, List.nil_append]) hs hg
        (by simpa only [List.mem_append, List.mem_singleton, reduceCtorEq, or_false] using hcl)
        (by simpa only [List.mem_append, List.mem_singleton, reduceCtorEq, or_false] using hle)
        hlast
      exact not_mem_of_ousts ho (mem_of_lookup hi)
    | leave | clear | pass => exact ho
  · rintro hC before n middle after s t rfl hs hg hcl hle hmid
    obtain ⟨i, hi⟩ := exists_lookup_of_mem (mem_of_granted hg)
    refine ⟨i, hi, ?_⟩
    have hentered : run (serve cap spare) ∅ (before ++ [.enter n]) =
        some (admitOne cap spare s n) := run_concat_eq_some.mpr ⟨s, hs, rfl⟩
    have hM : Meets (serve cap spare) (fun s r => ¬ Ousts cap spare s r)
        (admitOne cap spare s n) middle := by
      rw [← List.singleton_append, ← List.append_assoc] at hC
      exact Meets.prefix (Meets.suffix hC hentered)
    apply run_invariant_of_meets (I := fun t => t.lookup n = some i)
      (C := fun s r => ¬ Ousts cap spare s r ∧ r ≠ .clear ∧ r ≠ .leave n) ?_ hi ?_ hmid
    · rintro s r t hn ⟨ho, hc, hl⟩ hst
      exact serve_keeps hst hn hc hl ho
    · intro past r rest u he hu
      have hr : r ∈ middle := he ▸ List.mem_append_right past (List.mem_cons_self ..)
      refine ⟨hM past r rest u he hu, ?_, ?_⟩
      · rintro rfl
        exact hcl hr
      · rintro rfl
        exact hle hr

end DataPipeline.Slots
