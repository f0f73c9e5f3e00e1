import Mathlib.Logic.Function.Basic
import Mathlib.Data.List.Nodup

/-!
# Locks taken in order

Threads hold locks and wait for locks. `Owned` ties the owners that the locks record to
the locks that the threads know they hold. If the locks have ranks below a bound and a
thread waits only for a lock above all it holds, then the threads cannot all wait: a
thread waiting for a lock of the greatest rank among those waited for waits for nobody.
-/

namespace DataPipeline.LockOrder

open Function (update)

variable {θ ℓ : Type*}

/-- The owner of a lock is the thread that holds it. -/
def Owned (owner : ℓ → Option θ) (held : θ → List ℓ) : Prop :=
  ∀ m t, owner m = some t ↔ m ∈ held t

theorem owned_start : Owned (fun _ : ℓ => none) (fun _ : θ => []) := by
  intro m t
  simp only [reduceCtorEq, List.not_mem_nil]

section Steps

variable [DecidableEq θ] {owner : ℓ → Option θ} {held : θ → List ℓ} {t : θ}

/-- A thread goes on with the locks it has. -/
theorem Owned.keep (h : Owned owner held) {l : List ℓ} (hl : l = held t) :
    Owned owner (update held t l) := by
  subst hl
  rwa [Function.update_eq_self]

variable [DecidableEq ℓ]

/-- A free lock is taken. -/
theorem Owned.acquire (h : Owned owner held) {m : ℓ} (hm : owner m = none) {l : List ℓ}
    (hl : l = m :: held t) : Owned (update owner m (some t)) (update held t l) := by
  intro k u
  subst hl
  by_cases hk : k = m
  · subst k
    rw [Function.update_self]
    by_cases hu : u = t
    · subst u
      simp only [Function.update_self, List.mem_cons, true_or]
    · rw [Function.update_of_ne hu, ← h m u, hm]
      simp only [Option.some.injEq, reduceCtorEq, iff_false]
      exact Ne.symm hu
  · rw [Function.update_of_ne hk, h k u]
    by_cases hu : u = t
    · subst u
      simp only [Function.update_self, List.mem_cons, hk, false_or]
    · rw [Function.update_of_ne hu]

/-- A held lock is given back. -/
theorem Owned.release (h : Owned owner held) {m : ℓ} {l : List ℓ} (hl : held t = m :: l)
    (hm : m ∉ l) : Owned (update owner m none) (update held t l) := by
  intro k u
  by_cases hk : k = m
  · subst k
    rw [Function.update_self]
    by_cases hu : u = t
    · subst u
      simp only [Function.update_self, hm, reduceCtorEq]
    · rw [Function.update_of_ne hu, ← h m u]
      have ht : owner m = some t := (h m t).mpr (hl ▸ List.mem_cons_self ..)
      simp only [ht, Option.some.injEq, reduceCtorEq, false_iff]
      exact Ne.symm hu
  · rw [Function.update_of_ne hk, h k u]
    by_cases hu : u = t
    · subst u
      simp only [Function.update_self, hl, List.mem_cons, hk, false_or]
    · rw [Function.update_of_ne hu]

end Steps

/-- Where locks are taken in the order of their ranks, some unfinished thread waits for no
lock, or for a lock that is free. -/
theorem exists_unblocked {unfinished : θ → Prop} {wants : θ → Option ℓ} {owner : ℓ → Option θ}
    {held : θ → List ℓ} {rank : ℓ → Nat} {bound : Nat} (howned : Owned owner held)
    (hbound : ∀ m, rank m ≤ bound) (hrank : ∀ t m, wants t = some m → ∀ k ∈ held t, rank k < rank m)
    (hheld : ∀ t m, m ∈ held t → unfinished t) {t : θ} (ht : unfinished t) :
    ∃ u, unfinished u ∧ ∀ m, wants u = some m → owner m = none := by
  by_contra hall
  push Not at hall
  -- from a blocked thread the one it waits for, whose lock ranks higher
  have hclimb : ∀ n, ∃ u m, unfinished u ∧ wants u = some m ∧ n ≤ rank m := by
    intro n
    induction n with
    | zero =>
      obtain ⟨m, hm, _⟩ := hall t ht
      exact ⟨t, m, ht, hm, Nat.zero_le _⟩
    | succ n ih =>
      obtain ⟨u, m, hu, hm, hn⟩ := ih
      obtain ⟨m', hm', howner⟩ := hall u hu
      obtain rfl := Option.some.inj (hm.symm.trans hm')
      obtain ⟨v, hv⟩ := Option.ne_none_iff_exists'.mp howner
      have hmem := (howned m v).mp hv
      obtain ⟨k, hk, _⟩ := hall v (hheld v m hmem)
      have hlt := hrank v k hk m hmem
      exact ⟨v, k, hheld v m hmem, hk, by omega⟩
  obtain ⟨u, m, _, _, hm⟩ := hclimb (bound + 1)
  have := hbound m
  omega

end DataPipeline.LockOrder
