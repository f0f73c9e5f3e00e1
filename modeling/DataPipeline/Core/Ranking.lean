import Mathlib.Algebra.GroupWithZero.Nat
import DataPipeline.Core.Machine

/-!
# Counting the steps of a run by a rank

A rank of the states bounds how often some steps can be taken: a step pays its cost out of
the rank and may put its gain into it. Where that holds of every step until a goal is
reached, a run that costs more than the rank and all gains has reached the goal.
-/

namespace DataPipeline.Machine

variable {σ α : Type*}

/-- Where every step pays its cost out of the rank until the goal is reached, which then stays
reached, a run has reached the goal or has paid for all its steps. -/
theorem run_rank {m : Machine σ α} {G : List α → σ → Prop} (rank : σ → Nat) (cost gain : α → Nat)
    {s t : σ} {as : List α}
    (hstep : ∀ before a after u v, as = before ++ a :: after → run m s before = some u →
      m u a = some v → (G before u → G (before ++ [a]) v) ∧
        (G (before ++ [a]) v ∨ rank v + cost a ≤ rank u + gain a))
    (hrun : run m s as = some t) :
    G as t ∨ rank t + (as.map cost).sum ≤ rank s + (as.map gain).sum := by
  induction as using List.reverseRecOn generalizing t with
  | nil =>
    obtain rfl := Option.some.inj hrun
    exact Or.inr (Nat.le_refl _)
  | append_singleton as a ih =>
    obtain ⟨u, hu, ha⟩ := run_concat_eq_some.mp hrun
    have hpaid := ih (fun before b after x y he => hstep before b (after ++ [a]) x y
      (by rw [he, List.append_assoc, List.cons_append])) hu
    obtain ⟨hgoal, hrank⟩ := hstep as a [] u t rfl hu ha
    rcases hpaid with hG | hpaid
    · exact Or.inl (hgoal hG)
    · apply hrank.imp_right
      intro hle
      simp only [List.map_append, List.map_cons, List.map_nil, List.sum_append, List.sum_cons,
        List.sum_nil]
      omega

/-- The cost of a run in which each counted step costs one. -/
theorem sum_counted (p : α → Bool) (as : List α) :
    (as.map fun a => if p a then 1 else 0).sum = as.countP p := by
  induction as with
  | nil => rfl
  | cons a as ih =>
    rw [List.map_cons, List.sum_cons, ih, List.countP_cons]
    omega

/-- A run reaches its goal within as many counted steps as the rank says, where every counted
step lowers the rank and no other step raises it. -/
theorem run_within {m : Machine σ α} {G : List α → σ → Prop} (rank : σ → Nat) (p : α → Bool)
    {s t : σ} {as : List α}
    (hstep : ∀ before a after u v, as = before ++ a :: after → run m s before = some u →
      m u a = some v → (G before u → G (before ++ [a]) v) ∧
        (G (before ++ [a]) v ∨ rank v + (if p a then 1 else 0) ≤ rank u))
    (hrun : run m s as = some t) (hpos : ¬ G as t → 0 < rank t)
    (hlong : rank s ≤ as.countP p) : G as t := by
  have h := run_rank rank (fun a => if p a then 1 else 0) (fun _ => 0) hstep hrun
  rw [sum_counted] at h
  rcases h with hG | hle
  · exact hG
  · by_contra hG
    have hrank := hpos hG
    have hzero : (as.map fun _ => 0).sum = 0 := by simp
    omega

/-! ### Ranks with a share for each party -/

/-- Where no share changes, the sum stays. -/
theorem sum_mapIdx_congr {β : Type*} {f g : Nat → β → Nat} {l : List β}
    (h : ∀ k x, l[k]? = some x → g k x = f k x) : (l.mapIdx g).sum = (l.mapIdx f).sum := by
  refine congrArg _ (List.ext_getElem? fun k => ?_)
  rw [List.getElem?_mapIdx, List.getElem?_mapIdx]
  cases hk : l[k]? with
  | none => rfl
  | some x => exact congrArg some (h k x hk)

/-- Where one party moves and the other shares stay, the sum moves with its share. -/
theorem sum_mapIdx_set {β : Type*} {f g : Nat → β → Nat} {l : List β} {i : Nat} {a : β}
    (hi : l[i]? = some a) (h : ∀ k x, k ≠ i → l[k]? = some x → g k x = f k x) (b : β) :
    ((l.set i b).mapIdx g).sum + f i a = (l.mapIdx f).sum + g i b := by
  induction l generalizing i f g with
  | nil => cases hi
  | cons y l ih =>
    cases i with
    | zero =>
      obtain rfl : y = a := Option.some.inj hi
      have htail := sum_mapIdx_congr (l := l) (f := fun k => f (k + 1)) (g := fun k => g (k + 1))
        fun k x hk => h (k + 1) x (Nat.succ_ne_zero k) hk
      simp only [List.set_cons_zero, List.mapIdx_cons, List.sum_cons, htail]
      omega
    | succ i =>
      have htail := ih (f := fun k => f (k + 1)) (g := fun k => g (k + 1)) hi
        fun k x hne hk => h (k + 1) x (fun he => hne (Nat.succ.inj he)) hk
      have hhead := h 0 y (Nat.succ_ne_zero i).symm rfl
      simp only [List.set_cons_succ, List.mapIdx_cons, List.sum_cons, hhead]
      omega

end DataPipeline.Machine
