import DataPipeline.Core.Machine

/-!
# Refinement of labelled machines

What a run shows to the outside is a list of observations. One machine refines another if
whatever its runs show, a run of the other one shows too. A forward simulation is enough,
where one step may be matched by any number of steps, and what holds of everything the
abstract machine shows then holds of what the concrete one shows.
-/

namespace DataPipeline.Machine

variable {σ τ α α' β : Type*}

/-- Whatever a run of `m` from `s` shows, a run of `m'` from `t` shows. -/
def Refines (m : Machine σ α) (f : σ → α → List β) (s : σ) (m' : Machine τ α')
    (f' : τ → α' → List β) (t : τ) : Prop :=
  ∀ as u, run m s as = some u →
    ∃ bs v, run m' t bs = some v ∧ observe m' f' t bs = observe m f s as

/-- The rule of forward simulation: every step from a reachable state is matched by steps that
show the same and lead to related states again. -/
theorem refines_of_simulation {m : Machine σ α} {f : σ → α → List β} {s : σ}
    {m' : Machine τ α'} {f' : τ → α' → List β} {t : τ} {R : σ → τ → Prop} (hstart : R s t)
    (hstep : ∀ as u a u' v, run m s as = some u → R u v → m u a = some u' →
      ∃ bs v', run m' v bs = some v' ∧ R u' v' ∧ observe m' f' v bs = f u a) :
    Refines m f s m' f' t := by
  intro as u hrun
  have h := run_history (I := fun as u => ∃ bs v, run m' t bs = some v ∧ R u v ∧
    observe m' f' t bs = observe m f s as) ⟨[], t, rfl, hstart, rfl⟩ ?_ hrun
  · obtain ⟨bs, v, hv, _, hshown⟩ := h
    exact ⟨bs, v, hv, hshown⟩
  · rintro as u a u' hu ⟨bs, v, hv, hR, hshown⟩ ha
    obtain ⟨cs, v', hv', hR', hcs⟩ := hstep as u a u' v hu hR ha
    refine ⟨bs ++ cs, v', run_append_eq_some.mpr ⟨v, hv, hv'⟩, hR', ?_⟩
    rw [observe_append f' hv, observe_concat f hu, hshown, hcs]

/-- A property of everything the abstract machine shows is one of the concrete machine. -/
theorem Refines.shown {m : Machine σ α} {f : σ → α → List β} {s : σ} {m' : Machine τ α'}
    {f' : τ → α' → List β} {t : τ} (h : Refines m f s m' f' t) {P : List β → Prop}
    (hP : ∀ bs v, run m' t bs = some v → P (observe m' f' t bs)) {as : List α} {u : σ}
    (hrun : run m s as = some u) : P (observe m f s as) := by
  obtain ⟨bs, v, hv, hshown⟩ := h as u hrun
  exact hshown ▸ hP bs v hv

/-- A condition on the steps of a run of two parts is one on the steps of both. -/
theorem meets_append {m : Machine σ α} {C : σ → α → Prop} {s : σ} {as bs : List α} :
    Meets m C s (as ++ bs) ↔ Meets m C s as ∧ ∀ t, run m s as = some t → Meets m C t bs := by
  induction as generalizing s with
  | nil =>
    refine ⟨fun h => ⟨meets_nil m C s, fun t ht => ?_⟩, fun h => h.2 s rfl⟩
    exact Option.some.inj ht ▸ h
  | cons a as ih =>
    rw [List.cons_append, meets_cons, meets_cons, and_assoc]
    refine and_congr_right fun _ => ?_
    constructor
    · intro h
      refine ⟨fun t ht => (ih.mp (h t ht)).1, fun t ht => ?_⟩
      obtain ⟨u, hu, hrest⟩ := Option.bind_eq_some_iff.mp ht
      exact (ih.mp (h u hu)).2 t hrest
    · rintro ⟨h, hrest⟩ t ht
      refine ih.mpr ⟨h t ht, fun u hu => hrest u ?_⟩
      rw [run_cons, ht, Option.bind_some, hu]

/-- A machine that is part of another one: the steps of the whole are runs of the part, or
nothing, seen through a map of the states. -/
theorem run_part {m : Machine σ α} {m' : Machine τ β} {f : σ → τ} {g : σ → α → List β} {s : σ}
    (hstep : ∀ as u a v, run m s as = some u → m u a = some v →
      run m' (f u) (g u a) = some (f v))
    {t : σ} {as : List α} (hrun : run m s as = some t) :
    run m' (f s) (observe m g s as) = some (f t) := by
  refine run_history (I := fun as t => run m' (f s) (observe m g s as) = some (f t)) rfl ?_ hrun
  intro as u a v hu hI h
  rw [observe_concat g hu]
  exact run_append_eq_some.mpr ⟨f u, hI, hstep as u a v hu h⟩

/-- A condition on the steps of the part is one on the steps of the whole. -/
theorem meets_part {m : Machine σ α} {m' : Machine τ β} {f : σ → τ} {g : σ → α → List β}
    {C : σ → α → Prop} {C' : τ → β → Prop} {s : σ}
    (hstep : ∀ as u a v, run m s as = some u → m u a = some v →
      run m' (f u) (g u a) = some (f v))
    (hcond : ∀ u a, C u a → Meets m' C' (f u) (g u a)) {t : σ} {as : List α}
    (hrun : run m s as = some t) (hC : Meets m C s as) : Meets m' C' (f s) (observe m g s as) := by
  refine run_history (I := fun as _ => Meets m C s as → Meets m' C' (f s) (observe m g s as))
    (fun _ => meets_nil m' C' (f s)) ?_ hrun hC
  intro as u a v hu hI h hC
  rw [observe_concat g hu]
  refine meets_append.mpr ⟨hI hC.prefix, fun w hw => ?_⟩
  obtain rfl := Option.some.inj ((run_part hstep hu).symm.trans hw)
  exact hcond u a (hC.last hu)

end DataPipeline.Machine
