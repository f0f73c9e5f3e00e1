import DataPipeline.Queue.CopyLocks
import Mathlib.Data.Finset.Piecewise

/-!
# When copying deadlocks

Threads wait for each other in a circle in some run exactly when calls of different threads
copy in a circle: each to the queue of the next one. One way the circle of calls is read off
the waiting threads. The other way the threads of a smallest circle make the calls before
it one thread after the other, lock their own queues, which are different ones, and go on
until each stands before the queue of another.
-/

namespace DataPipeline.Copying

open Function (update)
open Machine

variable {θ κ T : Type}

/-! ### Circles of threads and circles of calls -/

/-- Who waits and holds something is about to take a destination. -/
theorem holding_of_wants {p : CallPlace κ T} {m k : κ} (hm : p.wants = some m) (hk : k ∈ p.held) :
    ∃ c rest, p = .holding c (m :: rest) ∧ k = c.self := by
  cases p with
  | outside | entering => exact absurd hk List.not_mem_nil
  | copying => cases hm
  | holding c rest =>
    cases rest with
    | nil => cases hm
    | cons d rest =>
      cases hm
      exact ⟨c, rest, rfl, List.mem_singleton.mp hk⟩

/-- The calls of threads that wait in a circle copy in a circle. -/
theorem Invariant.circular {calls : θ → List (MemberCall κ T)} {s : Copying θ κ T}
    (h : Invariant calls s) (hcycle : Cyclic s.WaitsFor) : Circular calls := by
  refine ⟨fun t => (s.place t).call, h.current, ?_⟩
  have hboth := hcycle.restrict (P := fun t => ∃ k, k ∈ (s.place t).held)
    (Q := fun t => ∃ m, (s.place t).wants = some m)
    (fun t u ⟨m, _, hm⟩ => ⟨m, (h.owned m u).mp hm⟩) fun t u ⟨m, hm, _⟩ => ⟨m, hm⟩
  refine hboth.mono ?_
  rintro t u ⟨⟨k, hk⟩, ⟨m, hm, howner⟩, ⟨n, hn⟩⟩
  obtain ⟨c, rest, hc, _⟩ := holding_of_wants hm hk
  obtain ⟨d, rest', hd, rfl⟩ := holding_of_wants hn ((h.owned m u).mp howner)
  have hsound := h.sound t
  rw [hc] at hsound
  refine ⟨c, d, ?_, ?_, hsound _ (List.mem_cons_self ..)⟩
  · simp only [hc, CallPlace.call]
  · simp only [hd, CallPlace.call]

/-- Where all copying goes upwards, as from inputs to outputs, there is no circle. -/
theorem not_circular_of_rank {calls : θ → List (MemberCall κ T)} (rank : κ → Nat)
    (h : ∀ t, ∀ c ∈ calls t, ∀ d ∈ c.destinations, rank c.self < rank d) : ¬ Circular calls := by
  rintro ⟨pick, hpick, hcycle⟩
  refine not_cyclic_of_rank (fun t => ((pick t).map fun c => rank c.self).getD 0) ?_ hcycle
  rintro t u ⟨c, d, hc, hd, hmem⟩
  simp only [hc, hd, Option.map_some, Option.getD_some]
  exact h t c (hpick t c hc) d.self hmem

/-- A smallest circle: some threads, one call of each, and no two of the calls on one queue. -/
theorem Circular.exists_members [DecidableEq κ] {calls : θ → List (MemberCall κ T)}
    (h : Circular calls) : ∃ (C : Finset θ) (c : θ → MemberCall κ T), C.Nonempty ∧
      (∀ t ∈ C, c t ∈ calls t) ∧ Set.InjOn (fun t => (c t).self) C ∧
      ∀ t ∈ C, ∃ u ∈ C, (c u).self ∈ (c t).destinations := by
  obtain ⟨pick, hpick, hcycle⟩ := h
  obtain ⟨S, hS⟩ := hcycle.exists_closed
  obtain ⟨t₀, ht₀⟩ := hS.nonempty
  obtain ⟨_, _, c₀, _⟩ := hS.successor t₀ ht₀
  let c : θ → MemberCall κ T := fun t => (pick t).getD c₀
  have hclosed : ClosedUnder (fun t u => pick t = some (c t) ∧ (c u).self ∈ (c t).destinations)
      S := by
    refine ⟨hS.nonempty, fun t ht => ?_⟩
    obtain ⟨u, hu, a, b, ha, hb, hab⟩ := hS.successor t ht
    refine ⟨u, hu, ?_⟩
    simp only [c, ha, hb, Option.getD_some, hab, and_self]
  obtain ⟨C, hC, hinj⟩ := hclosed.exists_injOn (fun t => (c t).self)
    fun t u v htu he => ⟨htu.1, he ▸ htu.2⟩
  refine ⟨C, c, hC.nonempty, fun t ht => ?_, hinj, fun t ht => ?_⟩
  · obtain ⟨_, _, hp, _⟩ := hC.successor t ht
    exact hpick t _ hp
  · obtain ⟨u, hu, _, hd⟩ := hC.successor t ht
    exact ⟨u, hu, hd⟩

theorem Invariant.free {calls : θ → List (MemberCall κ T)} {s : Copying θ κ T}
    (h : Invariant calls s) {m : κ} (hm : ∀ t, m ∉ (s.place t).held) : s.owner m = none :=
  Option.eq_none_iff_forall_ne_some.mpr fun t ht => hm t ((h.owned m t).mp ht)

variable [DecidableEq θ] [DecidableEq κ]

/-! ### Calls that copy in a circle can wait in a circle -/

/-- A thread whose own queue is free begins its next call and locks it. -/
theorem run_enter {s : Copying θ κ T} {t : θ} {c : MemberCall κ T} {rest : List (MemberCall κ T)}
    (hp : s.place t = .outside) (hc : s.calls t = c :: rest) (hfree : s.owner c.self = none) :
    ∃ s', run step s [t, t] = some s' ∧ s'.owner = update s.owner c.self (some t) ∧
      s'.place = update s.place t (.holding c c.destinations) ∧
      s'.calls = update s.calls t rest := by
  simp [run_cons, step, hp, hc, goto, lock, hfree]

/-- A thread copies to destinations that are free. -/
theorem run_copies {s : Copying θ κ T} {t : θ} {c : MemberCall κ T} (ds rest : List κ)
    (hp : s.place t = .holding c (ds ++ rest)) (hfree : ∀ d ∈ ds, s.owner d = none) :
    ∃ acts s', run step s acts = some s' ∧ s'.owner = s.owner ∧
      s'.place = update s.place t (.holding c rest) ∧ s'.calls = s.calls := by
  induction ds generalizing s with
  | nil =>
    refine ⟨[], s, rfl, rfl, ?_, rfl⟩
    rw [← List.nil_append rest, ← hp, Function.update_eq_self]
  | cons d ds ih =>
    obtain ⟨hd, hds⟩ := List.forall_mem_cons.mp hfree
    have hbody : ∃ u, run step s [t, t] = some u ∧ u.owner = s.owner ∧
        u.place = update s.place t (.holding c (ds ++ rest)) ∧ u.calls = s.calls := by
      simp [run_cons, step, hp, goto, lock, unlock, hd]
    obtain ⟨u, hu, howner, hplace, hcalls⟩ := hbody
    obtain ⟨acts, s', hrun, howner', hplace', hcalls'⟩ := ih (s := u)
      (by rw [hplace, Function.update_self]) (by rwa [howner])
    refine ⟨[t, t] ++ acts, s', run_append_eq_some.mpr ⟨u, hu, hrun⟩, howner'.trans howner, ?_,
      hcalls'.trans hcalls⟩
    rw [hplace', hplace, Function.update_idem]

/-- No thread is in a call. -/
structure Idle (s : Copying θ κ T) : Prop where
  owner : s.owner = fun _ => none
  place : s.place = fun _ => .outside

/-- A thread makes a whole call while nobody else does anything. -/
theorem Idle.run_call {s : Copying θ κ T} (h : Idle s) {t : θ} {c : MemberCall κ T}
    {rest : List (MemberCall κ T)} (hc : s.calls t = c :: rest) (hproper : c.Proper) :
    ∃ acts s', run step s acts = some s' ∧ Idle s' ∧ s'.calls = update s.calls t rest := by
  obtain ⟨u, hu, howner, hplace, hcalls⟩ := run_enter (by rw [h.place]) hc (by rw [h.owner])
  have hfree : ∀ d ∈ c.destinations, u.owner d = none := by
    intro d hd
    have hne : d ≠ c.self := fun he => hproper (he ▸ hd)
    rw [howner, Function.update_of_ne hne, h.owner]
  obtain ⟨acts, v, hv, howner', hplace', hcalls'⟩ := run_copies c.destinations []
    (by rw [hplace, Function.update_self, List.append_nil]) hfree
  have hp : v.place t = .holding c [] := by rw [hplace', Function.update_self]
  obtain ⟨hfo, hfp, hfc⟩ := v.finish_frame t c
  let w := (v.finish t c).unlock t c.self .outside
  have hw : run step v [t] = some w := by
    simp only [run_cons, step, hp, run_nil, Option.bind_some, w]
  refine ⟨[t, t] ++ (acts ++ [t]), w, ?_, ⟨?_, ?_⟩, ?_⟩
  · exact run_append_eq_some.mpr ⟨u, hu, run_append_eq_some.mpr ⟨v, hv, hw⟩⟩
  · simp only [w, unlock, goto, hfo, howner', howner, h.owner, Function.update_idem]
    exact Function.update_eq_self (f := fun _ => none) c.self
  · simp only [w, unlock, goto, hfp, hplace', hplace, h.place, Function.update_idem]
    exact Function.update_eq_self (f := fun _ => CallPlace.outside) t
  · exact hfc.trans (hcalls'.trans hcalls)

/-- A thread makes its next calls while nobody else does anything. -/
theorem Idle.run_calls {s : Copying θ κ T} (h : Idle s) {t : θ} (cs : List (MemberCall κ T))
    {rest : List (MemberCall κ T)} (hcs : s.calls t = cs ++ rest) (hproper : ∀ c ∈ cs, c.Proper) :
    ∃ acts s', run step s acts = some s' ∧ Idle s' ∧ s'.calls = update s.calls t rest := by
  induction cs generalizing s with
  | nil =>
    refine ⟨[], s, rfl, h, ?_⟩
    rw [← List.nil_append rest, ← hcs, Function.update_eq_self]
  | cons c cs ih =>
    obtain ⟨hc, hcs'⟩ := List.forall_mem_cons.mp hproper
    obtain ⟨acts, u, hu, hidle, hcalls⟩ := h.run_call (List.cons_append ▸ hcs) hc
    obtain ⟨acts', s', hrun, hidle', hcalls'⟩ :=
      ih hidle (by rw [hcalls, Function.update_self]) hcs'
    refine ⟨acts ++ acts', s', run_append_eq_some.mpr ⟨u, hu, hrun⟩, hidle', ?_⟩
    rw [hcalls', hcalls, Function.update_idem]

/-- Threads make the first of their calls, one thread after the other. -/
theorem exists_idle (queues : κ → Q T) {calls first : θ → List (MemberCall κ T)}
    (rest : θ → List (MemberCall κ T)) (hproper : ∀ t, ∀ c ∈ calls t, c.Proper) (C : Finset θ)
    (hcalls : ∀ t ∈ C, calls t = first t ++ rest t) :
    ∃ acts s, run step (start queues calls) acts = some s ∧ Idle s ∧
      s.calls = C.piecewise rest calls := by
  refine run_each (I := fun D s => Idle s ∧ s.calls = D.piecewise rest calls) ?_
    ⟨⟨rfl, rfl⟩, (Finset.piecewise_empty rest calls).symm⟩
  rintro D t u ht - hnot ⟨hidle, hu⟩
  have hs : u.calls t = first t ++ rest t := by
    rw [hu, Finset.piecewise_eq_of_notMem _ _ _ hnot, hcalls t ht]
  obtain ⟨acts, v, hv, hidle', hv'⟩ := hidle.run_calls (first t) hs fun c hc =>
    hproper t c (hcalls t ht ▸ List.mem_append_left _ hc)
  refine ⟨acts, v, hv, hidle', ?_⟩
  rw [hv', hu, Finset.piecewise_insert]

/-- Each of the threads locks its own queue and goes on to the first destination that
is the queue of one of them. -/
theorem exists_waiting {calls : θ → List (MemberCall κ T)} (hproper : ∀ t, ∀ c ∈ calls t, c.Proper)
    {C : Finset θ} {c : θ → MemberCall κ T} {rest : θ → List (MemberCall κ T)}
    {before left : θ → List κ} (hinj : Set.InjOn (fun t => (c t).self) C)
    (hdest : ∀ t ∈ C, (c t).destinations = before t ++ left t)
    (hbefore : ∀ t ∈ C, ∀ d ∈ before t, ∀ u ∈ C, d ≠ (c u).self)
    {s : Copying θ κ T} (h : Invariant calls s) (hidle : Idle s)
    (hs : ∀ t ∈ C, s.calls t = c t :: rest t) :
    ∃ acts s', run step s acts = some s' ∧ Invariant calls s' ∧
      s'.place = C.piecewise (fun t => .holding (c t) (left t)) fun _ => .outside := by
  have hrun := run_each (C := C) (s := s) (m := step)
    (I := fun D u => Invariant calls u ∧
      u.place = D.piecewise (fun t => .holding (c t) (left t)) (fun _ => .outside) ∧
      ∀ t ∈ C, t ∉ D → u.calls t = c t :: rest t) ?_ ⟨h, ?_, fun t ht _ => hs t ht⟩
  · obtain ⟨acts, s', hs', hinv, hplace, _⟩ := hrun
    exact ⟨acts, s', hs', hinv, hplace⟩
  · rintro D t u ht hD hnot ⟨hinv, hplace, hcalls⟩
    -- whoever holds something holds the queue of its own call
    have hfree : ∀ m, (∀ x ∈ D, m ≠ (c x).self) → u.owner m = none := by
      intro m hm
      refine hinv.free fun x hx => ?_
      rw [hplace] at hx
      by_cases hxD : x ∈ D
      · rw [Finset.piecewise_eq_of_mem _ _ _ hxD] at hx
        exact hm x hxD (List.mem_singleton.mp hx)
      · rw [Finset.piecewise_eq_of_notMem _ _ _ hxD] at hx
        exact absurd hx List.not_mem_nil
    have hown : u.owner (c t).self = none := by
      refine hfree _ fun x hx he => hnot ?_
      rwa [hinj (Finset.mem_coe.mpr ht) (Finset.mem_coe.mpr (hD hx)) he]
    obtain ⟨v, hv, howner, hplace_v, hcalls_v⟩ := run_enter
      (by rw [hplace, Finset.piecewise_eq_of_notMem _ _ _ hnot]) (hcalls t ht hnot) hown
    obtain ⟨acts, w, hw, _, hplace_w, hcalls_w⟩ := run_copies (before t) (left t)
      (by rw [hplace_v, Function.update_self, hdest t ht]) fun d hd => by
        rw [howner, Function.update_of_ne (hbefore t ht d hd t ht)]
        exact hfree d fun x hx => hbefore t ht d hd x (hD hx)
    have hrun : run step u ([t, t] ++ acts) = some w := run_append_eq_some.mpr ⟨v, hv, hw⟩
    refine ⟨_, w, hrun, run_invariant (fun _ _ _ hI hst => hI.step hproper hst) hinv hrun, ?_, ?_⟩
    · rw [hplace_w, hplace_v, Function.update_idem, hplace, Finset.piecewise_insert]
    · intro x hx hxD
      have hne : x ≠ t := fun he => hxD (he ▸ Finset.mem_insert_self t D)
      rw [hcalls_w, hcalls_v, Function.update_of_ne hne]
      exact hcalls x hx fun hmem => hxD (Finset.mem_insert_of_mem hmem)
  · rw [hidle.place, Finset.piecewise_empty]

/-- Threads whose calls copy in a circle have a run in which they wait in a circle. -/
theorem Circular.exists_deadlock (queues : κ → Q T) {calls : θ → List (MemberCall κ T)}
    (hproper : ∀ t, ∀ c ∈ calls t, c.Proper) (h : Circular calls) :
    ∃ acts s, run step (start queues calls) acts = some s ∧ Cyclic s.WaitsFor := by
  classical
  obtain ⟨C, c, hne, hmem, hinj, hnext⟩ := h.exists_members
  have hsplit : ∀ t ∈ C, ∃ first rest, calls t = first ++ c t :: rest :=
    fun t ht => List.append_of_mem (hmem t ht)
  have hstop : ∀ t ∈ C, ∃ before left, (c t).destinations = before ++ left ∧
      (∀ d ∈ before, ∀ u ∈ C, d ≠ (c u).self) ∧ ∃ u ∈ C, ∃ l, left = (c u).self :: l := by
    intro t ht
    obtain ⟨u, hu, hd⟩ := hnext t ht
    obtain ⟨x, hx⟩ := Option.isSome_iff_exists.mp (List.find?_isSome
      (p := fun d => decide (∃ u ∈ C, d = (c u).self)).mpr ⟨_, hd, decide_eq_true ⟨u, hu, rfl⟩⟩)
    obtain ⟨hx, before, l, he, hbefore⟩ := List.find?_eq_some_iff_append.mp hx
    obtain ⟨v, hv, rfl⟩ := of_decide_eq_true hx
    refine ⟨before, _, he, fun d hd w hw hdw => ?_, v, hv, l, rfl⟩
    have hno := hbefore d hd
    rw [Bool.not_eq_true', decide_eq_false_iff_not] at hno
    exact hno ⟨w, hw, hdw⟩
  choose! first rest hcalls using hsplit
  choose! before left hleft using hstop
  obtain ⟨acts, s, hs, hidle, hs'⟩ := exists_idle queues (fun t => c t :: rest t) hproper C
    hcalls
  obtain ⟨acts', s', hrun, hinv, hplace⟩ := exists_waiting hproper hinj
    (fun t ht => (hleft t ht).1) (fun t ht => (hleft t ht).2.1)
    (run_invariant_start hproper hs) hidle
    fun t ht => by rw [hs', Finset.piecewise_eq_of_mem _ _ _ ht]
  refine ⟨acts ++ acts', s', run_append_eq_some.mpr ⟨s, hs, hrun⟩, ?_⟩
  refine ClosedUnder.cyclic (s := C) ⟨hne, fun t ht => ?_⟩
  obtain ⟨u, hu, l, hl⟩ := (hleft t ht).2.2
  have hplace_t : s'.place t = .holding (c t) ((c u).self :: l) := by
    rw [hplace, Finset.piecewise_eq_of_mem _ _ _ ht, hl]
  have hplace_u : s'.place u = .holding (c u) (left u) := by
    rw [hplace, Finset.piecewise_eq_of_mem _ _ _ hu]
  refine ⟨u, hu, (c u).self, by rw [hplace_t]; rfl, (hinv.owned _ u).mpr ?_⟩
  simp only [hplace_u, CallPlace.held, List.mem_singleton]

/-- No run reaches a circle of waiting threads exactly when no calls of the threads copy in
a circle. -/
theorem deadlock_free_iff (queues : κ → Q T) {calls : θ → List (MemberCall κ T)}
    (hproper : ∀ t, ∀ c ∈ calls t, c.Proper) :
    (∀ acts s, run step (start queues calls) acts = some s → ¬ Cyclic s.WaitsFor) ↔
      ¬ Circular calls := by
  constructor
  · intro h hcircular
    obtain ⟨acts, s, hrun, hcycle⟩ := hcircular.exists_deadlock queues hproper
    exact h acts s hrun hcycle
  · intro h acts s hrun hcycle
    exact h ((run_invariant_start hproper hrun).circular hcycle)

/-- Where no calls copy in a circle, some thread can go on as long as any has something to do. -/
theorem exists_step [Finite θ] {queues : κ → Q T} {calls : θ → List (MemberCall κ T)}
    (hproper : ∀ t, ∀ c ∈ calls t, c.Proper) (hno : ¬ Circular calls) {acts : List θ}
    {s : Copying θ κ T} (hrun : run step (start queues calls) acts = some s) {t : θ}
    (ht : s.place t ≠ .outside ∨ s.calls t ≠ []) : ∃ u s', step s u = some s' := by
  classical
  have := Fintype.ofFinite θ
  have hinv := run_invariant_start hproper hrun
  by_contra hstuck
  push Not at hstuck
  let busy := Finset.univ.filter fun u => s.place u ≠ .outside ∨ s.calls u ≠ []
  -- every busy thread waits for one that holds something, and so is busy itself
  refine hno (hinv.circular (ClosedUnder.cyclic (s := busy) ⟨⟨t, by simpa [busy] using ht⟩, ?_⟩))
  intro u hu
  obtain ⟨m, hm, howner⟩ : ∃ m, (s.place u).wants = some m ∧ s.owner m ≠ none := by
    by_contra hfree
    push Not at hfree
    obtain ⟨s', hs'⟩ := step_enabled (by simpa [busy] using hu) hfree
    exact hstuck u s' hs'
  obtain ⟨v, hv⟩ := Option.ne_none_iff_exists'.mp howner
  have hheld : m ∈ (s.place v).held := (hinv.owned m v).mp hv
  have hbusy : s.place v ≠ .outside := by
    intro he
    rw [he] at hheld
    exact List.not_mem_nil hheld
  exact ⟨v, by simp [busy, hbusy], m, hm, hv⟩

/-- Two threads that copy one queue to the other, one thread one way and one the other way. -/
def opposite (t : Bool) : List (MemberCall Bool Nat) := [.copy t !t]

/-- Each has locked its own queue and waits for the other's. -/
theorem opposite_copies_deadlock : (∀ t, ∀ c ∈ opposite t, c.Proper) ∧
    ∃ acts s, run step (start (fun _ => Q.new) opposite) acts = some s ∧ Cyclic s.WaitsFor := by
  refine ⟨by decide, [true, true, false, false], _, rfl, true, ?_⟩
  exact .tail (.single (b := false) ⟨false, rfl, rfl⟩) ⟨true, rfl, rfl⟩

/-- Two threads that copy the same way. -/
def oneWay : Bool → List (MemberCall Bool Nat)
  | false => [.push false 7, .copy false true]
  | true => [.copyAll false [true] [0], .move true]

theorem one_way_copies_never_deadlock : (∀ t, ∀ c ∈ oneWay t, c.Proper) ∧
    ∀ acts s, run step (start (fun _ => Q.new) oneWay) acts = some s → ¬ Cyclic s.WaitsFor := by
  have hproper : ∀ t, ∀ c ∈ oneWay t, c.Proper := by decide
  refine ⟨hproper, (deadlock_free_iff (fun _ => Q.new) hproper).mpr ?_⟩
  exact not_circular_of_rank Bool.toNat (by decide)

end DataPipeline.Copying
