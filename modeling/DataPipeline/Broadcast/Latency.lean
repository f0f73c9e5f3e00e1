import DataPipeline.Broadcast.Pops
import DataPipeline.Core.Ranking

/-!
# How long a message takes to a consumer

The broadcasting thread goes round: whatever the others do, within two passes of its own it
copies every input queue that is not empty. So what a feeder has pushed is in all output
queues after a number of its steps that depends on the numbers of queues only, and a thread
that pops has it two steps of its own later.
-/

namespace DataPipeline

/-- How many steps of a pass lie before a place, if every input queue takes as many steps as
one that is copied. There are `n` input queues and `k` output queues. -/
def Sweep.place (n k : Nat) : Sweep → Nat
  | .idle => n * (k + 3) + 1
  | .visit _ i => min i n * (k + 3)
  | .nonEmpty _ i => i * (k + 3) + 1
  | .copying _ i enableCopy => i * (k + 3) + 2 + (k - enableCopy.length)

/-- How many steps there are at most until input queue `i` has been copied. -/
def Sweep.until (n k i : Nat) (w : Sweep) : Nat :=
  if w.place n k < (i + 1) * (k + 3) then (i + 1) * (k + 3) - w.place n k
  else n * (k + 3) + 2 - w.place n k + (i + 1) * (k + 3)

theorem Sweep.until_pos (n k i : Nat) (w : Sweep) : 0 < w.until n k i := by
  have hpos : 0 < (i + 1) * (k + 3) := Nat.mul_pos (Nat.succ_pos i) (Nat.succ_pos _)
  unfold Sweep.until
  split <;> omega

/-- Two passes are enough. -/
theorem Sweep.until_le {n i : Nat} (hi : i < n) (k : Nat) (w : Sweep) :
    w.until n k i ≤ 2 * (n * (k + 3) + 1) := by
  have hle : (i + 1) * (k + 3) ≤ n * (k + 3) := Nat.mul_le_mul_right _ hi
  unfold Sweep.until
  split <;> omega

/-- A step forward within a pass that does not go past input queue `i`. -/
theorem Sweep.until_forward {n k i : Nat} {w w' : Sweep} (hlt : w.place n k < w'.place n k)
    (hle : w'.place n k ≤ n * (k + 3) + 1)
    (hpast : w.place n k < (i + 1) * (k + 3) → w'.place n k < (i + 1) * (k + 3)) :
    w'.until n k i + 1 ≤ w.until n k i := by
  unfold Sweep.until
  split <;> split <;> omega

/-- A step that stays with input queue `x`. -/
theorem Sweep.until_inside {n k i x : Nat} (hx : x < n) {w w' : Sweep}
    (hfrom : x * (k + 3) ≤ w.place n k) (hlt : w.place n k < w'.place n k)
    (hto : w'.place n k < (x + 1) * (k + 3)) : w'.until n k i + 1 ≤ w.until n k i := by
  have hxn : (x + 1) * (k + 3) ≤ n * (k + 3) := Nat.mul_le_mul_right _ hx
  apply Sweep.until_forward hlt (by omega)
  intro hpast
  rcases Nat.lt_or_ge i x with hix | hxi
  · have : (i + 1) * (k + 3) ≤ x * (k + 3) := Nat.mul_le_mul_right _ hix
    omega
  · have : (x + 1) * (k + 3) ≤ (i + 1) * (k + 3) := Nat.mul_le_mul_right _ (Nat.succ_le_succ hxi)
    omega

/-- A step from input queue `x`, which is not the one waited for, to the next one. -/
theorem Sweep.until_over {n k i x : Nat} (hx : x < n) (hne : x ≠ i) {w w' : Sweep}
    (hfrom : x * (k + 3) ≤ w.place n k) (hlt : w.place n k < (x + 1) * (k + 3))
    (hto : w'.place n k = (x + 1) * (k + 3)) : w'.until n k i + 1 ≤ w.until n k i := by
  have hxn : (x + 1) * (k + 3) ≤ n * (k + 3) := Nat.mul_le_mul_right _ hx
  apply Sweep.until_forward (by omega) (by omega)
  intro hpast
  rcases Nat.lt_or_gt_of_ne hne with hxi | hix
  · have : (x + 1) * (k + 3) ≤ i * (k + 3) := Nat.mul_le_mul_right _ hxi
    have : (i + 1) * (k + 3) = i * (k + 3) + (k + 3) := Nat.succ_mul i _
    omega
  · have : (i + 1) * (k + 3) ≤ x * (k + 3) := Nat.mul_le_mul_right _ hix
    omega

namespace Pipe

open Machine

variable {θ T : Type} [DecidableEq θ] {popId : θ → String}

/-! ### One step of the broadcasting thread -/

/-- Only the broadcasting thread changes where it stands. -/
theorem Step.sweep_eq {s s' : Pipe θ T} {a : Act θ T} (h : Step popId s a s') (ha : a ≠ .sweep) :
    s'.sweep = s.sweep := by
  cases h with
  | pushUnknown | push | popFail | popFound | popMove => rfl
  | passBegin | passMap | passEnd | visitFound | visitSkip | copyBegin | copyTo | copyEnd =>
    exact absurd rfl ha

theorem Step.mode {s s' : Pipe θ T} {a : Act θ T} (h : Step popId s a s') :
    s'.manager.mode = s.manager.mode := by
  cases h <;> rfl

/-- A step of the broadcasting thread completes the copy of an input queue that is not empty, or
brings it nearer. -/
theorem Step.until {s s' : Pipe θ T} (h : Step popId s .sweep s')
    (hok : s.sweep.Ok s.manager.outQueues.length s.manager.inQueues.length)
    (hmode : s.manager.mode = .BROADCAST) {i : Nat} (hi : i < s.manager.inQueues.length)
    (hne : s.waiting i ≠ []) (hk : 0 < s.manager.outQueues.length) :
    (∃ broadCastList, s.sweep = .copying broadCastList i []) ∨
      s'.sweep.until s.manager.inQueues.length s.manager.outQueues.length i + 1 ≤
        s.sweep.until s.manager.inQueues.length s.manager.outQueues.length i := by
  generalize hn : s.manager.inQueues.length = n at *
  generalize hm : s.manager.outQueues.length = k at *
  have hsucc : ∀ x, (x + 1) * (k + 3) = x * (k + 3) + (k + 3) := fun x => Nat.succ_mul x (k + 3)
  have hvisit : ∀ broadCastList {x}, x ≤ n →
      (Sweep.visit broadCastList x).place n k = x * (k + 3) := fun _ _ hx => by
    rw [Sweep.place, Nat.min_eq_left hx]
  cases h with
  | passMap _ hmap => exact absurd (hmode.symm.trans hmap) nofun
  | passBegin hw =>
    apply Or.inr
    have : (i + 1) * (k + 3) ≤ n * (k + 3) := Nat.mul_le_mul_right _ hi
    have := hsucc i
    simp only [hw, Sweep.until, Sweep.place, Nat.zero_min, Nat.zero_mul]
    split <;> split <;> omega
  | @passEnd broadCastList x hw hx =>
    have hplace : (Sweep.visit broadCastList x).place n k = n * (k + 3) := by
      rw [Sweep.place, Nat.min_eq_right (hn ▸ hx)]
    have : (i + 1) * (k + 3) ≤ n * (k + 3) := Nat.mul_le_mul_right _ hi
    rw [hw]
    refine Or.inr (Sweep.until_forward ?_ (Nat.le_refl _) fun hpast => ?_)
    · rw [hplace]
      exact Nat.lt_succ_self _
    · omega
  | @visitFound broadCastList x it hw hx _ _ =>
    have hlt : x < n := hn ▸ (List.getElem?_eq_some_iff.mp hx).1
    have hplace := hvisit broadCastList (Nat.le_of_lt hlt)
    have := hsucc x
    rw [hw]
    refine Or.inr (Sweep.until_inside hlt (Nat.le_of_eq hplace.symm) ?_ ?_)
    · rw [hplace]
      exact Nat.lt_succ_self _
    · simp only [Sweep.place]
      omega
  | @visitSkip broadCastList x it hw hx hskip =>
    have hlt : x < n := hn ▸ (List.getElem?_eq_some_iff.mp hx).1
    have hplace := hvisit broadCastList (Nat.le_of_lt hlt)
    have hxi : x ≠ i := by
      rintro rfl
      rw [hw] at hok
      rcases hskip with he | rfl
      · exact hne ((contents_eq hx).trans he)
      · exact absurd (List.range_eq_nil.mp (Eq.symm hok)) (Nat.ne_of_gt hk)
    rw [hw]
    refine Or.inr (Sweep.until_over hlt hxi (Nat.le_of_eq hplace.symm) ?_ (hvisit _ hlt))
    rw [hplace, hsucc x]
    omega
  | @copyBegin broadCastList x hw =>
    rw [hw] at hok ⊢
    obtain ⟨rfl, hlt⟩ := hok
    have := hsucc x
    refine Or.inr (Sweep.until_inside hlt ?_ ?_ ?_) <;>
      simp only [Sweep.place, List.length_range] <;> omega
  | @copyTo broadCastList x id enableCopy it other hw =>
    rw [hw] at hok ⊢
    obtain ⟨_, hlt, hsuf⟩ := hok
    have hlen := hsuf.length_le
    rw [List.length_range, List.length_cons] at hlen
    have := hsucc x
    refine Or.inr (Sweep.until_inside hlt ?_ ?_ ?_) <;>
      simp only [Sweep.place, List.length_cons] <;> omega
  | @copyEnd broadCastList x it hw hx =>
    by_cases hxi : x = i
    · exact Or.inl ⟨broadCastList, hxi ▸ hw⟩
    · have hlt : x < n := hn ▸ (List.getElem?_eq_some_iff.mp hx).1
      have := hsucc x
      rw [hw]
      refine Or.inr (Sweep.until_over hlt hxi ?_ ?_ (hvisit _ hlt)) <;>
        simp only [Sweep.place, List.length_nil] <;> omega

/-! ### Two passes -/

/-- The step is one of the broadcasting thread. -/
def Act.isSweep : Act θ T → Bool
  | .sweep => true
  | _ => false

/-- The step is one of the popping thread `t`. -/
def Act.isPopOf (t : θ) : Act θ T → Bool
  | .popTest u | .popMove u => decide (u = t)
  | _ => false

/-- The numbers of queues and the mode stay what they are. -/
theorem run_sizes {dm : DataManager T} {acts : List (Act θ T)} {s : Pipe θ T}
    (hrun : run (next popId) (start dm) acts = some s) :
    s.manager.inQueues.length = dm.inQueues.length ∧
      s.manager.outQueues.length = dm.outQueues.length ∧ s.manager.mode = dm.mode :=
  run_invariant (I := fun s => s.manager.inQueues.length = dm.inQueues.length ∧
      s.manager.outQueues.length = dm.outQueues.length ∧ s.manager.mode = dm.mode)
    (fun _ _ _ hs h => ⟨(next_cases h).inQueues_length.trans hs.1,
      (next_cases h).outQueues_length.trans hs.2.1, (next_cases h).mode.trans hs.2.2⟩)
    ⟨rfl, rfl, rfl⟩ hrun

omit [DecidableEq θ] in
/-- What a feeder has pushed is in the log once nothing of it waits. -/
theorem Fifo.sent {src : T → String} {before acts : List (Act θ T)} {s : Pipe θ T} {log : List T}
    (hF : Fifo src (before ++ acts) s log) {f : String} {i : Nat}
    (hf : s.manager.inQueuesIds.lookup f = some i) (hi : s.waiting i = []) :
    completed f before <+: log.filter fun m => src m = f := by
  have horder := hF.order f i hf
  rw [hi, List.append_nil] at horder
  rw [horder, completed, completed, List.filterMap_append]
  exact List.prefix_append _ _

/-- Within two passes of the broadcasting thread everything a feeder has pushed before has
joined the log. -/
theorem sent_within {dm : DataManager T} (hdm : dm.Registered) (hmode : dm.mode = .BROADCAST)
    {src : T → String} {before acts : List (Act θ T)}
    (hsrc : ∀ a ∈ before ++ acts, FromFeeder src a) {s t : Pipe θ T}
    (hs : run (next popId) (start dm) before = some s)
    (ht : run (next popId) s acts = some t) {f : String} {i : Nat}
    (hf : dm.inQueuesIds.lookup f = some i) (hk : 0 < dm.outQueues.length)
    (hlong : 2 * (dm.inQueues.length * (dm.outQueues.length + 3) + 1) ≤
      acts.countP Act.isSweep) :
    completed f before <+: (sentLog popId dm (before ++ acts)).filter fun m => src m = f := by
  have hi : i < dm.inQueues.length := hdm.1.below f i hf
  refine run_within
    (G := fun as _ => completed f before <+:
      (sentLog popId dm (before ++ as)).filter fun m => src m = f)
    (fun u => u.sweep.until dm.inQueues.length dm.outQueues.length i) Act.isSweep
    ?_ ht (fun _ => Sweep.until_pos ..) ((Sweep.until_le hi ..).trans hlong)
  intro as a after u v he hu h
  have hu' : run (next popId) (start dm) (before ++ as) = some u :=
    run_append_eq_some.mpr ⟨s, hs, hu⟩
  have hv' : run (next popId) (start dm) (before ++ (as ++ [a])) = some v :=
    run_append_eq_some.mpr ⟨s, hs, run_concat_eq_some.mpr ⟨u, hu, h⟩⟩
  have hsrcv : ∀ b ∈ before ++ (as ++ [a]), FromFeeder src b := by
    intro b hb
    apply hsrc b
    rw [he, List.append_cons, ← List.append_assoc before]
    exact List.mem_append_left _ hb
  have hsrcu : ∀ b ∈ before ++ as, FromFeeder src b := fun b hb =>
    hsrcv b (by rw [← List.append_assoc]; exact List.mem_append_left _ hb)
  have hgrows : (sentLog popId dm (before ++ as)).filter (fun m => src m = f) <+:
      (sentLog popId dm (before ++ (as ++ [a]))).filter fun m => src m = f := by
    rw [← List.append_assoc]
    have hp := observe_prefix (m := next popId) joined (start dm) (before ++ as) [a]
    exact hp.filter _
  have hids : ∀ {acts w}, run (next popId) (start dm) acts = some w →
      w.manager.inQueuesIds.lookup f = some i := fun hw => (run_ids hw).1 ▸ hf
  refine ⟨fun hG => hG.trans hgrows, ?_⟩
  by_cases ha : a = .sweep
  · subst ha
    by_cases hwait : u.waiting i = []
    · exact Or.inl (((run_fifo hdm hsrcu hu').sent (hids hu') hwait).trans hgrows)
    · obtain ⟨hin, hout, hmode'⟩ := run_sizes hu'
      rcases (next_cases h).until (run_wired hdm hu').sweep (hmode'.trans hmode)
        (hin ▸ hi) hwait (hout ▸ hk) with ⟨broadCastList, hw⟩ | hrank
      · left
        refine (run_fifo hdm hsrcv hv').sent (hids hv') ?_
        cases next_cases h with
        | copyEnd hw' hx =>
          obtain ⟨-, rfl, -⟩ := Sweep.copying.inj (hw.symm.trans hw')
          rw [waiting, contents_set (List.getElem?_eq_some_iff.mp hx).1, if_pos rfl]
        | passBegin hw' | passMap hw' | passEnd hw' | visitFound hw' | visitSkip hw'
          | copyBegin hw' | copyTo hw' => cases hw.symm.trans hw'
      · rw [hin, hout] at hrank
        exact Or.inr hrank
  · right
    have hp : Act.isSweep a = false := by
      cases a with
      | sweep => exact absurd rfl ha
      | push | popTest | popMove => rfl
    rw [hp, (next_cases h).sweep_eq ha]
    exact Nat.le_refl _

/-! ### Two steps more -/

/-- What was sent to an output queue is there or has been moved out of it. -/
theorem delivered_prefix {s t : Pipe θ T} {acts : List (Act θ T)}
    (hrun : run (next popId) s acts = some t) (j : Nat) : s.delivered j <+: t.delivered j :=
  run_invariant (I := fun t => s.delivered j <+: t.delivered j)
    (fun _ _ _ hI h => hI.trans (delivered_step h j ▸ List.prefix_append _ _))
    (List.prefix_refl _) hrun

/-- Two steps of a thread that pops for an output queue move everything out that was sent to
it before, whatever comes between them. -/
theorem moved_within {dm : DataManager T} (hdm : dm.Registered) {before acts : List (Act θ T)}
    {s t : Pipe θ T} (hs : run (next popId) (start dm) before = some s)
    (ht : run (next popId) s acts = some t) {r : θ} {j : Nat}
    (hj : dm.outQueuesIds.lookup (popId r) = some j) (hlong : 2 ≤ acts.countP (Act.isPopOf r)) :
    s.delivered j <+: t.handed j := by
  refine run_within (G := fun _ u => s.delivered j <+: u.handed j)
    (fun u => if u.calls r = .idle then 2 else 1) (Act.isPopOf r) ?_ ht
    (fun _ => by split <;> decide) (le_trans (by split <;> decide) hlong)
  intro as a after u v _ hu h
  have hw := run_wired hdm (run_append_eq_some.mpr ⟨s, hs, hu⟩)
  have hj' : u.manager.outQueuesIds.lookup (popId r) = some j := by
    rw [(run_ids (run_append_eq_some.mpr ⟨s, hs, hu⟩)).2, hj]
  have hdelivered := delivered_prefix hu j
  refine ⟨fun hG => hG.trans ?_, ?_⟩
  · exact handed_step hw.distinctOut hw.calls h hj' ▸ List.prefix_append _ _
  cases next_cases h with
  | pushUnknown | push | passBegin | passMap | passEnd | visitFound | visitSkip | copyBegin
    | copyTo | copyEnd => exact Or.inr (Nat.le_refl _)
  | @popFail x hc hnone =>
    by_cases hx : x = r
    · -- the queue is empty
      subst hx
      rw [delivered, delivered, hnone j hj', List.append_nil] at hdelivered
      exact Or.inl hdelivered
    · right
      simp only [Act.isPopOf, hx, decide_false, Bool.false_eq_true, ite_false, ret,
        Function.update_of_ne (Ne.symm hx), Nat.add_zero, Nat.le_refl]
  | @popFound x id q hc hl hq hne =>
    right
    by_cases hx : x = r
    · subst hx
      simp only [Act.isPopOf, decide_true, ite_true, Function.update_self, reduceCtorEq, ite_false,
        hc, Nat.le_refl]
    · simp only [Act.isPopOf, hx, decide_false, Bool.false_eq_true, ite_false,
        Function.update_of_ne (Ne.symm hx), Nat.add_zero, Nat.le_refl]
  | @popMove x id q hc hq =>
    by_cases hx : x = r
    · subst hx
      obtain rfl := Option.some.inj (hj'.symm.trans (hw.calls x id hc))
      left
      simp only [ret, Function.update_self]
      rwa [delivered, delivered, contents_eq hq] at hdelivered
    · right
      simp only [Act.isPopOf, hx, decide_false, Bool.false_eq_true, ite_false, ret,
        Function.update_of_ne (Ne.symm hx), Nat.add_zero, Nat.le_refl]

/-- How long a message takes at most. The manager saw registrations only, every consumer name
has one popping thread, and the steps interleave in any way. Once the broadcasting thread has
taken the steps of two passes, and after that the thread of a consumer two steps, the thread
has popped everything that a feeder had pushed before, in the feeder's order. -/
theorem popped_in_time {M : Type} (hinj : Function.Injective popId) {conf : DataManagerConf}
    {regs : List (DataManager.Op (String × M))} (hregs : ∀ op ∈ regs, op.Registers)
    {dm : DataManager (String × M)} (hdm : run DataManager.step (.new conf) regs = some dm)
    (hmode : dm.mode = .BROADCAST) {before sweeps pops : List (Act θ M)}
    {s t u : Pipe θ (String × M)} (hs : run (next popId) (start dm) (before.map tag) = some s)
    (ht : run (next popId) s (sweeps.map tag) = some t)
    (hu : run (next popId) t (pops.map tag) = some u)
    {f : String} (hf : f ∈ dm.inQueuesIds) {r : θ} (hr : popId r ∈ dm.outQueuesIds)
    (hsweeps : 2 * (dm.inQueues.length * (dm.outQueues.length + 3) + 1) ≤
      sweeps.countP Act.isSweep)
    (hpops : 2 ≤ pops.countP (Act.isPopOf r)) :
    completed f (before.map tag) <+: (u.data r).filter fun m => m.1 = f := by
  have hreg := DataManager.registered_of_run hregs hdm
  obtain ⟨i, hi⟩ := Slots.exists_lookup_of_mem hf
  obtain ⟨j, hj⟩ := Slots.exists_lookup_of_mem hr
  have hlt : j < dm.outQueues.length := hreg.2.below _ j hj
  have hst : run (next popId) (start dm) ((before ++ sweeps).map tag) = some t := by
    rw [List.map_append]
    exact run_append_eq_some.mpr ⟨s, hs, ht⟩
  have hstu : run (next popId) (start dm) ((before ++ sweeps ++ pops).map tag) = some u := by
    rw [List.map_append]
    exact run_append_eq_some.mpr ⟨t, hst, hu⟩
  have hcount : ∀ (p : Act θ (String × M) → Bool) (q : Act θ M → Bool) (as : List (Act θ M)),
      (∀ a, p (tag a) = q a) → (as.map tag).countP p = as.countP q := by
    intro p q as hpq
    rw [List.countP_map]
    exact List.countP_congr fun a _ => by rw [Function.comp_apply, hpq]
  have hsent := sent_within (T := String × M) hreg hmode
    (List.map_append ▸ fromFeeder_tag (before ++ sweeps)) hs ht hi (Nat.zero_lt_of_lt hlt)
    (by rwa [hcount _ Act.isSweep _ fun a => by cases a <;> rfl])
  have hmoved := moved_within hreg hst hu hj
    (by rwa [hcount _ (Act.isPopOf r) _ fun a => by cases a <;> rfl])
  have hdelivered : sentLog popId dm ((before ++ sweeps).map tag) <+: t.delivered j := by
    have hlen := (run_sizes hst).2.1
    rw [run_sent hreg hst j (hlen.symm ▸ hlt)]
    exact List.prefix_append _ _
  rw [run_reads hinj hreg hstu r j (by rw [(run_ids hstu).2, hj])]
  rw [← List.map_append] at hsent
  exact hsent.trans ((hdelivered.trans hmoved).filter _)

/-- One feeder and one consumer: ten steps of the broadcasting thread and a call of `pop`. -/
theorem popped_in_time_one_consumer :
    ∃ u, run (next id) (start (T := String × Nat)
        (((DataManager.new ⟨"dm", 8, 8, .BROADCAST⟩).setFeeder "f").1.setConsumer "c").1)
        ((([.push 1 "f"] ++ List.replicate 10 .sweep) ++ [.popTest "c", .popMove "c"] :
          List (Act String Nat)).map tag) = some u ∧
      [("f", 1)] <+: (u.data "c").filter fun m => m.1 = "f" := by
  have hregs : ∀ op ∈ [.setFeeder "f", .setConsumer "c"],
      DataManager.Op.Registers (T := String × Nat) op := by
    simp [DataManager.Op.Registers]
  obtain ⟨s, hs⟩ : ∃ s, run (next id) (start (T := String × Nat)
      (((DataManager.new ⟨"dm", 8, 8, .BROADCAST⟩).setFeeder "f").1.setConsumer "c").1)
      (([.push 1 "f"] : List (Act String Nat)).map tag) = some s := ⟨_, rfl⟩
  obtain ⟨t, ht⟩ : ∃ t, run (next id) s ((List.replicate 10 .sweep : List (Act String Nat)).map
      tag) = some t := by cases hs; exact ⟨_, rfl⟩
  obtain ⟨u, hu⟩ : ∃ u, run (next id) t (([.popTest "c", .popMove "c"] :
      List (Act String Nat)).map tag) = some u := by cases hs; cases ht; exact ⟨_, rfl⟩
  refine ⟨u, ?_, popped_in_time Function.injective_id hregs rfl rfl hs ht hu (f := "f") (r := "c")
    (by decide) (by decide) (by decide) (by decide)⟩
  rw [List.map_append, List.map_append]
  exact run_append_eq_some.mpr ⟨t, run_append_eq_some.mpr ⟨s, hs, ht⟩, hu⟩

end Pipe

end DataPipeline
