import DataPipeline.Broadcast.Latency

/-!
# How much copying and popping is left

A message in an input queue is still to be copied to every output queue, or to those that
a copy in progress has not reached, and what an output queue holds is still to be popped.
A broadcast only moves messages on: no step but a push adds to what is left, and a pass
that has begun ends after a number of its steps that depends on the numbers of queues.
No step of a thread that is at the right place can fail.
-/

namespace DataPipeline

/-- How many steps are left of the pass at most, or of the next one between two passes. -/
def Sweep.left (n k : Nat) : Sweep → Nat
  | .idle => n * (k + 3) + 2
  | w => n * (k + 3) + 1 - w.place n k

/-- How many of `k` output queues a message in input queue `i` has yet to be copied to. -/
def Sweep.copies (k i : Nat) : Sweep → Nat
  | .copying _ x enableCopy => if x = i then enableCopy.length else k
  | _ => k

theorem Sweep.copies_of_free {k i : Nat} {w : Sweep} (h : ¬ w.Holds i) : w.copies k i = k := by
  cases w with
  | copying _ x _ => exact if_neg h
  | idle | visit | nonEmpty => rfl

namespace Pipe

open Machine

variable {θ T : Type} {popId : θ → String}

/-- How often a message is still to be copied or popped. -/
def backlog (s : Pipe θ T) : Nat :=
  (s.manager.inQueues.mapIdx fun i q =>
      s.sweep.copies s.manager.outQueues.length i * q.queue.length).sum +
    (s.manager.outQueues.mapIdx fun _ q => q.queue.length).sum

variable [DecidableEq θ]

/-- A pass that does not end in a step has less to go. -/
theorem Step.left {s s' : Pipe θ T} (h : Step popId s .sweep s')
    (hok : s.sweep.Ok s.manager.outQueues.length s.manager.inQueues.length)
    (hne : s'.sweep ≠ .idle) :
    s'.sweep.left s.manager.inQueues.length s.manager.outQueues.length + 1 ≤
      s.sweep.left s.manager.inQueues.length s.manager.outQueues.length := by
  generalize hn : s.manager.inQueues.length = n at *
  generalize hk : s.manager.outQueues.length = k at *
  have hsucc : ∀ x, (x + 1) * (k + 3) = x * (k + 3) + (k + 3) := fun x => Nat.succ_mul x (k + 3)
  have hle : ∀ {x}, x < n → (x + 1) * (k + 3) ≤ n * (k + 3) := fun hx =>
    Nat.mul_le_mul_right _ hx
  cases h with
  | passMap hw => exact absurd hw hne
  | passEnd => exact absurd rfl hne
  | passBegin hw =>
    simp only [hw, Sweep.left, Sweep.place]
    omega
  | @visitFound broadCastList x it hw hx =>
    have hlt : x < n := hn ▸ (List.getElem?_eq_some_iff.mp hx).1
    have := hle hlt
    have := hsucc x
    simp only [hw, Sweep.left, Sweep.place, Nat.min_eq_left (Nat.le_of_lt hlt)]
    omega
  | @visitSkip broadCastList x it hw hx =>
    have hlt : x + 1 ≤ n := hn ▸ (List.getElem?_eq_some_iff.mp hx).1
    have := hle hlt
    have := hsucc x
    simp only [hw, Sweep.left, Sweep.place, Nat.min_eq_left (Nat.le_of_succ_le hlt),
      Nat.min_eq_left hlt]
    omega
  | @copyBegin broadCastList x hw =>
    rw [hw] at hok
    obtain ⟨rfl, hlt⟩ := hok
    have := hle hlt
    have := hsucc x
    simp only [hw, Sweep.left, Sweep.place, List.length_range]
    omega
  | @copyTo broadCastList x id enableCopy it other hw =>
    rw [hw] at hok
    obtain ⟨_, hlt, hsuf⟩ := hok
    have hlen := hsuf.length_le
    rw [List.length_range, List.length_cons] at hlen
    have := hle hlt
    have := hsucc x
    simp only [hw, Sweep.left, Sweep.place, List.length_cons]
    omega
  | @copyEnd broadCastList x it hw hx =>
    have hlt : x + 1 ≤ n := hn ▸ (List.getElem?_eq_some_iff.mp hx).1
    have := hle hlt
    have := hsucc x
    simp only [hw, Sweep.left, Sweep.place, Nat.min_eq_left hlt, List.length_nil]
    omega

/-! ### What each step does to the backlog -/

/-- A copy moves messages on. -/
theorem Step.backlog_sweep {s s' : Pipe θ T} (h : Step popId s .sweep s')
    (hok : s.sweep.Ok s.manager.outQueues.length s.manager.inQueues.length) :
    s'.backlog = s.backlog := by
  cases h with
  | passBegin hw | passMap hw | passEnd hw | visitFound hw | visitSkip hw =>
    simp only [backlog, hw, Sweep.copies]
  | @copyBegin broadCastList x hw =>
    rw [hw] at hok
    obtain ⟨rfl, _⟩ := hok
    simp only [backlog, hw, Sweep.copies, List.length_range, ite_self]
  | @copyTo broadCastList x id enableCopy it other hw hx hid =>
    have hin := sum_mapIdx_set hx (f := fun i q => s.sweep.copies s.manager.outQueues.length i *
        q.queue.length) (g := fun i q =>
          (Sweep.copying broadCastList x enableCopy).copies s.manager.outQueues.length i *
            q.queue.length) (fun i q hne _ => by
        simp only [hw, Sweep.copies, if_neg (Ne.symm hne)]) it
    have hout := sum_mapIdx_set hid (f := fun _ q => q.queue.length)
      (g := fun _ q => q.queue.length) (fun _ _ _ _ => rfl) (it.copyTo other)
    have hself : s.manager.inQueues.set x it = s.manager.inQueues := by
      obtain ⟨hlt, rfl⟩ := List.getElem?_eq_some_iff.mp hx
      exact List.set_getElem_self ..
    simp only [hself, hw, Sweep.copies, if_pos, List.length_cons, Nat.succ_mul] at hin
    simp only [Q.queue_copyTo, List.length_append] at hout
    simp only [backlog, List.length_set, hw, Sweep.copies, List.length_cons]
    omega
  | @copyEnd broadCastList x it hw hx =>
    have hin := sum_mapIdx_set hx (f := fun i q => s.sweep.copies s.manager.outQueues.length i *
        q.queue.length) (g := fun i q => s.manager.outQueues.length * q.queue.length)
      (fun i q hne _ => by simp only [hw, Sweep.copies, if_neg (Ne.symm hne)]) ⟨[]⟩
    simp only [hw, Sweep.copies, if_pos, List.length_nil, Nat.zero_mul, Nat.mul_zero,
      Nat.add_zero] at hin
    simp only [backlog, hw, Sweep.copies, List.length_nil]
    omega

/-- A call of `pop` that has not come to `Q::move` leaves the messages where they are. -/
theorem Step.backlog_popTest {s s' : Pipe θ T} {t : θ} (h : Step popId s (.popTest t) s') :
    s'.backlog = s.backlog := by
  cases h <;> rfl

/-- What a call of `pop` moves out is off the backlog. -/
theorem Step.backlog_popMove {s s' : Pipe θ T} {t : θ} (h : Step popId s (.popMove t) s') :
    s'.backlog + ((s'.data t).drop (s.data t).length).length = s.backlog := by
  cases h with
  | @popMove _ id q hc hq =>
    have hout := sum_mapIdx_set hq (f := fun _ q => q.queue.length)
      (g := fun _ q => q.queue.length) (fun _ _ _ _ => rfl) ⟨[]⟩
    simp only [List.length_nil, Nat.add_zero] at hout
    simp only [backlog, ret, Function.update_self, List.drop_left, List.length_set]
    omega

/-- A push brings one message, to be copied to every output queue. -/
theorem Step.backlog_push {s s' : Pipe θ T} {data : T} {pushId : String}
    (h : Step popId s (.push data pushId) s') :
    s'.backlog ≤ s.backlog + s.manager.outQueues.length := by
  cases h with
  | pushUnknown => exact Nat.le_add_right _ _
  | @push _ _ id q hl hfree hq =>
    have hin := sum_mapIdx_set hq
      (f := fun i q => s.sweep.copies s.manager.outQueues.length i * q.queue.length)
      (g := fun i q => s.sweep.copies s.manager.outQueues.length i * q.queue.length)
      (fun _ _ _ _ => rfl) (q.push data)
    simp only [Sweep.copies_of_free hfree, Q.queue_push, List.length_append, List.length_singleton,
      Nat.mul_add, Nat.mul_one] at hin
    simp only [backlog]
    omega

/-! ### No step at the right place fails -/

/-- The broadcasting thread can always go on. -/
theorem Wired.sweep_enabled {s : Pipe θ T} (hw : Wired popId s) :
    ∃ s', next popId s .sweep = some s' := by
  have hok := hw.sweep
  simp only [next]
  unfold sweepNext
  split
  · split <;> exact ⟨_, rfl⟩
  · split
    · exact ⟨_, rfl⟩
    · split <;> exact ⟨_, rfl⟩
  · exact ⟨_, rfl⟩
  · rename_i broadCastList i hsw
    rw [hsw] at hok
    rw [List.getElem?_eq_getElem hok.2.1]
    exact ⟨_, rfl⟩
  · rename_i broadCastList i id enableCopy hsw
    rw [hsw] at hok
    obtain ⟨_, hlt, hsuf⟩ := hok
    have hid := List.mem_range.mp (hsuf.mem List.mem_cons_self)
    rw [List.getElem?_eq_getElem hlt, List.getElem?_eq_getElem hid]
    exact ⟨_, rfl⟩

/-- A thread that is not inside `pop` can call it. -/
theorem Wired.popTest_enabled {s : Pipe θ T} (hw : Wired popId s) {t : θ}
    (ht : s.calls t = .idle) : ∃ s', next popId s (.popTest t) = some s' := by
  simp only [next, ht]
  split
  · exact ⟨_, rfl⟩
  · rename_i id hid
    rw [List.getElem?_eq_getElem (hw.belowOut _ id hid)]
    exact ⟨_, rfl⟩

/-- A thread that has found its queue not empty can take what it holds. -/
theorem Wired.popMove_enabled {s : Pipe θ T} (hw : Wired popId s) {t : θ}
    (ht : s.calls t ≠ .idle) : ∃ s', next popId s (.popMove t) = some s' := by
  cases hc : s.calls t with
  | idle => exact absurd hc ht
  | nonEmpty id =>
    have hlt := hw.belowOut _ id (hw.calls t id hc)
    simp only [next, hc, List.getElem?_eq_getElem hlt]
    exact ⟨_, rfl⟩

end Pipe

end DataPipeline
