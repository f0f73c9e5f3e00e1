import DataPipeline.Broadcast.Delivery

/-!
# What the consumers see

With one popping thread for each consumer, what a thread has popped is what was moved
out of its consumer's queue. The log laws then speak about what the consumers have
and will read: every feeder's messages once and in order, and the same order of all
messages for all consumers.
-/

namespace DataPipeline.Pipe

open Machine

variable {θ T : Type} [DecidableEq θ] {popId : θ → String}

/-! ### The laws along a run -/

/-- The log a run has completed. -/
def sentLog (popId : θ → String) (dm : DataManager T) (acts : List (Act θ T)) : List T :=
  observe (next popId) joined (start dm) acts

theorem run_wired {dm : DataManager T} (hdm : dm.Registered) {acts : List (Act θ T)}
    {s : Pipe θ T} (hrun : run (next popId) (start dm) acts = some s) : Wired popId s :=
  run_invariant (fun _ _ _ hs h => hs.step (next_cases h)) (wired_start hdm) hrun

theorem run_sent {dm : DataManager T} (hdm : dm.Registered) {acts : List (Act θ T)}
    {s : Pipe θ T} (hrun : run (next popId) (start dm) acts = some s) :
    Sent s (sentLog popId dm acts) := by
  refine run_history (I := fun acts s => Sent s (sentLog popId dm acts)) (sent_start hdm) ?_ hrun
  intro acts u a v hu hS h
  rw [sentLog, observe_concat joined hu]
  exact hS.step (run_wired hdm hu) (next_cases h)

theorem run_fifo {dm : DataManager T} (hdm : dm.Registered) {src : T → String}
    {acts : List (Act θ T)} (hsrc : ∀ a ∈ acts, FromFeeder src a) {s : Pipe θ T}
    (hrun : run (next popId) (start dm) acts = some s) :
    Fifo src acts s (sentLog popId dm acts) := by
  refine run_history (I := fun acts s => (∀ a ∈ acts, FromFeeder src a) →
    Fifo src acts s (sentLog popId dm acts)) (fun _ => fifo_start src hdm) ?_ hrun hsrc
  intro acts u a v hu hF h hsrc
  rw [sentLog, observe_concat joined hu]
  have hacts : ∀ b ∈ acts, FromFeeder src b := fun b hb => hsrc b (List.mem_append_left _ hb)
  exact (hF hacts).step (run_wired hdm hu)
    (hsrc a (List.mem_append_right _ (List.mem_singleton_self a))) (next_cases h)

theorem run_ids {dm : DataManager T} {acts : List (Act θ T)} {s : Pipe θ T}
    (hrun : run (next popId) (start dm) acts = some s) :
    s.manager.inQueuesIds = dm.inQueuesIds ∧ s.manager.outQueuesIds = dm.outQueuesIds :=
  run_invariant (I := fun s => s.manager.inQueuesIds = dm.inQueuesIds ∧
      s.manager.outQueuesIds = dm.outQueuesIds)
    (fun _ _ _ hs h => ⟨(next_cases h).inQueuesIds.trans hs.1,
      (next_cases h).outQueuesIds.trans hs.2⟩) ⟨rfl, rfl⟩ hrun

/-- A message that waits neither in an input queue nor in the output queue has been moved out
of the output queue as often as it was pushed. -/
theorem handed_count [BEq T] [LawfulBEq T] {dm : DataManager T} (hdm : dm.Registered)
    {src : T → String} {acts : List (Act θ T)} (hsrc : ∀ a ∈ acts, FromFeeder src a)
    {s : Pipe θ T} (hrun : run (next popId) (start dm) acts = some s) {m : T} {i j : Nat}
    (hf : s.manager.inQueuesIds.lookup (src m) = some i) (hj : j < s.manager.outQueues.length)
    (hin : ∀ i, m ∉ s.waiting i) (hout : m ∉ contents s.manager.outQueues j) :
    (s.handed j).count m = (completed (src m) acts).count m := by
  have hflight : m ∉ s.inFlight j := fun hm =>
    (inFlight_subset s j m hm).elim fun i hi => hin i hi
  have hlog := congrArg (List.count m) (run_sent hdm hrun j hj)
  rw [delivered, List.count_append, List.count_append, List.count_eq_zero_of_not_mem hout,
    List.count_eq_zero_of_not_mem hflight] at hlog
  have hfeeder : (sentLog popId dm acts).count m =
      ((sentLog popId dm acts).filter fun m' => src m' = src m).count m :=
    (List.count_filter (p := fun m' => decide (src m' = src m)) (decide_eq_true rfl)).symm
  rw [← (run_fifo hdm hsrc hrun).order (src m) i hf, List.count_append,
    List.count_eq_zero_of_not_mem (hin i), ← hfeeder]
  exact hlog

/-! ### One thread for each consumer -/

/-- A thread has popped exactly what was moved out of its consumer's queue. -/
def Reads (popId : θ → String) (s : Pipe θ T) : Prop :=
  ∀ t j, s.manager.outQueuesIds.lookup (popId t) = some j → s.data t = s.handed j

theorem Reads.step (hinj : Function.Injective popId) {s s' : Pipe θ T} {a : Act θ T}
    (hR : Reads popId s) (hs : Wired popId s) (h : Step popId s a s') : Reads popId s' := by
  cases h with
  | pushUnknown | push | popFail | popFound | passBegin | passMap | passEnd | visitFound
    | visitSkip | copyBegin | copyTo | copyEnd => exact hR
  | @popMove u id q hc hq =>
    have hu := hs.calls u id hc
    intro t j ht
    simp only [ret] at ht ⊢
    by_cases he : t = u
    · subst t
      obtain rfl := Option.some.inj (hu.symm.trans ht)
      rw [Function.update_self, Function.update_self, hR u id hu]
    · have hne : j ≠ id := by
        rintro rfl
        exact he (hinj (hs.distinctOut (popId t) (popId u) j ht hu))
      rw [Function.update_of_ne he, Function.update_of_ne hne]
      exact hR t j ht

theorem run_reads (hinj : Function.Injective popId) {dm : DataManager T} (hdm : dm.Registered)
    {acts : List (Act θ T)} {s : Pipe θ T}
    (hrun : run (next popId) (start dm) acts = some s) : Reads popId s := by
  have h := run_invariant (I := fun s => Wired popId s ∧ Reads popId s)
    (fun _ _ _ hs h => ⟨hs.1.step (next_cases h), hs.2.step hinj hs.1 (next_cases h)⟩)
    ⟨wired_start hdm, fun _ _ _ => rfl⟩ hrun
  exact h.2

/-- What thread `t` has popped, followed by what its consumer's queue holds, is the log
with what the copy in progress has sent to that queue. -/
theorem data_append_contents (hinj : Function.Injective popId) {dm : DataManager T}
    (hdm : dm.Registered) {acts : List (Act θ T)} {s : Pipe θ T}
    (hrun : run (next popId) (start dm) acts = some s) {t : θ} {j : Nat}
    (ht : s.manager.outQueuesIds.lookup (popId t) = some j) :
    s.data t ++ contents s.manager.outQueues j = sentLog popId dm acts ++ s.inFlight j := by
  rw [run_reads hinj hdm hrun t j ht]
  exact run_sent hdm hrun j ((run_wired hdm hrun).belowOut _ j ht)

/-- What is read off the messages of one feeder is, for every consumer, what is read off its
completed pushes, unless the feeder's queue is being copied. -/
theorem filterMap_reaching (hinj : Function.Injective popId) {dm : DataManager T}
    (hdm : dm.Registered) {src : T → String} {acts : List (Act θ T)}
    (hsrc : ∀ a ∈ acts, FromFeeder src a) {s : Pipe θ T}
    (hrun : run (next popId) (start dm) acts = some s) {f : String} {i : Nat}
    (hf : s.manager.inQueuesIds.lookup f = some i) (hfree : ¬ s.sweep.Holds i) {t : θ} {j : Nat}
    (ht : s.manager.outQueuesIds.lookup (popId t) = some j) {β : Type*} {g : T → Option β}
    (hg : ∀ m b, g m = some b → src m = f) :
    (s.data t ++ contents s.manager.outQueues j ++ s.waiting i).filterMap g =
      (completed f acts).filterMap g := by
  have hF := run_fifo hdm hsrc hrun
  have hflight : (s.inFlight j).filterMap g = [] := by
    rw [List.filterMap_eq_nil_iff]
    intro m hm
    rw [← Option.not_isSome_iff_eq_none, Option.isSome_iff_exists]
    rintro ⟨b, hb⟩
    unfold inFlight at hm
    split at hm
    · rename_i k todo hw
      split at hm
      · exact absurd hm List.not_mem_nil
      · have hk := hF.owned k m hm
        rw [hg m b hb, hf] at hk
        exact hfree (by rw [hw]; exact (Option.some.inj hk).symm)
    · exact absurd hm List.not_mem_nil
  have hlog : ((sentLog popId dm acts).filter fun m => src m = f).filterMap g =
      (sentLog popId dm acts).filterMap g := by
    rw [List.filterMap_filter]
    refine List.filterMap_congr fun m _ => ?_
    split
    · rfl
    · rename_i hne
      cases hm : g m with
      | none => rfl
      | some b => exact absurd (decide_eq_true (hg m b hm)) hne
  rw [data_append_contents hinj hdm hrun ht, ← hF.order f i hf, List.filterMap_append,
    List.filterMap_append, hflight, List.append_nil, List.filterMap_append, hlog]

/-! ### Exactly once, in each feeder's order -/

/-- The run of a manager of tagged messages: a push brings the name of its feeder. -/
def tag {M : Type} : Act θ M → Act θ (String × M)
  | .push data pushId => .push (pushId, data) pushId
  | .popTest t => .popTest t
  | .popMove t => .popMove t
  | .sweep => .sweep

omit [DecidableEq θ] in
theorem fromFeeder_tag {M : Type} (acts : List (Act θ M)) :
    ∀ a ∈ acts.map tag, FromFeeder (fun m : String × M => m.1) a := by
  intro a ha
  obtain ⟨b, _, rfl⟩ := List.mem_map.mp ha
  cases b with
  | push => exact rfl
  | popTest | popMove | sweep => trivial

/-- Exactly-once delivery in each feeder's order. The manager saw registrations only,
every consumer name has one popping thread, and the steps interleave in any way. Unless
the feeder's queue is being copied, its messages in what a consumer has popped, then in
the consumer's queue, then waiting in the feeder's queue are the completed pushes. -/
theorem exactly_once_in_order {M : Type} {conf : DataManagerConf}
    {regs : List (DataManager.Op (String × M))} (hregs : ∀ op ∈ regs, op.Registers)
    {dm : DataManager (String × M)} (hdm : run DataManager.step (.new conf) regs = some dm)
    {acts : List (Act String M)} {s : Pipe String (String × M)}
    (hrun : run (next id) (start dm) (acts.map tag) = some s)
    {f : String} {i : Nat} (hf : s.manager.inQueuesIds.lookup f = some i)
    (hfree : ¬ s.sweep.Holds i)
    {c : String} {j : Nat} (hc : s.manager.outQueuesIds.lookup c = some j) :
    ((s.data c ++ contents s.manager.outQueues j).filter fun m => m.1 = f) ++ s.waiting i =
      completed f (acts.map tag) := by
  have hreg := DataManager.registered_of_run hregs hdm
  have hF := run_fifo hreg (fromFeeder_tag acts) hrun
  have hd := (run_wired hreg hrun).distinctIn
  have hflight : ((s.inFlight j).filter fun m => m.1 = f) = [] := by
    unfold inFlight
    split
    · rename_i k todo hw
      have hne : k ≠ i := fun he => hfree (by rw [hw]; exact he)
      split
      · rfl
      · rw [hF.filter_waiting hd hf k, if_neg hne]
    · rfl
  rw [data_append_contents Function.injective_id hreg hrun hc, List.filter_append, hflight,
    List.append_nil, hF.order f i hf]

/-- Two feeders and two consumers, stopped in the middle of the copy of the first
feeder's queue: the second feeder's messages are all accounted for. -/
theorem exactly_once_in_order_mid_copy :
    ∃ s, run (next id) (start (T := String × Nat)
        ((((DataManager.new ⟨"dm", 8, 8, .BROADCAST⟩).setFeeder "f").1.setFeeder "g").1.setConsumer
          "c").1)
        (([.push 1 "f", .push 2 "g", .sweep, .sweep, .push 3 "g", .sweep, .sweep, .popTest "c",
          .popMove "c"] : List (Act String Nat)).map tag) = some s ∧
      ((s.data "c" ++ contents s.manager.outQueues 0).filter fun m => m.1 = "g") ++ s.waiting 1 =
        [("g", 2), ("g", 3)] := by
  have hregs : ∀ op ∈ [.setFeeder "f", .setFeeder "g", .setConsumer "c"],
      DataManager.Op.Registers (T := String × Nat) op := by
    simp [DataManager.Op.Registers]
  obtain ⟨s, hrun, hf, hfree, hc⟩ : ∃ s, run (next id) (start (T := String × Nat)
        ((((DataManager.new ⟨"dm", 8, 8, .BROADCAST⟩).setFeeder "f").1.setFeeder "g").1.setConsumer
          "c").1)
        (([.push 1 "f", .push 2 "g", .sweep, .sweep, .push 3 "g", .sweep, .sweep, .popTest "c",
          .popMove "c"] : List (Act String Nat)).map tag) = some s ∧
      s.manager.inQueuesIds.lookup "g" = some 1 ∧ ¬ s.sweep.Holds 1 ∧
      s.manager.outQueuesIds.lookup "c" = some 0 := ⟨_, rfl, rfl, by decide, rfl⟩
  exact ⟨s, hrun, exactly_once_in_order hregs rfl hrun hf hfree hc⟩

/-! ### One order for all consumers -/

/-- Any two consumers have been sent the same messages in the same order, one of them
possibly ahead by a part of the copy in progress. -/
theorem consumers_agree {conf : DataManagerConf} {regs : List (DataManager.Op T)}
    (hregs : ∀ op ∈ regs, op.Registers) {dm : DataManager T}
    (hdm : run DataManager.step (.new conf) regs = some dm)
    {acts : List (Act String T)} {s : Pipe String T}
    (hrun : run (next id) (start dm) acts = some s)
    {c d : String} {j k : Nat} (hc : s.manager.outQueuesIds.lookup c = some j)
    (hd : s.manager.outQueuesIds.lookup d = some k) :
    (s.data c ++ contents s.manager.outQueues j <+: s.data d ++ contents s.manager.outQueues k ∨
      s.data d ++ contents s.manager.outQueues k <+: s.data c ++ contents s.manager.outQueues j) ∧
    (¬ s.Copying →
      s.data c ++ contents s.manager.outQueues j =
        s.data d ++ contents s.manager.outQueues k) := by
  have hreg := DataManager.registered_of_run hregs hdm
  rw [data_append_contents Function.injective_id hreg hrun hc,
    data_append_contents Function.injective_id hreg hrun hd]
  constructor
  · -- a destination has the whole source queue or nothing of it
    unfold inFlight
    split
    · rename_i i todo _
      by_cases hj : j ∈ todo
      · rw [if_pos hj, List.append_nil]
        exact Or.inl (List.prefix_append _ _)
      · by_cases hk : k ∈ todo
        · rw [if_pos hk, List.append_nil]
          exact Or.inr (List.prefix_append _ _)
        · rw [if_neg hj, if_neg hk]
          exact Or.inl (List.prefix_refl _)
    · exact Or.inl (List.prefix_refl _)
  · intro hcopy
    rw [inFlight_of_not_copying hcopy, inFlight_of_not_copying hcopy]

/-- In the middle of a copy the first consumer is one message ahead. -/
theorem consumers_agree_mid_copy :
    ∃ s, run (next id) (start (T := Nat)
        ((((DataManager.new ⟨"dm", 8, 8, .BROADCAST⟩).setFeeder "f").1.setConsumer
          "c").1.setConsumer "d").1)
        [.push 1 "f", .sweep, .sweep, .sweep, .sweep] = some s ∧
      (s.data "c" ++ contents s.manager.outQueues 0 <+:
          s.data "d" ++ contents s.manager.outQueues 1 ∨
        s.data "d" ++ contents s.manager.outQueues 1 <+:
          s.data "c" ++ contents s.manager.outQueues 0) := by
  have hregs : ∀ op ∈ [.setFeeder "f", .setConsumer "c", .setConsumer "d"],
      DataManager.Op.Registers (T := Nat) op := by
    simp [DataManager.Op.Registers]
  obtain ⟨s, hrun, hc, hd⟩ : ∃ s, run (next id) (start (T := Nat)
        ((((DataManager.new ⟨"dm", 8, 8, .BROADCAST⟩).setFeeder "f").1.setConsumer
          "c").1.setConsumer "d").1)
        [.push 1 "f", .sweep, .sweep, .sweep, .sweep] = some s ∧
      s.manager.outQueuesIds.lookup "c" = some 0 ∧ s.manager.outQueuesIds.lookup "d" = some 1 :=
    ⟨_, rfl, rfl, rfl⟩
  exact ⟨s, hrun, (consumers_agree hregs rfl hrun hc hd).1⟩

end DataPipeline.Pipe
