import DataPipeline.Manager.Table

/-!
# Stable registrations

A name that was registered keeps its index, and a consumer reads nothing from before
its own registration, as long as nobody takes over a queue. A call takes over the
queue of a registered client when its map is at the capacity and this client happens
to be called "empty"; that client loses its registration although it never left.
-/

namespace DataPipeline.DataManager

open Machine

variable {T : Type*}

/-- The call gives the queue of the registered name "empty" to a new name. -/
def TakesOver (dm : DataManager T) : Op T → Prop
  | .setFeeder appId => appId ∉ dm.inQueuesIds ∧
      dm.maxNbInQueues.toNat ≤ dm.inQueuesIds.size ∧ "empty" ∈ dm.inQueuesIds
  | .setConsumer appId => appId ∉ dm.outQueuesIds ∧
      dm.maxNbOutQueues.toNat ≤ dm.outQueuesIds.size ∧ "empty" ∈ dm.outQueuesIds
  | _ => False

instance (dm : DataManager T) (op : Op T) : Decidable (dm.TakesOver op) := by
  unfold TakesOver
  cases op <;> infer_instance

/-- The messages that a call hands to the client called `n`. -/
def popped (n : String) (dm : DataManager T) : Op T → List T
  | .pop popId => if popId = n then ((dm.pop popId []).map fun r => r.2.1).getD [] else []
  | _ => []

/-- A feeder whose `setFeeder` returned `true` keeps its index until it is removed. -/
def FeedersStable (conf : DataManagerConf) (ops : List (Op T)) : Prop :=
  ∀ before n middle after dm dm', ops = before ++ .setFeeder n :: (middle ++ after) →
    run step (new conf) before = some dm → (dm.setFeeder n).2 = true →
    .reset ∉ middle → .remFeeder n ∉ middle →
    run step (dm.setFeeder n).1 middle = some dm' →
    ∃ i, (dm.setFeeder n).1.inQueuesIds.lookup n = some i ∧ dm'.inQueuesIds.lookup n = some i

/-- A consumer whose `setConsumer` returned `true` keeps its index. -/
def ConsumersStable (conf : DataManagerConf) (ops : List (Op T)) : Prop :=
  ∀ before n middle after dm dm', ops = before ++ .setConsumer n :: (middle ++ after) →
    run step (new conf) before = some dm → (dm.setConsumer n).2 = true →
    .reset ∉ middle → run step (dm.setConsumer n).1 middle = some dm' →
    ∃ i, (dm.setConsumer n).1.outQueuesIds.lookup n = some i ∧
      dm'.outQueuesIds.lookup n = some i

/-- What a consumer pops after a `setConsumer` that returned `true` is the first part of what
has been broadcast since that call. -/
def ConsumersIsolated (conf : DataManagerConf) (ops : List (Op T)) : Prop :=
  ∀ before n middle after dm, ops = before ++ .setConsumer n :: (middle ++ after) →
    run step (new conf) before = some dm → (dm.setConsumer n).2 = true → .reset ∉ middle →
    observe step (popped n) (dm.setConsumer n).1 middle <+:
      observe step broadcasted (dm.setConsumer n).1 middle

/-! ### The tables of a history -/

theorem run_exists (conf : DataManagerConf) (ops : List (Op T)) :
    ∃ dm, run step (new conf) ops = some dm := by
  obtain ⟨dm, hdm, _⟩ := run_inRange conf ops
  exact ⟨dm, hdm⟩

theorem mem_map_onFeeders_clear {ops : List (Op T)} :
    .clear ∈ ops.map Op.onFeeders ↔ .reset ∈ ops := by
  simp only [List.mem_map]
  constructor
  · rintro ⟨op, hop, he⟩
    cases op <;> first | exact hop | cases he
  · exact fun h => ⟨_, h, rfl⟩

theorem mem_map_onFeeders_leave {ops : List (Op T)} {n : String} :
    .leave n ∈ ops.map Op.onFeeders ↔ .remFeeder n ∈ ops := by
  simp only [List.mem_map]
  constructor
  · rintro ⟨op, hop, he⟩
    cases op <;> cases he
    exact hop
  · exact fun h => ⟨_, h, rfl⟩

theorem mem_map_onConsumers_clear {ops : List (Op T)} :
    .clear ∈ ops.map Op.onConsumers ↔ .reset ∈ ops := by
  simp only [List.mem_map]
  constructor
  · rintro ⟨op, hop, he⟩
    cases op <;> first | exact hop | cases he
  · exact fun h => ⟨_, h, rfl⟩

theorem not_mem_map_onConsumers_leave (ops : List (Op T)) (n : String) :
    .leave n ∉ ops.map Op.onConsumers := by
  simp only [List.mem_map]
  rintro ⟨op, _, he⟩
  cases op <;> cases he

/-- The calls of a fresh manager as requests to its feeder map. -/
theorem run_new_feeders {conf : DataManagerConf} {ops : List (Op T)} {dm : DataManager T}
    (h : run step (new conf) ops = some dm) :
    run (Slots.serve conf.maxFeeders.toNat "empty") ∅ (ops.map Op.onFeeders) =
      some dm.inQueuesIds := run_feeders h

/-- The calls of a fresh manager as requests to its consumer map. -/
theorem run_new_consumers {conf : DataManagerConf} {ops : List (Op T)} {dm : DataManager T}
    (h : run step (new conf) ops = some dm) :
    run (Slots.serve conf.maxConsumers.toNat "empty") ∅ (ops.map Op.onConsumers) =
      some dm.outQueuesIds := run_consumers h

theorem feedersStable_iff_tenured (conf : DataManagerConf) (ops : List (Op T)) :
    FeedersStable conf ops ↔
      Slots.Tenured conf.maxFeeders.toNat "empty" (ops.map Op.onFeeders) := by
  rw [Slots.tenured_map (m := step) (f := inQueuesIds) (r := new conf) rfl
    (fun _ _ h => run_new_feeders h) (run_exists conf)]
  constructor
  · rintro h before op n middle after dm dm' rfl hop hdm hg hcl hle hdm'
    have hset : op = .setFeeder n := by
      cases op <;> cases hop
      rfl
    subst hset
    have hmid := run_from hdm hdm'
    rw [← (run_capacities hdm).1] at hg ⊢
    rw [← (dm.setFeeder_eq_admitOne n).1]
    exact h before n middle after dm dm' rfl hdm ((dm.setFeeder_true_iff n).mpr hg)
      (mt mem_map_onFeeders_clear.mpr hcl) (mt mem_map_onFeeders_leave.mpr hle) hmid
  · intro h before n middle after dm dm' he hdm htrue hre hrem hmid
    have hg := (dm.setFeeder_true_iff n).mp htrue
    rw [(dm.setFeeder_eq_admitOne n).1]
    rw [(run_capacities hdm).1] at hg ⊢
    exact h before (.setFeeder n) n middle after dm dm' he rfl hdm hg
      (mt mem_map_onFeeders_clear.mp hre) (mt mem_map_onFeeders_leave.mp hrem)
      (run_append_eq_some.mpr ⟨dm, hdm, hmid⟩)

theorem consumersStable_iff_tenured (conf : DataManagerConf) (ops : List (Op T)) :
    ConsumersStable conf ops ↔
      Slots.Tenured conf.maxConsumers.toNat "empty" (ops.map Op.onConsumers) := by
  rw [Slots.tenured_map (m := step) (f := outQueuesIds) (r := new conf) rfl
    (fun _ _ h => run_new_consumers h) (run_exists conf)]
  constructor
  · rintro h before op n middle after dm dm' rfl hop hdm hg hcl _ hdm'
    have hset : op = .setConsumer n := by
      cases op <;> cases hop
      rfl
    subst hset
    have hmid := run_from hdm hdm'
    rw [← (run_capacities hdm).2] at hg ⊢
    rw [← (dm.setConsumer_eq_admitOne n).1]
    exact h before n middle after dm dm' rfl hdm ((dm.setConsumer_true_iff n).mpr hg)
      (mt mem_map_onConsumers_clear.mpr hcl) hmid
  · intro h before n middle after dm dm' he hdm htrue hre hmid
    have hg := (dm.setConsumer_true_iff n).mp htrue
    rw [(dm.setConsumer_eq_admitOne n).1]
    rw [(run_capacities hdm).2] at hg ⊢
    exact h before (.setConsumer n) n middle after dm dm' he rfl hdm hg
      (mt mem_map_onConsumers_clear.mp hre) (not_mem_map_onConsumers_leave middle n)
      (run_append_eq_some.mpr ⟨dm, hdm, hmid⟩)

theorem feedersStable_iff_meets (conf : DataManagerConf) (ops : List (Op T)) :
    FeedersStable conf ops ↔ Meets step (fun dm op =>
      ¬ Slots.Ousts conf.maxFeeders.toNat "empty" dm.inQueuesIds op.onFeeders) (new conf) ops := by
  rw [feedersStable_iff_tenured, Slots.tenured_iff]
  exact meets_simulation (m := step) (f := inQueuesIds) (s := new conf)
    (fun _ _ h => run_feeders h) (run_exists conf) _ ops

theorem consumersStable_iff_meets (conf : DataManagerConf) (ops : List (Op T)) :
    ConsumersStable conf ops ↔ Meets step (fun dm op =>
      ¬ Slots.Ousts conf.maxConsumers.toNat "empty" dm.outQueuesIds op.onConsumers)
        (new conf) ops := by
  rw [consumersStable_iff_tenured, Slots.tenured_iff]
  exact meets_simulation (m := step) (f := outQueuesIds) (s := new conf)
    (fun _ _ h => run_consumers h) (run_exists conf) _ ops

/-- A call takes over a queue when its request ousts the spare of one of the two maps. -/
theorem takesOver_iff (dm : DataManager T) (op : Op T) :
    dm.TakesOver op ↔
      Slots.Ousts dm.maxNbInQueues.toNat "empty" dm.inQueuesIds op.onFeeders ∨
        Slots.Ousts dm.maxNbOutQueues.toNat "empty" dm.outQueuesIds op.onConsumers := by
  cases op <;> simp only [TakesOver, Slots.Ousts, Op.onFeeders, Op.onConsumers, or_false, false_or]

/-- No call takes over a queue exactly when all registered clients stay where they are. -/
theorem stable_iff_meets (conf : DataManagerConf) (ops : List (Op T)) :
    FeedersStable conf ops ∧ ConsumersStable conf ops ↔
      Meets step (fun dm op => ¬ dm.TakesOver op) (new conf) ops := by
  rw [feedersStable_iff_meets, consumersStable_iff_meets, ← meets_and]
  apply meets_congr
  intro before dm op hdm
  obtain ⟨hin, hout⟩ := run_capacities hdm
  rw [takesOver_iff, not_or, hin, hout]

/-! ### What a consumer reads -/

/-- On a queue of its own a client pops what is taken out of the queue. -/
theorem popped_eq_taken {dm : DataManager T} (hd : dm.outQueuesIds.Distinct) {n : String}
    {j : Nat} (hn : dm.outQueuesIds.lookup n = some j) (op : Op T) :
    popped n dm op = taken j dm op := by
  cases op with
  | pop popId =>
    simp only [popped, taken]
    by_cases he : popId = n
    · rw [if_pos he, if_pos (he ▸ hn)]
    · rw [if_neg he, if_neg fun hl => he (hd popId n j hl hn)]
  | setFeeder | remFeeder | setConsumer | push | manageBroadcast | reset => rfl

/-- A client on its own queue `j`: what it has popped and what it can still pop is what was
broadcast. -/
structure Reads (n : String) (j : Nat) (start : DataManager T) (ops : List (Op T))
    (dm : DataManager T) : Prop where
  range : InRange dm
  compact : Compact dm.maxNbOutQueues dm.outQueuesIds dm.outQueues.length
  index : dm.outQueuesIds.lookup n = some j
  read : observe step (popped n) start ops ++ contents dm.outQueues j =
    observe step broadcasted start ops

/-- A call that takes over no queue lets the client go on reading. -/
theorem Reads.call {n : String} {j : Nat} {start dm dm' : DataManager T} {ops : List (Op T)}
    {op : Op T} (hrun : run step start ops = some dm) (h : Reads n j start ops dm)
    (hop : op ≠ .reset) (ht : ¬ dm.TakesOver op) (hst : step dm op = some dm') :
    Reads n j start (ops ++ [op]) dm' := by
  have hj : j < dm.outQueues.length := h.compact.below n j h.index
  constructor
  · exact h.range.call hst
  · exact h.compact.step hst
  · apply Slots.serve_keeps (step_consumers hst).2 h.index
    · intro he
      cases op <;> first | exact hop rfl | cases he
    · intro he
      cases op <;> cases he
    · exact fun ho => ht ((takesOver_iff dm op).mpr (Or.inr ho))
  · rw [observe_concat _ hrun, observe_concat _ hrun, List.append_assoc,
      popped_eq_taken h.compact.distinct h.index, step_outQueue h.range hop hst j, if_pos hj,
      ← List.append_assoc, h.read]

/-- Without takeover a consumer starts with a queue that is new. -/
theorem reads_setConsumer {dm : DataManager T} (hr : InRange dm)
    (hc : Compact dm.maxNbOutQueues dm.outQueuesIds dm.outQueues.length) {n : String}
    (htrue : (dm.setConsumer n).2 = true) (ht : ¬ dm.TakesOver (.setConsumer n)) :
    Reads n dm.outQueues.length (dm.setConsumer n).1 [] (dm.setConsumer n).1 := by
  have hstep : step dm (.setConsumer n) = some (dm.setConsumer n).1 := rfl
  rcases dm.setConsumer_cases n with he | ⟨_, _, he⟩ | ⟨hn, hge, f, hf, _⟩
  · rw [he] at htrue
    contradiction
  · constructor
    · exact hr.call hstep
    · exact hc.step hstep
    · rw [he, ← hc.size]
      exact AList.lookup_insert _
    · rw [he, contents_append_new, contents_of_le (Nat.le_refl _)]
      rfl
  · exact absurd ⟨hn, hge, Slots.mem_of_lookup hf⟩ ht

theorem consumersIsolated_of_meets {conf : DataManagerConf} {ops : List (Op T)}
    (h : Meets step (fun dm op => ¬ dm.TakesOver op) (new conf) ops) :
    ConsumersIsolated conf ops := by
  rintro before n middle after dm rfl hdm htrue hre
  obtain ⟨u, hu, hr⟩ := run_inRange conf before
  obtain rfl := Option.some.inj (hu.symm.trans hdm)
  have hstart := reads_setConsumer hr (run_compact hdm) htrue (h before _ _ u rfl hdm)
  have hentered : run step (new conf) (before ++ [.setConsumer n]) = some (u.setConsumer n).1 :=
    run_concat_eq_some.mpr ⟨u, hdm, rfl⟩
  have hmid : Meets step (fun dm op => ¬ dm.TakesOver op) (u.setConsumer n).1 middle := by
    rw [← List.singleton_append, ← List.append_assoc] at h
    exact Meets.prefix (Meets.suffix h hentered)
  obtain ⟨v, hv⟩ := run_exists conf (before ++ [.setConsumer n] ++ middle)
  have hrun := run_from hentered hv
  have hreads : Reads n u.outQueues.length (u.setConsumer n).1 middle v := by
    refine run_history (I := fun as t => .reset ∉ as →
      Meets step (fun dm op => ¬ dm.TakesOver op) (u.setConsumer n).1 as →
      Reads n u.outQueues.length (u.setConsumer n).1 as t) (fun _ _ => hstart) ?_ hrun hre hmid
    intro as s op t hs hI hst hre hC
    rw [List.mem_append, List.mem_singleton, not_or] at hre
    have hbefore := Meets.prefix hC
    exact (hI hre.1 hbefore).call hs (Ne.symm hre.2) (Meets.last hC hs) hst
  exact ⟨_, hreads.read⟩

/-! ### The law and its failure -/

/-- In a whole history registrations are stable and consumers read nothing older than their
registration exactly when no call takes over a queue. -/
theorem registrations_stable_iff (conf : DataManagerConf) (ops : List (Op T)) :
    (FeedersStable conf ops ∧ ConsumersStable conf ops ∧ ConsumersIsolated conf ops) ↔
      Meets step (fun dm op => ¬ dm.TakesOver op) (new conf) ops := by
  constructor
  · rintro ⟨hf, hc, _⟩
    exact (stable_iff_meets conf ops).mp ⟨hf, hc⟩
  · intro h
    obtain ⟨hf, hc⟩ := (stable_iff_meets conf ops).mpr h
    exact ⟨hf, hc, consumersIsolated_of_meets h⟩

/-- With room for one consumer, the second one takes the queue of the first, which is called
"empty" and did not leave, and pops what was broadcast before it came. -/
theorem consumer_called_empty_loses_queue :
    ¬ ConsumersStable (T := String) ⟨"dm", 8, 1, .BROADCAST⟩ [.setFeeder "f", .setConsumer "empty",
        .push "m" "f", .manageBroadcast, .setConsumer "c", .pop "c"] ∧
      ¬ ConsumersIsolated (T := String) ⟨"dm", 8, 1, .BROADCAST⟩ [.setFeeder "f",
        .setConsumer "empty", .push "m" "f", .manageBroadcast, .setConsumer "c", .pop "c"] := by
  constructor
  · intro h
    obtain ⟨i, _, hi⟩ := h [.setFeeder "f"] "empty" [.push "m" "f", .manageBroadcast,
      .setConsumer "c"] [.pop "c"] _ _ rfl rfl rfl (by decide) rfl
    cases hi
  · intro h
    have hp := h [.setFeeder "f", .setConsumer "empty", .push "m" "f", .manageBroadcast] "c"
      [.pop "c"] [] _ rfl rfl rfl (by decide)
    exact absurd hp (by decide)

end DataPipeline.DataManager
