import DataPipeline.Manager.Log

/-!
# The order of one feeder's messages

A pass takes the input queues in index order, so the messages of one feeder stay in
order as long as each push goes behind what the feeder still has pending. A feeder that
left and came back can be given a queue in front of its old one. To tell messages apart
whatever they say, the calls of a history are stamped with their positions; stamping
changes nothing else.
-/

namespace DataPipeline

open Machine

/-- A message with the feeder that pushed it and the position of the push in the history. -/
structure Stamped (T : Type*) where
  feeder : String
  position : Nat
  data : T
  deriving DecidableEq, Repr

namespace DataManager

variable {T : Type*}

/-- The call at position `k` of a history, its message stamped. -/
def Op.stamp (k : Nat) : Op T → Op (Stamped T)
  | .setFeeder appId => .setFeeder appId
  | .remFeeder appId => .remFeeder appId
  | .setConsumer appId => .setConsumer appId
  | .push data pushId => .push ⟨pushId, k, data⟩ pushId
  | .pop popId => .pop popId
  | .manageBroadcast => .manageBroadcast
  | .reset => .reset

/-- A history with its messages stamped. -/
def stamp (ops : List (Op T)) : List (Op (Stamped T)) := ops.mapIdx Op.stamp

theorem stamp_concat (ops : List (Op T)) (op : Op T) :
    stamp (ops ++ [op]) = stamp ops ++ [op.stamp ops.length] := List.mapIdx_concat

theorem stamp_reset {ops : List (Op T)} (h : .reset ∉ ops) : .reset ∉ stamp ops := by
  intro hm
  obtain ⟨k, hk, he⟩ := List.mem_mapIdx.mp hm
  apply h
  have hmem := List.getElem_mem hk
  cases hop : ops[k] <;> rw [hop] at he hmem <;> first | exact hmem | cases he

/-- Messages of one feeder are in the order of their pushes. -/
def InPushOrder (stream : List (Stamped T)) : Prop :=
  stream.Pairwise fun a b => a.feeder = b.feeder → a.position < b.position

instance (stream : List (Stamped T)) : Decidable (InPushOrder stream) :=
  inferInstanceAs (Decidable (List.Pairwise _ _))

/-- In every output stream of the history, which is what has been popped from an output queue
and what is still in it, messages of one feeder are in the order of their pushes. -/
def StreamsInOrder (conf : DataManagerConf) (ops : List (Op T)) : Prop :=
  ∀ dm, run step (new conf) (stamp ops) = some dm → ∀ j,
    InPushOrder (observe step (taken j) (new conf) (stamp ops) ++ contents dm.outQueues j)

/-- A push goes behind all messages that its feeder has pending: the queues after the one it
goes to hold none of them. -/
def PushesBehind (dm : DataManager (Stamped T)) : Op (Stamped T) → Prop
  | .push data pushId => ∀ i, dm.inQueuesIds.lookup pushId = some i →
      ∀ q ∈ dm.inQueues.drop (i + 1), ∀ m ∈ q.queue, m.feeder ≠ data.feeder
  | _ => True

instance (dm : DataManager (Stamped T)) (op : Op (Stamped T)) : Decidable (PushesBehind dm op) :=
  match op with
  | .push data pushId =>
    match h : dm.inQueuesIds.lookup pushId with
    | none => isTrue fun _ hi => nomatch h.symm.trans hi
    | some i => decidable_of_iff
        (∀ q ∈ dm.inQueues.drop (i + 1), ∀ m ∈ q.queue, m.feeder ≠ data.feeder)
        ⟨fun hall _ hj => Option.some.inj (h.symm.trans hj) ▸ hall, fun hall => hall i h⟩
  | .setFeeder _ | .remFeeder _ | .setConsumer _ | .pop _ | .manageBroadcast | .reset =>
    isTrue trivial

/-! ### What waits for a pass -/

/-- A push inserts its message behind the queue it goes to. -/
theorem pending_push {queues : List (Q T)} {i : Nat} {q : Q T} (hq : queues[i]? = some q)
    (data : T) :
    (queues.set i (q.push data)).flatMap Q.queue =
        (queues.take (i + 1)).flatMap Q.queue ++ data :: (queues.drop (i + 1)).flatMap Q.queue ∧
      queues.flatMap Q.queue =
        (queues.take (i + 1)).flatMap Q.queue ++ (queues.drop (i + 1)).flatMap Q.queue := by
  obtain ⟨hlt, rfl⟩ := List.getElem?_eq_some_iff.mp hq
  constructor
  · rw [List.set_eq_take_append_cons_drop, if_pos hlt, List.take_succ_eq_append_getElem hlt]
    simp only [List.flatMap_append, List.flatMap_cons, List.flatMap_nil, Q.queue_push,
      List.append_assoc, List.append_nil, List.nil_append, List.cons_append]
  · rw [← List.flatMap_append, List.take_append_drop]

/-- Only a push changes what has been or will be broadcast, and only at one place. -/
theorem step_input {dm dm' : DataManager T} {op : Op T} (hop : op ≠ .reset)
    (h : step dm op = some dm') :
    (broadcasted dm op ++ dm'.pending = dm.pending) ∨
      ∃ data pushId i, op = .push data pushId ∧ dm.inQueuesIds.lookup pushId = some i ∧
        dm'.pending = (dm.inQueues.take (i + 1)).flatMap Q.queue ++
          data :: (dm.inQueues.drop (i + 1)).flatMap Q.queue ∧
        dm.pending = (dm.inQueues.take (i + 1)).flatMap Q.queue ++
          (dm.inQueues.drop (i + 1)).flatMap Q.queue := by
  cases step_cases h with
  | setFeederAppend =>
    apply Or.inl
    simp only [broadcasted, pending, List.flatMap_append, List.flatMap_cons, List.flatMap_nil,
      Q.queue_new, List.append_nil, List.nil_append]
  | @push data pushId i q hl hq =>
    obtain ⟨hnew, hold⟩ := pending_push hq data
    exact Or.inr ⟨data, pushId, i, rfl, hl, hnew, hold⟩
  | passIdle hnil =>
    apply Or.inl
    rw [broadcasted, if_pos hnil, List.nil_append]
  | pass hne =>
    apply Or.inl
    simp only [broadcasted, if_neg hne, pending, flatMap_emptied, List.append_nil]
  | setFeederRefused | setFeederHandOver | remFeeder | remUnknown | setConsumerRefused
    | setConsumerAppend | setConsumerHandOver | pushUnknown | popNothing | pop => exact Or.inl rfl
  | reset => exact absurd rfl hop

/-! ### One call -/

theorem pairwise_insert {R : T → T → Prop} {xs ys : List T} {x : T}
    (h : (xs ++ ys).Pairwise R) (hx : ∀ a ∈ xs, R a x) (hy : ∀ b ∈ ys, R x b) :
    (xs ++ x :: ys).Pairwise R := by
  obtain ⟨hxs, hys, hxy⟩ := List.pairwise_append.mp h
  apply List.pairwise_append.mpr
  refine ⟨hxs, List.pairwise_cons.mpr ⟨hy, hys⟩, ?_⟩
  intro a ha b hb
  rcases List.mem_cons.mp hb with rfl | hb
  · exact hx a ha
  · exact hxy a ha b hb

/-- All messages of a history so far, broadcast or pending, bear earlier positions. -/
def Earlier (ops : List (Op T)) (stream : List (Stamped T)) : Prop :=
  ∀ m ∈ stream, m.position < ops.length

/-- What has been broadcast followed by what waits. -/
def line (conf : DataManagerConf) (ops : List (Op T)) (dm : DataManager (Stamped T)) :
    List (Stamped T) :=
  observe step broadcasted (new conf) (stamp ops) ++ dm.pending

/-- How a call changes the line: not at all, or by the message it pushes. -/
theorem line_concat {conf : DataManagerConf} {ops : List (Op T)} {dm dm' : DataManager (Stamped T)}
    {op : Op T} (hrun : run step (new conf) (stamp ops) = some dm) (hop : op ≠ .reset)
    (h : step dm (op.stamp ops.length) = some dm') :
    line conf (ops ++ [op]) dm' = line conf ops dm ∨
      ∃ data pushId i, op = .push data pushId ∧ dm.inQueuesIds.lookup pushId = some i ∧
        ∃ front back, line conf ops dm = front ++ back ∧
          back = (dm.inQueues.drop (i + 1)).flatMap Q.queue ∧
          line conf (ops ++ [op]) dm' = front ++ ⟨pushId, ops.length, data⟩ :: back := by
  unfold line
  rw [stamp_concat, observe_concat _ hrun, List.append_assoc]
  have hop' : op.stamp ops.length ≠ .reset := by
    intro he
    cases op <;> first | exact hop rfl | cases he
  rcases step_input hop' h with he | ⟨data, pushId, i, he, hl, hnew, hold⟩
  · exact Or.inl (congrArg _ he)
  · cases op with
    | push data' pushId' =>
      cases he
      refine Or.inr ⟨data', pushId, i, rfl, hl, observe step broadcasted (new conf) (stamp ops) ++
        (dm.inQueues.take (i + 1)).flatMap Q.queue, _, ?_, rfl, ?_⟩
      · rw [hold, ← List.append_assoc]
      · rw [hnew, List.append_assoc]
        rfl
    | setFeeder | remFeeder | setConsumer | pop | manageBroadcast | reset => cases he

/-- Every message of the line bears the position of an earlier call. -/
theorem earlier_line {conf : DataManagerConf} {ops : List (Op T)} {dm : DataManager (Stamped T)}
    (hre : .reset ∉ ops) (hrun : run step (new conf) (stamp ops) = some dm) :
    Earlier ops (line conf ops dm) := by
  induction ops using List.reverseRecOn generalizing dm with
  | nil =>
    obtain rfl := Option.some.inj hrun
    exact fun m hm => absurd hm List.not_mem_nil
  | append_singleton ops op ih =>
    rw [List.mem_append, List.mem_singleton, not_or] at hre
    rw [stamp_concat] at hrun
    obtain ⟨u, hu, hst⟩ := run_concat_eq_some.mp hrun
    have hE := ih hre.1 hu
    intro m hm
    rw [List.length_append, List.length_singleton]
    rcases line_concat hu (Ne.symm hre.2) hst with
      he | ⟨data, pushId, i, _, _, front, back, he, _, he'⟩
    · rw [he] at hm
      exact Nat.lt_succ_of_lt (hE m hm)
    · rw [he', List.mem_append, List.mem_cons] at hm
      rw [he] at hE
      rcases hm with hm | rfl | hm
      · exact Nat.lt_succ_of_lt (hE m (List.mem_append_left _ hm))
      · exact Nat.lt_succ_self _
      · exact Nat.lt_succ_of_lt (hE m (List.mem_append_right _ hm))

/-- While all pushes go behind, the whole line is in order. -/
theorem line_inPushOrder {conf : DataManagerConf} {ops : List (Op T)}
    {dm : DataManager (Stamped T)} (hre : .reset ∉ ops)
    (hC : Meets step PushesBehind (new conf) (stamp ops))
    (hrun : run step (new conf) (stamp ops) = some dm) :
    InPushOrder (line conf ops dm) := by
  induction ops using List.reverseRecOn generalizing dm with
  | nil =>
    obtain rfl := Option.some.inj hrun
    exact List.Pairwise.nil
  | append_singleton ops op ih =>
    rw [List.mem_append, List.mem_singleton, not_or] at hre
    rw [stamp_concat] at hrun hC
    obtain ⟨u, hu, hst⟩ := run_concat_eq_some.mp hrun
    have hO := ih hre.1 hC.prefix hu
    have hE := earlier_line hre.1 hu
    rcases line_concat hu (Ne.symm hre.2) hst with
      he | ⟨data, pushId, i, rfl, hl, front, back, he, hb, he'⟩
    · rwa [he]
    · have hbehind := hC.last hu i hl
      rw [he] at hO hE
      rw [he']
      apply pairwise_insert hO
      · intro a ha _
        exact hE a (List.mem_append_left _ ha)
      · intro b hb' hfeeder
        rw [hb] at hb'
        obtain ⟨q, hq, hm⟩ := List.mem_flatMap.mp hb'
        exact absurd hfeeder.symm (hbehind q hq b hm)

/-! ### The output streams -/

/-- Every output stream is a part of the log. -/
theorem stream_sublist {conf : DataManagerConf} {ops : List (Op T)} {dm : DataManager (Stamped T)}
    (hre : .reset ∉ ops) (hrun : run step (new conf) (stamp ops) = some dm) (j : Nat) :
    (observe step (taken j) (new conf) (stamp ops) ++ contents dm.outQueues j).Sublist
      (line conf ops dm) := by
  have hI := run_logInvariant (stamp_reset hre) hrun
  apply List.Sublist.trans _ (List.sublist_append_left _ _)
  by_cases hj : j < dm.outQueues.length
  · obtain ⟨b, _, _, heq⟩ := hI.reads j hj
    rw [heq]
    exact List.drop_sublist _ _
  · have hge := Nat.le_of_not_lt hj
    rw [hI.unread j hge, contents_of_le hge]
    exact List.nil_sublist _

/-- While all pushes go behind, every output stream is in order. -/
theorem streamsInOrder_of_meets {conf : DataManagerConf} {ops : List (Op T)} (hre : .reset ∉ ops)
    (hC : Meets step PushesBehind (new conf) (stamp ops)) : StreamsInOrder conf ops := by
  intro dm hrun j
  exact (line_inPushOrder hre hC hrun).sublist (stream_sublist hre hrun j)

/-- One more pass puts everything that waits into the streams. -/
theorem stream_pass {conf : DataManagerConf} {ops : List (Op T)} {dm : DataManager (Stamped T)}
    (hre : .reset ∉ ops) (hrun : run step (new conf) (stamp ops) = some dm)
    (hout : dm.outQueues ≠ []) (h : StreamsInOrder conf (ops ++ [.manageBroadcast])) :
    InPushOrder dm.pending := by
  have hpass : step dm .manageBroadcast = some { dm with
      inQueues := dm.inQueues.map fun _ => ⟨[]⟩
      outQueues := dm.outQueues.map fun q => ⟨q.queue ++ dm.pending⟩ } := by
    have he := dm.manageBroadcast_eq
    rwa [if_neg hout] at he
  have hrange := (run_logInvariant (stamp_reset hre) hrun).range
  have hstep := step_outQueue hrange (by nofun) hpass 0
  rw [if_pos (List.length_pos_iff.mpr hout), broadcasted, if_neg hout] at hstep
  have hlast := h _ (by
    rw [stamp_concat]
    exact run_concat_eq_some.mpr ⟨dm, hrun, hpass⟩) 0
  rw [stamp_concat, observe_concat _ hrun, List.append_assoc] at hlast
  have hs : Op.stamp ops.length (.manageBroadcast : Op T) = .manageBroadcast := rfl
  rw [hs, hstep] at hlast
  exact (List.pairwise_append.mp (List.pairwise_append.mp hlast).2.1).2.1

/-- A push in front of a message of the same feeder shows after the next pass. -/
theorem pushesBehind_of_streams {conf : DataManagerConf} {ops : List (Op T)}
    {dm : DataManager (Stamped T)} (hre : .reset ∉ ops)
    (hrun : run step (new conf) (stamp ops) = some dm) (hout : dm.outQueues ≠ []) {op : Op T}
    (hop : op ≠ .reset) (h : StreamsInOrder conf (ops ++ [op] ++ [.manageBroadcast])) :
    PushesBehind dm (op.stamp ops.length) := by
  cases op with
  | push data pushId =>
    intro i hl q hq m hm hfeeder
    obtain ⟨dm', hst⟩ := (run_logInvariant (stamp_reset hre) hrun).range.step_exists
      (.push ⟨pushId, ops.length, data⟩ pushId)
    obtain ⟨hnone, _⟩ | ⟨i', q', hl', hq', rfl⟩ := push_cases hst
    · cases hnone.symm.trans hl
    · obtain rfl := Option.some.inj (hl'.symm.trans hl)
      have hre' : Op.reset ∉ ops ++ [.push data pushId] := by
        rw [List.mem_append, List.mem_singleton, not_or]
        exact ⟨hre, nofun⟩
      have hconcat : stamp (ops ++ [.push data pushId]) =
          stamp ops ++ [.push ⟨pushId, ops.length, data⟩ pushId] := stamp_concat ops _
      have hrun' := run_concat_eq_some.mpr ⟨dm, hrun, hst⟩
      rw [← hconcat] at hrun'
      have hO := stream_pass hre' hrun' hout h
      obtain ⟨hnew, hold⟩ := pending_push hq' (⟨pushId, ops.length, data⟩ : Stamped T)
      have hback : m ∈ (dm.inQueues.drop (i' + 1)).flatMap Q.queue :=
        List.mem_flatMap.mpr ⟨q, hq, hm⟩
      have hE := earlier_line hre hrun m (by
        apply List.mem_append_right
        rw [pending, hold]
        exact List.mem_append_right _ hback)
      rw [pending, InPushOrder, hnew, List.pairwise_append, List.pairwise_cons] at hO
      have hlt := hO.2.1.1 m hback hfeeder.symm
      exact absurd hlt (Nat.lt_asymm hE)
  | setFeeder | remFeeder | setConsumer | pop | manageBroadcast | reset => trivial

/-! ### The law and its failure -/

/-- There is an output queue from the first registration of a consumer on. -/
theorem outQueues_ne_nil {conf : DataManagerConf} (hcap : conf.maxConsumers ≠ 0) (c : String)
    {ops : List (Op T)} (hre : .reset ∉ ops) {dm : DataManager T}
    (hrun : run step (new conf) (.setConsumer c :: ops) = some dm) : dm.outQueues ≠ [] := by
  have hpos : 0 < conf.maxConsumers.toNat := by
    rw [Nat.pos_iff_ne_zero]
    intro h
    exact hcap (UInt8.toNat_inj.mp h)
  have hfirst : ((new (T := T) conf).setConsumer c).1.outQueues = [Q.new] := by
    simp only [setConsumer, register, new, AList.notMem_empty, Slots.size_empty, hpos, ite_false,
      ite_true, List.nil_append]
  refine run_invariant_of_meets (C := fun _ op => op ≠ .reset) (I := fun dm => dm.outQueues ≠ [])
    (s := ((new (T := T) conf).setConsumer c).1) ?_ ?_ ?_ hrun
  · intro u op v hu hop hst hnil
    apply hu
    rw [← List.length_eq_zero_iff] at hnil ⊢
    rcases step_outQueues_length hop hst with he | ⟨he, _⟩ <;> omega
  · rw [hfirst]
    exact List.cons_ne_nil _ _
  · rintro before op after u he _ rfl
    exact hre (he ▸ List.mem_append_right before (List.mem_cons_self ..))

/-- With a consumer registered first, the messages of each feeder come out in the order of
their pushes, now and after one more pass, in every state of a history exactly when every
push of the history goes behind what its feeder has pending. -/
theorem feeder_order_iff {conf : DataManagerConf} (hcap : conf.maxConsumers ≠ 0) (c : String)
    {ops : List (Op T)} (hre : .reset ∉ ops) :
    (∀ before, before <+: ops → StreamsInOrder conf (.setConsumer c :: before) ∧
        StreamsInOrder conf (.setConsumer c :: before ++ [.manageBroadcast])) ↔
      Meets step PushesBehind (new conf) (stamp (.setConsumer c :: ops)) := by
  constructor
  · intro h
    induction ops using List.reverseRecOn with
    | nil => exact meets_cons.mpr ⟨trivial, fun t _ => meets_nil _ _ t⟩
    | append_singleton ops op ih =>
      have hlast := (h (ops ++ [op]) (List.prefix_refl _)).2
      rw [List.mem_append, List.mem_singleton, not_or] at hre
      rw [← List.cons_append] at hlast ⊢
      rw [stamp_concat]
      apply (ih hre.1 fun before hb => h before (hb.trans (List.prefix_append _ _))).concat
      intro u hu
      have hcons : .reset ∉ Op.setConsumer c :: ops := by
        rw [List.mem_cons, not_or]
        exact ⟨nofun, hre.1⟩
      have hout : u.outQueues ≠ [] := by
        have hu' := hu
        rw [stamp, List.mapIdx_cons] at hu'
        refine outQueues_ne_nil hcap c (fun hm => ?_) hu'
        apply stamp_reset hcons
        rw [stamp, List.mapIdx_cons]
        exact List.mem_cons_of_mem _ hm
      exact pushesBehind_of_streams hcons hu hout (Ne.symm hre.2) hlast
  · rintro hC before ⟨rest, rfl⟩
    have hcons : .reset ∉ Op.setConsumer c :: before := by
      rw [List.mem_cons, not_or]
      exact ⟨nofun, fun hm => hre (List.mem_append_left rest hm)⟩
    have hbefore : Meets step PushesBehind (new conf) (stamp (.setConsumer c :: before)) := by
      rw [← List.cons_append, stamp, List.mapIdx_append] at hC
      exact hC.prefix
    refine ⟨streamsInOrder_of_meets hcons hbefore, ?_⟩
    apply streamsInOrder_of_meets
    · rw [List.mem_append, List.mem_singleton, not_or]
      exact ⟨hcons, nofun⟩
    · rw [stamp_concat]
      exact hbefore.concat fun _ _ => trivial

/-- A feeder that left and comes back behind its own pending message. -/
theorem feeder_order_returned :
    StreamsInOrder (T := String) ⟨"dm", 8, 8, .BROADCAST⟩ [.setConsumer "c", .setFeeder "f",
      .push "m1" "f", .remFeeder "f", .setFeeder "f", .push "m2" "f", .manageBroadcast] := by
  have hcap : (⟨"dm", 8, 8, .BROADCAST⟩ : DataManagerConf).maxConsumers ≠ 0 := by decide
  have hre : (.reset : Op String) ∉ [.setFeeder "f", .push "m1" "f", .remFeeder "f",
      .setFeeder "f", .push "m2" "f", .manageBroadcast] := by decide
  exact ((feeder_order_iff hcap "c" hre).mpr
    (by decide) _ (List.prefix_refl _)).1

/-- A feeder that comes back overtakes its own pending message. -/
theorem returned_feeder_overtakes :
    ¬ StreamsInOrder (T := String) ⟨"dm", 8, 8, .BROADCAST⟩ [.setConsumer "c", .setFeeder "a",
      .setFeeder "f", .push "m1" "f", .remFeeder "f", .remFeeder "a", .setFeeder "f",
      .push "m2" "f", .manageBroadcast] := by
  intro h
  exact absurd (h _ rfl 0) (by decide)

/-! ### Stamping changes nothing -/

/-- A history runs the same whether its messages are stamped or not. -/
theorem run_stamp {conf : DataManagerConf} {ops : List (Op T)} {dm : DataManager (Stamped T)}
    (h : run step (new conf) (stamp ops) = some dm) :
    run step (new conf) ops = some (dm.map Stamped.data) := by
  have hops : (stamp ops).map (Op.map Stamped.data) = ops := by
    rw [stamp]
    apply List.ext_getElem
    · rw [List.length_map, List.length_mapIdx]
    · intro k _ hk
      rw [List.getElem_map, List.getElem_mapIdx]
      cases ops[k] <;> rfl
  have hmap := run_map Stamped.data h
  rwa [hops] at hmap

end DataManager

end DataPipeline
