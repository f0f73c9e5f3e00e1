import DataPipeline.Manager.Registry

/-!
# The broadcast log

Over a history of whole calls all consumers read one log: what broadcast passes
moved, in the order they moved it. An output queue reads it from the length it had
when the queue was created. Nothing is moved while there is no output queue, and
what was moved together with what still waits is what `push` accepted.
-/

namespace DataPipeline.DataManager

open Machine

variable {T : Type*}

/-! ### What a call shows -/

/-- The message a call adds to an input queue. -/
def accepted (dm : DataManager T) : Op T → List T
  | .push data pushId => if pushId ∈ dm.inQueuesIds then [data] else []
  | _ => []

/-- The messages a call hands to its caller out of output queue `j`. -/
def taken (j : Nat) (dm : DataManager T) : Op T → List T
  | .pop popId => if dm.outQueuesIds.lookup popId = some j then
      ((dm.pop popId []).map fun r => r.2.1).getD [] else []
  | _ => []

/-- The messages a call broadcasts. -/
def broadcasted (dm : DataManager T) : Op T → List T
  | .manageBroadcast => if dm.outQueues = [] then [] else dm.pending
  | _ => []

/-- The call at position `b` of the history appends output queue `j`. -/
def CreatedAt (conf : DataManagerConf) (ops : List (Op T)) (j b : Nat) : Prop :=
  ∃ dm dm', run step (new conf) (ops.take b) = some dm ∧
    run step (new conf) (ops.take (b + 1)) = some dm' ∧
    dm.outQueues.length = j ∧ dm'.outQueues.length = j + 1

/-! ### No call is stuck -/

/-- Every index a map holds is an index of its vector, and so is the number of names
once a queue is appended. -/
structure InRange (dm : DataManager T) : Prop where
  inBelow : dm.inQueuesIds.Below dm.inQueues.length
  inSize : dm.inQueuesIds.size ≤ dm.inQueues.length
  outBelow : dm.outQueuesIds.Below dm.outQueues.length
  outSize : dm.outQueuesIds.size ≤ dm.outQueues.length

theorem inRange_new (conf : DataManagerConf) : InRange (new (T := T) conf) where
  inBelow := Fresh.nil.below
  inSize := Nat.le_refl 0
  outBelow := Fresh.nil.below
  outSize := Nat.le_refl 0

/-- Registering at the end of a vector keeps its map inside it. -/
theorem below_append {ids : Slots String} {queues : List (Q T)} (hb : ids.Below queues.length)
    (hs : ids.size ≤ queues.length) {appId : String} (hn : appId ∉ ids) :
    Slots.Below (ids.insert appId ids.size) (queues ++ [Q.new]).length ∧
      Slots.size (ids.insert appId ids.size) ≤ (queues ++ [Q.new]).length := by
  rw [List.length_append, List.length_singleton, Slots.size_insert hn]
  exact ⟨(hb.mono (Nat.le_succ _)).insert (Nat.lt_succ_of_le hs), Nat.succ_le_succ hs⟩

theorem InRange.pop_exists {dm : DataManager T} (h : InRange dm) (popId : String) (data : List T) :
    ∃ dm' data' b, dm.pop popId data = some (dm', data', b) := by
  cases hl : dm.outQueuesIds.lookup popId with
  | none => exact ⟨dm, data, false, by simp only [pop, hl]⟩
  | some id =>
    have hlt := h.outBelow popId id hl
    exact ⟨_, _, _, pop_registered hl (List.getElem?_eq_getElem hlt) data⟩

/-- While the indices are in range every call succeeds. -/
theorem InRange.step_exists {dm : DataManager T} (h : InRange dm) (op : Op T) :
    ∃ dm', step dm op = some dm' := by
  cases op with
  | setFeeder | remFeeder | setConsumer | reset => exact ⟨_, rfl⟩
  | push data pushId =>
    cases hl : dm.inQueuesIds.lookup pushId with
    | none => exact ⟨dm, by simp only [step, push, hl]⟩
    | some id =>
      have hlt := h.inBelow pushId id hl
      exact ⟨_, push_registered hl (List.getElem?_eq_getElem hlt) data⟩
  | pop popId =>
    obtain ⟨dm', data', b, hp⟩ := h.pop_exists popId []
    exact ⟨dm', Option.map_eq_some_iff.mpr ⟨_, hp, rfl⟩⟩
  | manageBroadcast => exact ⟨_, dm.manageBroadcast_eq⟩

/-- Every call keeps the indices in range. -/
theorem InRange.call {dm dm' : DataManager T} (h : InRange dm) {op : Op T}
    (hst : step dm op = some dm') : InRange dm' := by
  cases step_cases hst with
  | setFeederAppend hn =>
    obtain ⟨hb, hs⟩ := below_append h.inBelow h.inSize hn
    exact ⟨hb, hs, h.outBelow, h.outSize⟩
  | setFeederHandOver hn _ hf =>
    exact ⟨h.inBelow.handOver hf,
      (Slots.size_handOver hn (Slots.mem_of_lookup hf)).trans_le h.inSize, h.outBelow, h.outSize⟩
  | remFeeder hm =>
    refine ⟨h.inBelow.erase _, ?_, h.outBelow, h.outSize⟩
    exact (Slots.size_erase hm).trans_le ((Nat.sub_le _ _).trans h.inSize)
  | setConsumerAppend hn =>
    obtain ⟨hb, hs⟩ := below_append h.outBelow h.outSize hn
    exact ⟨h.inBelow, h.inSize, hb, hs⟩
  | setConsumerHandOver hn _ hf =>
    exact ⟨h.inBelow, h.inSize, h.outBelow.handOver hf,
      (Slots.size_handOver hn (Slots.mem_of_lookup hf)).trans_le h.outSize⟩
  | push =>
    exact ⟨by simpa only [List.length_set] using h.inBelow,
      by simpa only [List.length_set] using h.inSize, h.outBelow, h.outSize⟩
  | pop =>
    exact ⟨h.inBelow, h.inSize, by simpa only [List.length_set] using h.outBelow,
      by simpa only [List.length_set] using h.outSize⟩
  | pass =>
    exact ⟨by simpa only [List.length_map] using h.inBelow,
      by simpa only [List.length_map] using h.inSize,
      by simpa only [List.length_map] using h.outBelow,
      by simpa only [List.length_map] using h.outSize⟩
  | reset => exact ⟨Fresh.nil.below, Nat.le_refl 0, Fresh.nil.below, Nat.le_refl 0⟩
  | setFeederRefused | remUnknown | setConsumerRefused | pushUnknown | popNothing | passIdle =>
    exact h

/-- Every history runs to its end with all indices in range. -/
theorem run_inRange (conf : DataManagerConf) (ops : List (Op T)) :
    ∃ dm, run step (new conf) ops = some dm ∧ InRange dm :=
  run_total (fun _ op h => (h.step_exists op).imp fun _ hst => ⟨hst, h.call hst⟩)
    (inRange_new conf) ops

/-! ### What one call does to the queues -/

theorem pending_push_perm {queues : List (Q T)} {id : Nat} {q : Q T} (hq : queues[id]? = some q)
    (data : T) : ((queues.set id (q.push data)).flatMap Q.queue).Perm
      (queues.flatMap Q.queue ++ [data]) := by
  induction queues generalizing id with
  | nil => contradiction
  | cons p queues ih =>
    cases id with
    | zero =>
      obtain rfl := Option.some.inj hq
      simp only [List.set_cons_zero, List.flatMap_cons, Q.queue_push, List.append_assoc]
      exact List.Perm.append_left _ List.perm_append_comm
    | succ id =>
      simp only [List.set_cons_succ, List.flatMap_cons, List.append_assoc]
      exact List.Perm.append_left _ (ih hq)

/-- Input is only ever moved by a pass, and moved or waiting it stays what was accepted. -/
theorem step_pending {dm dm' : DataManager T} {op : Op T} (hop : op ≠ .reset)
    (h : step dm op = some dm') :
    (broadcasted dm op ++ dm'.pending).Perm (dm.pending ++ accepted dm op) := by
  cases step_cases h with
  | setFeederAppend =>
    simp only [broadcasted, accepted, pending, List.flatMap_append, List.flatMap_cons,
      List.flatMap_nil, Q.queue_new, List.nil_append, List.append_nil, List.Perm.refl]
  | pushUnknown hl =>
    simp only [broadcasted, accepted, if_neg (AList.lookup_eq_none.mp hl), List.nil_append,
      List.append_nil, List.Perm.refl]
  | push hl hq =>
    simp only [broadcasted, accepted, if_pos (Slots.mem_of_lookup hl), List.nil_append]
    exact pending_push_perm hq _
  | passIdle hnil =>
    simp only [broadcasted, accepted, if_pos hnil, List.nil_append, List.append_nil,
      List.Perm.refl]
  | pass hne =>
    simp only [broadcasted, accepted, if_neg hne, pending, flatMap_emptied, List.append_nil,
      List.Perm.refl]
  | setFeederRefused | setFeederHandOver | remFeeder | remUnknown | setConsumerRefused
    | setConsumerAppend | setConsumerHandOver | popNothing | pop =>
    simp only [broadcasted, accepted, pending, List.nil_append, List.append_nil, List.Perm.refl]
  | reset => contradiction

/-- What a call takes out of an output queue was at its front, what it broadcasts goes
to the back of every output queue there is. -/
theorem step_outQueue {dm dm' : DataManager T} (hr : InRange dm) {op : Op T} (hop : op ≠ .reset)
    (h : step dm op = some dm') (j : Nat) :
    taken j dm op ++ contents dm'.outQueues j = contents dm.outQueues j ++
      (if j < dm.outQueues.length then broadcasted dm op else []) := by
  cases step_cases h with
  | setConsumerAppend =>
    simp only [broadcasted, taken, List.nil_append, ite_self, List.append_nil]
    exact contents_append_new j
  | popNothing hp =>
    simp only [broadcasted, taken, hp, Option.map_some, Option.getD_some, ite_self,
      List.nil_append, List.append_nil]
  | @pop popId id q hl hq hp =>
    simp only [broadcasted, taken, hl, hp, Option.map_some, Option.getD_some, ite_self,
      List.append_nil, Option.some.injEq]
    rw [contents_set (hr.outBelow popId id hl)]
    by_cases he : id = j
    · subst j
      simp only [ite_true, List.append_nil, contents_eq hq]
    · simp only [he, ite_false, List.nil_append]
  | passIdle hnil =>
    simp only [broadcasted, taken, hnil, ite_true, ite_self, List.nil_append, List.append_nil]
  | pass hne =>
    simp only [broadcasted, taken, hne, ite_false, List.nil_append]
    split
    · rename_i hlt
      simp only [contents, List.getElem?_map, List.getElem?_eq_getElem hlt, Option.map_some,
        Option.getD_some]
    · rename_i hge
      rw [contents_of_le (by simpa only [List.length_map] using Nat.le_of_not_lt hge),
        contents_of_le (Nat.le_of_not_lt hge), List.append_nil]
  | setFeederRefused | setFeederAppend | setFeederHandOver | remFeeder | remUnknown
    | setConsumerRefused | setConsumerHandOver | pushUnknown | push =>
    simp only [broadcasted, taken, ite_self, List.nil_append, List.append_nil]
  | reset => contradiction

/-- Output queues are only added, one at a time and not by a pass. -/
theorem step_outQueues_length {dm dm' : DataManager T} {op : Op T} (hop : op ≠ .reset)
    (h : step dm op = some dm') :
    dm'.outQueues.length = dm.outQueues.length ∨
      (dm'.outQueues.length = dm.outQueues.length + 1 ∧ broadcasted dm op = []) := by
  cases step_cases h with
  | setConsumerAppend => exact Or.inr ⟨List.length_append, rfl⟩
  | pop => exact Or.inl List.length_set
  | pass => exact Or.inl (List.length_map _)
  | setFeederRefused | setFeederAppend | setFeederHandOver | remFeeder | remUnknown
    | setConsumerRefused | setConsumerHandOver | pushUnknown | push | popNothing | passIdle =>
    exact Or.inl rfl
  | reset => contradiction

/-! ### The log of a history -/

/-- A later call does not change when a queue was created. -/
theorem CreatedAt.append {conf : DataManagerConf} {ops : List (Op T)} {j b : Nat}
    (h : CreatedAt conf ops j b) (hb : b < ops.length) (more : List (Op T)) :
    CreatedAt conf (ops ++ more) j b := by
  obtain ⟨dm, dm', hdm, hdm', hj, hj'⟩ := h
  refine ⟨dm, dm', ?_, ?_, hj, hj'⟩
  · rw [List.take_append_of_le_length (Nat.le_of_lt hb), hdm]
  · rw [List.take_append_of_le_length hb, hdm']

/-- The history invariant: the log is what was broadcast so far. -/
structure LogInvariant (conf : DataManagerConf) (ops : List (Op T)) (dm : DataManager T) :
    Prop where
  range : InRange dm
  moved : (observe step broadcasted (new conf) ops ++ dm.pending).Perm
    (observe step accepted (new conf) ops)
  reads : ∀ j < dm.outQueues.length, ∃ b < ops.length, CreatedAt conf ops j b ∧
    observe step (taken j) (new conf) ops ++ contents dm.outQueues j =
      (observe step broadcasted (new conf) ops).drop
        (observe step broadcasted (new conf) (ops.take b)).length
  unread : ∀ j, dm.outQueues.length ≤ j → observe step (taken j) (new conf) ops = []
  waits : dm.outQueues = [] → observe step broadcasted (new conf) ops = []

theorem logInvariant_new (conf : DataManagerConf) : LogInvariant conf [] (new (T := T) conf) where
  range := inRange_new conf
  moved := List.Perm.refl _
  reads := fun j hj => absurd hj (Nat.not_lt_zero j)
  unread := fun _ _ => rfl
  waits := fun _ => rfl

/-- One call keeps the log invariant. -/
theorem LogInvariant.call {conf : DataManagerConf} {ops : List (Op T)} {dm dm' : DataManager T}
    (hrun : run step (new conf) ops = some dm) (hI : LogInvariant conf ops dm) {op : Op T}
    (hop : op ≠ .reset) (h : step dm op = some dm') :
    LogInvariant conf (ops ++ [op]) dm' := by
  have hobs : ∀ f : DataManager T → Op T → List T,
      observe step f (new conf) (ops ++ [op]) =
        observe step f (new conf) ops ++ f dm op := fun f => observe_concat f hrun op
  have hout := step_outQueue hI.range hop h
  have hlen := step_outQueues_length hop h
  constructor
  · exact hI.range.call h
  · rw [hobs, hobs, List.append_assoc]
    apply ((step_pending hop h).append_left _).trans
    rw [← List.append_assoc]
    exact hI.moved.append_right _
  · intro j hj
    by_cases hold : j < dm.outQueues.length
    · obtain ⟨b, hb, hc, heq⟩ := hI.reads j hold
      refine ⟨b, by rw [List.length_append]; omega, hc.append hb [op], ?_⟩
      have hle : (observe step broadcasted (new conf) (ops.take b)).length ≤
          (observe step broadcasted (new conf) ops).length := by
        have hp := observe_prefix (m := step) broadcasted (new conf)
          (ops.take b) (ops.drop b)
        rw [List.take_append_drop] at hp
        exact hp.length_le
      rw [hobs, hobs, List.append_assoc, hout j, if_pos hold, ← List.append_assoc, heq,
        List.take_append_of_le_length (Nat.le_of_lt hb), List.drop_append_of_le_length hle]
    · -- the queue this call appends starts with nothing to read
      rcases hlen with he | ⟨he, hnone⟩
      · omega
      · have hj' : j = dm.outQueues.length := by omega
        refine ⟨ops.length, by simp, ⟨dm, dm', ?_, ?_, hj'.symm, by omega⟩, ?_⟩
        · rw [List.take_left', hrun]
          rfl
        · rw [List.take_of_length_le (by simp)]
          exact run_concat_eq_some.mpr ⟨dm, hrun, h⟩
        · rw [hobs, hobs, List.append_assoc, hout j, if_neg hold, hI.unread j (by omega), hnone,
            contents_of_le (by omega), List.take_left' rfl]
          simp only [List.append_nil, List.drop_length]
  · intro j hj
    have hold : ¬ j < dm.outQueues.length := by omega
    have hnil := hout j
    rw [if_neg hold, List.append_nil, contents_of_le (Nat.le_of_not_lt hold)] at hnil
    rw [hobs, hI.unread j (Nat.le_of_not_lt hold), (List.append_eq_nil_iff.mp hnil).1]
    rfl
  · intro hnil
    have hz : dm.outQueues.length = 0 := by
      have := congrArg List.length hnil
      simp only [List.length_nil] at this
      omega
    have hdm := List.length_eq_zero_iff.mp hz
    rw [hobs, hI.waits hdm, List.nil_append]
    cases op <;> simp only [broadcasted, hdm, ite_true]

theorem run_logInvariant {conf : DataManagerConf} {ops : List (Op T)} {dm : DataManager T}
    (hops : Op.reset ∉ ops) (h : run step (new conf) ops = some dm) :
    LogInvariant conf ops dm := by
  refine run_history (I := fun as dm => Op.reset ∉ as → LogInvariant conf as dm)
    (fun _ => logInvariant_new conf) ?_ h hops
  intro as u op v hu hI hst hno
  rw [List.mem_append, List.mem_singleton, not_or] at hno
  exact (hI hno.1).call hu (Ne.symm hno.2) hst

/-- One log serves all consumers of a history: an output queue reads it from where it
stood when the queue was created, it holds with the waiting input what was accepted,
and it does not start before there is an output queue. `L k` is the log after `k` calls. -/
def HasBroadcastLog (conf : DataManagerConf) (ops : List (Op T)) : Prop :=
  ∃ L : Nat → List T, (∀ k, L k <+: L (k + 1)) ∧
    ∀ k ≤ ops.length, ∃ dm, run step (new conf) (ops.take k) = some dm ∧
      (∀ j < dm.outQueues.length, ∃ b < k, CreatedAt conf ops j b ∧
        observe step (taken j) (new conf) (ops.take k) ++ contents dm.outQueues j =
          (L k).drop (L b).length) ∧
      (L k ++ dm.pending).Perm (observe step accepted (new conf) (ops.take k)) ∧
      (dm.outQueues = [] → L k = [])

/-- Every history without `reset` has a broadcast log. -/
theorem broadcast_log_law (conf : DataManagerConf) (ops : List (Op T)) (hops : Op.reset ∉ ops) :
    HasBroadcastLog conf ops := by
  refine ⟨fun k => observe step broadcasted (new conf) (ops.take k), fun k => ?_, fun k hk => ?_⟩
  · have hp := observe_prefix (m := step) broadcasted (new conf) (ops.take k)
      ((ops.take (k + 1)).drop k)
    have ht : ops.take k = (ops.take (k + 1)).take k := by
      rw [List.take_take, Nat.min_eq_left (Nat.le_succ k)]
    rwa [ht, List.take_append_drop, ← ht] at hp
  · obtain ⟨dm, hdm, -⟩ := run_inRange conf (ops.take k)
    have hno : Op.reset ∉ ops.take k := fun hm => hops (List.mem_of_mem_take hm)
    have hI := run_logInvariant hno hdm
    refine ⟨dm, hdm, fun j hj => ?_, hI.moved, hI.waits⟩
    obtain ⟨b, hb, hc, heq⟩ := hI.reads j hj
    have hbk : b < k := by
      have := List.length_take_le k ops
      omega
    refine ⟨b, hbk, ?_, ?_⟩
    · have := hc.append hb (ops.drop k)
      rwa [List.take_append_drop] at this
    · rwa [List.take_take, Nat.min_eq_left (Nat.le_of_lt hbk)] at heq

/-- A message waits for the first consumer, a late consumer misses it, and both queues
agree from then on. -/
theorem broadcast_log_two_consumers :
    HasBroadcastLog (T := String) ⟨"dm", 8, 8, .BROADCAST⟩
      [.setFeeder "f", .push "m0" "f", .manageBroadcast, .setConsumer "c", .manageBroadcast,
        .setConsumer "d", .remFeeder "f", .push "m1" "f", .setFeeder "f", .push "m2" "f",
        .manageBroadcast, .pop "c"] :=
  broadcast_log_law _ _ (by decide)

end DataPipeline.DataManager
