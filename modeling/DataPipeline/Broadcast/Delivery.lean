import DataPipeline.Broadcast.State

/-!
# Delivery to the consumers under every interleaving

All output queues are sent one log. A copy in progress has appended its input queue
to the destinations it has passed and not yet to the others, and clears the input
queue only after the last one. The log, restricted to one feeder, followed by that
feeder's input queue is what the feeder pushed. Both facts are kept by every
critical section, so they hold in every state of every run.
-/

namespace DataPipeline

/-- The lists of a pass over `n` output and `m` input queues: it copies to all output
queues, and what is left of a copy is an end of that list. -/
def Sweep.Ok (n m : Nat) : Sweep → Prop
  | .idle => True
  | .visit broadCastList _ => broadCastList = List.range n
  | .nonEmpty broadCastList i => broadCastList = List.range n ∧ i < m
  | .copying broadCastList i enableCopy =>
    broadCastList = List.range n ∧ i < m ∧ enableCopy <:+ List.range n

namespace Pipe

open Machine

variable {θ T : Type} {popId : θ → String}

/-! ### What no step changes -/

/-- The maps are distinct and in range, the pass is over all queues, and a thread inside
`pop` is at the queue of its consumer. -/
structure Wired (popId : θ → String) (s : Pipe θ T) : Prop where
  distinctIn : s.manager.inQueuesIds.Distinct
  belowIn : s.manager.inQueuesIds.Below s.manager.inQueues.length
  distinctOut : s.manager.outQueuesIds.Distinct
  belowOut : s.manager.outQueuesIds.Below s.manager.outQueues.length
  sweep : s.sweep.Ok s.manager.outQueues.length s.manager.inQueues.length
  calls : ∀ t id, s.calls t = .nonEmpty id → s.manager.outQueuesIds.lookup (popId t) = some id

theorem wired_start {dm : DataManager T} (h : dm.Registered) : Wired popId (start (θ := θ) dm) where
  distinctIn := h.1.distinct
  belowIn := h.1.below
  distinctOut := h.2.distinct
  belowOut := h.2.below
  sweep := trivial
  calls := fun _ _ hc => nomatch hc

theorem Step.inQueuesIds [DecidableEq θ] {s s' : Pipe θ T} {a : Act θ T} (h : Step popId s a s') :
    s'.manager.inQueuesIds = s.manager.inQueuesIds := by
  cases h <;> rfl

theorem Step.outQueuesIds [DecidableEq θ] {s s' : Pipe θ T} {a : Act θ T} (h : Step popId s a s') :
    s'.manager.outQueuesIds = s.manager.outQueuesIds := by
  cases h <;> rfl

theorem Step.inQueues_length [DecidableEq θ] {s s' : Pipe θ T} {a : Act θ T}
    (h : Step popId s a s') :
    s'.manager.inQueues.length = s.manager.inQueues.length := by
  cases h <;> first | rfl | exact List.length_set

theorem Step.outQueues_length [DecidableEq θ] {s s' : Pipe θ T} {a : Act θ T}
    (h : Step popId s a s') :
    s'.manager.outQueues.length = s.manager.outQueues.length := by
  cases h <;> first | rfl | exact List.length_set

theorem Step.sweep_ok [DecidableEq θ] {s s' : Pipe θ T} {a : Act θ T} (h : Step popId s a s')
    (hok : s.sweep.Ok s.manager.outQueues.length s.manager.inQueues.length) :
    s'.sweep.Ok s.manager.outQueues.length s.manager.inQueues.length := by
  cases h with
  | pushUnknown | push | popFail | popFound | popMove | passMap => exact hok
  | passBegin => exact rfl
  | passEnd => trivial
  | visitFound hw hi =>
    rw [hw] at hok
    exact ⟨hok, (List.getElem?_eq_some_iff.mp hi).1⟩
  | visitSkip hw =>
    rw [hw] at hok
    exact hok
  | copyBegin hw =>
    rw [hw] at hok
    exact ⟨hok.1, hok.2, hok.1 ▸ List.suffix_refl _⟩
  | copyTo hw =>
    rw [hw] at hok
    exact ⟨hok.1, hok.2.1, (List.suffix_cons _ _).trans hok.2.2⟩
  | copyEnd hw =>
    rw [hw] at hok
    exact hok.1

/-- A call of `pop` that ends is not between the test and the move. -/
theorem calls_ret [DecidableEq θ] {calls : θ → PopCall} {t u : θ} {id : Nat}
    (h : Function.update calls u .idle t = .nonEmpty id) : calls t = .nonEmpty id := by
  by_cases he : t = u
  · subst t
    rw [Function.update_self] at h
    cases h
  · rwa [Function.update_of_ne he] at h

theorem Step.calls_ok [DecidableEq θ] {s s' : Pipe θ T} {a : Act θ T} (h : Step popId s a s')
    (hok : ∀ t id, s.calls t = .nonEmpty id → s.manager.outQueuesIds.lookup (popId t) = some id) :
    ∀ t id, s'.calls t = .nonEmpty id → s.manager.outQueuesIds.lookup (popId t) = some id := by
  cases h with
  | pushUnknown | push | passBegin | passMap | passEnd | visitFound | visitSkip | copyBegin
    | copyTo | copyEnd => exact hok
  | popFail | popMove => exact fun t id ht => hok t id (calls_ret ht)
  | @popFound u id' q hc hl _ _ =>
    intro t id ht
    by_cases he : t = u
    · subst t
      simp only [Function.update_self, PopCall.nonEmpty.injEq] at ht
      exact ht ▸ hl
    · exact hok t id (by simpa only [Function.update_of_ne he] using ht)

theorem Wired.step [DecidableEq θ] {s s' : Pipe θ T} {a : Act θ T} (hs : Wired popId s)
    (h : Step popId s a s') : Wired popId s' where
  distinctIn := h.inQueuesIds ▸ hs.distinctIn
  belowIn := by rw [h.inQueuesIds, h.inQueues_length]; exact hs.belowIn
  distinctOut := h.outQueuesIds ▸ hs.distinctOut
  belowOut := by rw [h.outQueuesIds, h.outQueues_length]; exact hs.belowOut
  sweep := by rw [h.inQueues_length, h.outQueues_length]; exact h.sweep_ok hs.sweep
  calls := by rw [h.outQueuesIds]; exact h.calls_ok hs.calls

/-- Only a `pop` for the consumer of a queue moves anything out of the queue. -/
theorem Step.handed [DecidableEq θ] {s s' : Pipe θ T} {a : Act θ T} (hs : Wired popId s)
    (h : Step popId s a s') {j : Nat}
    (ha : ∀ t, a = .popMove t → s.manager.outQueuesIds.lookup (popId t) ≠ some j) :
    s'.handed j = s.handed j := by
  cases h with
  | pushUnknown | push | popFail | popFound | passBegin | passMap | passEnd | visitFound
    | visitSkip | copyBegin | copyTo | copyEnd => rfl
  | @popMove u id q hc hq =>
    have hne : j ≠ id := by
      rintro rfl
      exact ha u rfl (hs.calls u j hc)
    simp only [ret, Function.update_of_ne hne]

/-- A `pop` gives the thread what it moves out of the queue. -/
theorem Step.popMoved [DecidableEq θ] {s s' : Pipe θ T} {t : θ} (hs : Wired popId s)
    (h : Step popId s (.popMove t) s') {j : Nat}
    (hj : s.manager.outQueuesIds.lookup (popId t) = some j) :
    ∃ moved, s'.handed j = s.handed j ++ moved ∧ s'.data t = s.data t ++ moved := by
  cases h with
  | @popMove _ id q hc hq =>
    obtain rfl := Option.some.inj (hj.symm.trans (hs.calls t id hc))
    exact ⟨q.queue, Function.update_self .., Function.update_self ..⟩

/-! ### One log for all consumers -/

/-- What the copy in progress has already sent to output queue `j`. -/
def inFlight (s : Pipe θ T) (j : Nat) : List T :=
  match s.sweep with
  | .copying _ i enableCopy => if j ∈ enableCopy then [] else s.waiting i
  | _ => []

theorem inFlight_of_not_copying {s : Pipe θ T} (h : ¬ s.Copying) (j : Nat) : s.inFlight j = [] := by
  unfold inFlight
  split
  · rename_i i _ hw
    exact absurd ⟨i, by rw [hw]; rfl⟩ h
  · rfl

theorem inFlight_subset (s : Pipe θ T) (j : Nat) : ∀ m ∈ s.inFlight j, ∃ i, m ∈ s.waiting i := by
  intro m hm
  unfold inFlight at hm
  split at hm
  · split at hm
    · exact absurd hm List.not_mem_nil
    · exact ⟨_, hm⟩
  · exact absurd hm List.not_mem_nil

/-- The messages that calls of `push` for feeder `f` brought. -/
def pushOf (f : String) : Act θ T → Option T
  | .push data pushId => if pushId = f then some data else none
  | _ => none

/-- The completed pushes of feeder `f`, in order. -/
def completed (f : String) (acts : List (Act θ T)) : List T := acts.filterMap (pushOf f)

/-- A push brings a message of the feeder that pushes it. -/
def FromFeeder (src : T → String) : Act θ T → Prop
  | .push data pushId => src data = pushId
  | _ => True

/-- What a step adds to the log: an input queue joins it when its copy is complete. -/
def joined (s : Pipe θ T) : Act θ T → List T
  | .sweep =>
    match s.sweep with
    | .copying _ i [] => s.waiting i
    | _ => []
  | _ => []

/-- The log has been sent to every output queue, and so has what the copy in progress
has passed. -/
def Sent (s : Pipe θ T) (log : List T) : Prop :=
  ∀ j < s.manager.outQueues.length, s.delivered j = log ++ s.inFlight j

/-- Each feeder's part of the log continues in the feeder's input queue, which holds
messages of that feeder only. -/
structure Fifo (src : T → String) (acts : List (Act θ T)) (s : Pipe θ T) (log : List T) :
    Prop where
  order : ∀ f i, s.manager.inQueuesIds.lookup f = some i →
    (log.filter fun m => src m = f) ++ s.waiting i = completed f acts
  owned : ∀ i, ∀ m ∈ s.waiting i, s.manager.inQueuesIds.lookup (src m) = some i

theorem sent_start {dm : DataManager T} (h : dm.Registered) : Sent (start (θ := θ) dm) [] :=
  fun j _ => h.2.contents j

theorem fifo_start (src : T → String) {dm : DataManager T} (h : dm.Registered) :
    Fifo src [] (start (θ := θ) dm) [] where
  order := fun _ i _ => h.1.contents i
  owned := fun i m hm => by
    rw [waiting, start, h.1.contents i] at hm
    exact absurd hm List.not_mem_nil

/-! ### Each critical section keeps the log sent -/

/-- A step that moves no message keeps it. -/
theorem Sent.frame {s s' : Pipe θ T} {log : List T} (hS : Sent s log)
    (hm : s'.manager.outQueues = s.manager.outQueues) (hh : s'.handed = s.handed)
    (hi : ∀ j < s.manager.outQueues.length, s'.inFlight j = s.inFlight j) : Sent s' log := by
  intro j hj
  rw [hm] at hj
  rw [hi j hj, ← hS j hj, delivered, delivered, hm, hh]

/-- A push does not reach the queue a copy holds. -/
theorem Sent.push {s : Pipe θ T} {log : List T} (hS : Sent s log) {data : T} {id : Nat} {q : Q T}
    (hfree : ¬ s.sweep.Holds id) (hq : s.manager.inQueues[id]? = some q) :
    Sent { s with
      manager := { s.manager with inQueues := s.manager.inQueues.set id (q.push data) } } log := by
  have hlt := (List.getElem?_eq_some_iff.mp hq).1
  refine hS.frame rfl rfl fun j _ => ?_
  unfold inFlight
  cases hw : s.sweep with
  | copying _ i enableCopy =>
    have hne : id ≠ i := fun he => hfree (by rw [hw]; exact he.symm)
    simp only [waiting, contents_set hlt, if_neg hne]
  | _ => rfl

/-- A pop moves messages from the queue to its reader. -/
theorem Sent.popMove [DecidableEq θ] {s : Pipe θ T} {log : List T} (hS : Sent s log) (t : θ)
    {id : Nat} {q : Q T} (hq : s.manager.outQueues[id]? = some q) :
    Sent (({ s with
        manager := { s.manager with outQueues := s.manager.outQueues.set id ⟨[]⟩ }
        data := Function.update s.data t (s.data t ++ q.queue)
        handed := Function.update s.handed id (s.handed id ++ q.queue) } : Pipe θ T).ret t true)
      log := by
  have hlt := (List.getElem?_eq_some_iff.mp hq).1
  intro j hj
  simp only [ret, List.length_set] at hj
  refine Eq.trans ?_ (hS j hj)
  simp only [delivered, ret, contents_set hlt]
  by_cases he : id = j
  · subst j
    rw [Function.update_self, if_pos rfl, List.append_nil, contents_eq hq]
  · rw [Function.update_of_ne (Ne.symm he), if_neg he]

/-- One destination of a copy: it has the whole input queue, the later ones still have
nothing of it. -/
theorem Sent.copyTo {s : Pipe θ T} {log : List T} (hS : Sent s log)
    (hok : s.sweep.Ok s.manager.outQueues.length s.manager.inQueues.length)
    {broadCastList enableCopy : List Nat} {i id : Nat} {it other : Q T}
    (hw : s.sweep = .copying broadCastList i (id :: enableCopy))
    (hi : s.manager.inQueues[i]? = some it) (hid : s.manager.outQueues[id]? = some other) :
    Sent { s with
      manager := { s.manager with outQueues := s.manager.outQueues.set id (it.copyTo other) }
      sweep := .copying broadCastList i enableCopy } log := by
  have hlt := (List.getElem?_eq_some_iff.mp hid).1
  rw [hw] at hok
  have hnodup : (id :: enableCopy).Nodup := List.nodup_range.sublist hok.2.2.sublist
  have hnot : id ∉ enableCopy := (List.nodup_cons.mp hnodup).1
  intro j hj
  simp only [List.length_set] at hj
  have hold := hS j hj
  simp only [inFlight, hw, List.mem_cons] at hold
  simp only [delivered, contents_set hlt, inFlight, Q.queue_copyTo]
  by_cases he : id = j
  · subst j
    rw [if_pos (Or.inl rfl), List.append_nil, delivered, contents_eq hid] at hold
    rw [if_pos rfl, if_neg hnot, ← List.append_assoc, hold, waiting, contents_eq hi]
  · rw [if_neg he]
    simp only [Ne.symm he, false_or] at hold
    exact hold

/-- The end of a copy: every destination has the input queue, which joins the log. -/
theorem Sent.copyEnd {s : Pipe θ T} {log : List T} (hS : Sent s log)
    {broadCastList : List Nat} {i : Nat} (hw : s.sweep = .copying broadCastList i []) :
    Sent { s with
      manager := { s.manager with inQueues := s.manager.inQueues.set i ⟨[]⟩ }
      sweep := .visit broadCastList (i + 1) } (log ++ s.waiting i) := by
  intro j hj
  have hold := hS j hj
  simp only [inFlight, hw, List.not_mem_nil, ite_false] at hold
  simp only [inFlight, List.append_nil]
  exact hold

/-- Every critical section keeps the log sent, with what it joins to the log. -/
theorem Sent.step [DecidableEq θ] {s s' : Pipe θ T} {log : List T} {a : Act θ T} (hS : Sent s log)
    (hs : Wired popId s) (h : Step popId s a s') : Sent s' (log ++ s.joined a) := by
  cases h with
  | pushUnknown | popFail | popFound =>
    simp only [joined, List.append_nil]
    exact hS.frame rfl rfl fun _ _ => rfl
  | push hl hfree hq =>
    simp only [joined, List.append_nil]
    exact hS.push hfree hq
  | popMove hc hq =>
    simp only [joined, List.append_nil]
    exact hS.popMove _ hq
  | passMap hw =>
    simp only [joined, hw, List.append_nil]
    exact hS
  | passBegin hw | passEnd hw | visitFound hw | visitSkip hw =>
    simp only [joined, hw, List.append_nil]
    exact hS.frame rfl rfl fun j _ => by simp only [inFlight, hw]
  | copyBegin hw =>
    simp only [joined, hw, List.append_nil]
    have hok := hs.sweep
    rw [hw] at hok
    refine hS.frame rfl rfl fun j hj => ?_
    simp only [inFlight, hw, hok.1, List.mem_range, hj, ite_true]
  | copyTo hw hi hid =>
    simp only [joined, hw, List.append_nil]
    exact hS.copyTo hs.sweep hw hi hid
  | copyEnd hw hi =>
    simp only [joined, hw]
    exact hS.copyEnd hw

/-! ### Each critical section keeps the feeders' order -/

/-- The part of an input queue that comes from feeder `f`: all of it or nothing. -/
theorem Fifo.filter_waiting {src : T → String} {acts : List (Act θ T)} {s : Pipe θ T}
    {log : List T} (hF : Fifo src acts s log) (hd : s.manager.inQueuesIds.Distinct)
    {f : String} {i : Nat} (hf : s.manager.inQueuesIds.lookup f = some i) (k : Nat) :
    ((s.waiting k).filter fun m => src m = f) = if k = i then s.waiting k else [] := by
  split
  · rename_i he
    subst k
    rw [List.filter_eq_self]
    intro m hm
    simpa only [decide_eq_true_eq] using hd (src m) f i (hF.owned i m hm) hf
  · rename_i he
    rw [List.filter_eq_nil_iff]
    intro m hm hsrc
    have hk := hF.owned k m hm
    rw [of_decide_eq_true hsrc, hf] at hk
    exact he (Option.some.inj hk).symm

theorem completed_concat (f : String) (acts : List (Act θ T)) (a : Act θ T) :
    completed f (acts ++ [a]) = completed f acts ++ (pushOf f a).toList := by
  simp only [completed, List.filterMap_append, List.filterMap_cons, List.filterMap_nil]
  cases pushOf f a <;> rfl

theorem completed_concat_of_none {f : String} {a : Act θ T} (h : pushOf f a = none)
    (acts : List (Act θ T)) : completed f (acts ++ [a]) = completed f acts := by
  rw [completed_concat, h, Option.toList_none, List.append_nil]

/-- A step that completes no push of a registered feeder and leaves the input queues. -/
theorem Fifo.frame {src : T → String} {acts : List (Act θ T)} {s s' : Pipe θ T} {log : List T}
    {a : Act θ T} (hF : Fifo src acts s log)
    (hids : s'.manager.inQueuesIds = s.manager.inQueuesIds)
    (hqs : s'.manager.inQueues = s.manager.inQueues)
    (ha : ∀ f i, s.manager.inQueuesIds.lookup f = some i → pushOf f a = none) :
    Fifo src (acts ++ [a]) s' log where
  order := fun f i hf => by
    rw [hids] at hf
    rw [completed_concat_of_none (ha f i hf), ← hF.order f i hf, waiting, waiting, hqs]
  owned := fun i m hm => by
    rw [waiting, hqs] at hm
    rw [hids]
    exact hF.owned i m hm

/-- A push lands at the end of its feeder's queue. -/
theorem Fifo.push {src : T → String} {acts : List (Act θ T)} {s : Pipe θ T} {log : List T}
    (hF : Fifo src acts s log) (hd : s.manager.inQueuesIds.Distinct) {data : T}
    {pushId : String} {id : Nat} {q : Q T} (hl : s.manager.inQueuesIds.lookup pushId = some id)
    (hq : s.manager.inQueues[id]? = some q) (hsrc : src data = pushId) :
    Fifo src (acts ++ [.push data pushId])
      { s with
        manager := { s.manager with inQueues := s.manager.inQueues.set id (q.push data) } }
      log := by
  have hlt := (List.getElem?_eq_some_iff.mp hq).1
  have hcontents : ∀ i, contents (s.manager.inQueues.set id (q.push data)) i =
      if id = i then s.waiting id ++ [data] else s.waiting i := by
    intro i
    rw [contents_set hlt, Q.queue_push, waiting, waiting, contents_eq hq]
  constructor
  · intro f i hf
    have hold := hF.order f i hf
    rw [completed_concat, waiting, hcontents i]
    by_cases he : id = i
    · subst i
      have hfid : pushId = f := hd pushId f id hl hf
      rw [if_pos rfl, ← List.append_assoc, hold, pushOf, if_pos hfid, Option.toList_some]
    · have hne : pushId ≠ f := by
        rintro rfl
        exact he (Option.some.inj (hl.symm.trans hf))
      rw [if_neg he, hold, pushOf, if_neg hne, Option.toList_none, List.append_nil]
  · intro i m hm
    rw [waiting, hcontents i] at hm
    split at hm
    · rename_i he
      subst i
      rcases List.mem_append.mp hm with hm | hm
      · exact hF.owned id m hm
      · rw [List.mem_singleton.mp hm, hsrc]
        exact hl
    · exact hF.owned i m hm

/-- The end of a copy: the input queue that joins the log is cleared. -/
theorem Fifo.copyEnd {src : T → String} {acts : List (Act θ T)} {s : Pipe θ T} {log : List T}
    (hF : Fifo src acts s log) (hd : s.manager.inQueuesIds.Distinct)
    (broadCastList : List Nat) {i : Nat} {it : Q T} (hi : s.manager.inQueues[i]? = some it) :
    Fifo src (acts ++ [.sweep])
      { s with
        manager := { s.manager with inQueues := s.manager.inQueues.set i ⟨[]⟩ }
        sweep := .visit broadCastList (i + 1) } (log ++ s.waiting i) := by
  have hlt := (List.getElem?_eq_some_iff.mp hi).1
  constructor
  · intro f k hf
    rw [completed_concat_of_none rfl, ← hF.order f k hf, List.filter_append,
      hF.filter_waiting hd hf i, List.append_assoc]
    refine congrArg _ ?_
    simp only [waiting, contents_set hlt]
    by_cases he : i = k
    · subst k
      simp only [ite_true, List.append_nil]
    · simp only [he, ite_false, List.nil_append]
  · intro k m hm
    simp only [waiting, contents_set hlt] at hm
    split at hm
    · exact absurd hm List.not_mem_nil
    · exact hF.owned k m hm

/-- Every critical section keeps the feeders' order. -/
theorem Fifo.step [DecidableEq θ] {src : T → String} {acts : List (Act θ T)} {s s' : Pipe θ T}
    {log : List T} {a : Act θ T} (hF : Fifo src acts s log) (hs : Wired popId s)
    (ha : FromFeeder src a) (h : Step popId s a s') :
    Fifo src (acts ++ [a]) s' (log ++ s.joined a) := by
  cases h with
  | pushUnknown hl =>
    simp only [joined, List.append_nil]
    refine hF.frame rfl rfl fun f i hf => ?_
    rw [pushOf, if_neg]
    rintro rfl
    exact absurd (hl.symm.trans hf) nofun
  | push hl hfree hq =>
    simp only [joined, List.append_nil]
    exact hF.push hs.distinctIn hl hq ha
  | popFail | popFound | popMove =>
    simp only [joined, List.append_nil]
    exact hF.frame rfl rfl fun _ _ _ => rfl
  | passMap hw | passBegin hw | passEnd hw | visitFound hw | visitSkip hw | copyBegin hw
    | copyTo hw =>
    simp only [joined, hw, List.append_nil]
    exact hF.frame rfl rfl fun _ _ _ => rfl
  | copyEnd hw hi =>
    simp only [joined, hw]
    exact hF.copyEnd hs.distinctIn _ hi

/-! ### What holds of every message -/

/-- `P` holds of every message that a thread has popped or that a queue holds. -/
structure Everywhere (P : T → Prop) (s : Pipe θ T) : Prop where
  popped : ∀ t, ∀ m ∈ s.data t, P m
  sent : ∀ j, ∀ m ∈ contents s.manager.outQueues j, P m
  waiting : ∀ i, ∀ m ∈ contents s.manager.inQueues i, P m

theorem Everywhere.mono {P P' : T → Prop} {s : Pipe θ T} (h : Everywhere P s)
    (hP : ∀ m, P m → P' m) : Everywhere P' s where
  popped := fun t m hm => hP m (h.popped t m hm)
  sent := fun j m hm => hP m (h.sent j m hm)
  waiting := fun i m hm => hP m (h.waiting i m hm)

theorem everywhere_start (P : T → Prop) {dm : DataManager T} (h : dm.Registered) :
    Everywhere P (start (θ := θ) dm) where
  popped := fun _ _ hm => absurd hm List.not_mem_nil
  sent := fun j _ hm => absurd (h.2.contents j ▸ hm) List.not_mem_nil
  waiting := fun i _ hm => absurd (h.1.contents i ▸ hm) List.not_mem_nil

/-- One queue is exchanged for another one. -/
theorem forall_contents_set {P : T → Prop} {queues : List (Q T)} {i : Nat} {q it : Q T}
    (hi : queues[i]? = some it) (h : ∀ k, ∀ m ∈ contents queues k, P m)
    (hq : ∀ m ∈ q.queue, P m) : ∀ k, ∀ m ∈ contents (queues.set i q) k, P m := by
  intro k m hm
  rw [contents_set (List.getElem?_eq_some_iff.mp hi).1] at hm
  split at hm
  · exact hq m hm
  · exact h k m hm

theorem forall_queue {P : T → Prop} {queues : List (Q T)} {i : Nat} {q : Q T}
    (hq : queues[i]? = some q) (h : ∀ k, ∀ m ∈ contents queues k, P m) : ∀ m ∈ q.queue, P m :=
  fun m hm => h i m (contents_eq hq ▸ hm)

/-- Messages come into the queues by a push only. -/
theorem Everywhere.step [DecidableEq θ] {P : T → Prop} {s s' : Pipe θ T} {a : Act θ T}
    (h : Everywhere P s) (hs : Step popId s a s')
    (hpush : ∀ data pushId, a = .push data pushId → P data) : Everywhere P s' := by
  cases hs with
  | pushUnknown | passBegin | passMap | passEnd | visitFound | visitSkip | copyBegin
    | popFound | popFail => exact ⟨h.popped, h.sent, h.waiting⟩
  | @push data pushId id q hl hfree hq =>
    refine ⟨h.popped, h.sent, forall_contents_set hq h.waiting ?_⟩
    intro m hm
    rw [Q.queue_push] at hm
    rcases List.mem_append.mp hm with hm | hm
    · exact forall_queue hq h.waiting m hm
    · exact List.mem_singleton.mp hm ▸ hpush data pushId rfl
  | @popMove t id q hc hq =>
    refine ⟨fun u m hm => ?_, forall_contents_set hq h.sent nofun, h.waiting⟩
    by_cases hu : u = t
    · subst hu
      simp only [ret, Function.update_self] at hm
      rcases List.mem_append.mp hm with hm | hm
      · exact h.popped u m hm
      · exact forall_queue hq h.sent m hm
    · simp only [ret, Function.update_of_ne hu] at hm
      exact h.popped u m hm
  | @copyTo broadCastList i id enableCopy it other hw hi hid =>
    refine ⟨h.popped, forall_contents_set hid h.sent ?_, h.waiting⟩
    intro m hm
    rw [Q.queue_copyTo] at hm
    rcases List.mem_append.mp hm with hm | hm
    · exact forall_queue hid h.sent m hm
    · exact forall_queue hi h.waiting m hm
  | @copyEnd broadCastList i it hw hi =>
    exact ⟨h.popped, h.sent, forall_contents_set hi h.waiting nofun⟩

theorem run_everywhere [DecidableEq θ] {P : T → Prop} {acts : List (Act θ T)} {s s' : Pipe θ T}
    (h : Everywhere P s) (hpush : ∀ a ∈ acts, ∀ data pushId, a = .push data pushId → P data)
    (hrun : run (next popId) s acts = some s') : Everywhere P s' := by
  induction acts generalizing s with
  | nil => exact Option.some.inj hrun ▸ h
  | cons a acts ih =>
    obtain ⟨u, hu, hrest⟩ := Option.bind_eq_some_iff.mp hrun
    exact ih (h.step (next_cases hu) (hpush a List.mem_cons_self))
      (fun b hb => hpush b (List.mem_cons_of_mem a hb)) hrest

end Pipe

end DataPipeline
