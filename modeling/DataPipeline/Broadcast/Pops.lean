import DataPipeline.Broadcast.Order
import DataPipeline.Manager.Table

/-!
# Several pops of one consumer

Two threads that pop for the same consumer share its queue. What leaves the queue goes to
one call each, in the order of the queue, whatever the interleaving. What `pop` returns
was decided by the test, and between the test and the move another call may have emptied
the queue: then the call returns `true` and has appended nothing.
-/

namespace DataPipeline.Pipe

open Machine

variable {θ T : Type} [DecidableEq θ]

/-- A call of `pop` that has returned. -/
structure Return (θ T : Type) where
  thread : θ
  /-- What the call has appended to the vector it was given. -/
  appended : List T
  result : Option Bool
  deriving DecidableEq

/-- The return of thread `t` that leads from `s` to `s'`. -/
def returnOf (s s' : Pipe θ T) (t : θ) : List (Return θ T) :=
  if s'.calls t = .idle then [⟨t, (s'.data t).drop (s.data t).length, s'.result t⟩] else []

/-- The call of `pop` that returns with a step. -/
def returns (popId : θ → String) (s : Pipe θ T) : Act θ T → List (Return θ T)
  | .popTest t => ((next popId s (.popTest t)).map fun s' => returnOf s s' t).getD []
  | .popMove t => ((next popId s (.popMove t)).map fun s' => returnOf s s' t).getD []
  | .push .. | .sweep => []

/-- What a step of a copy brings to output queue `j`. -/
def brought (j : Nat) (s : Pipe θ T) : Act θ T → List T
  | .sweep =>
    match s.sweep with
    | .copying _ i (id :: _) => if id = j then s.waiting i else []
    | _ => []
  | _ => []

/-- What the calls of one thread have appended. -/
def appendedBy (t : θ) (log : List (Return θ T)) : List T :=
  (log.filter fun c => c.thread = t).flatMap Return.appended

/-- What the calls for the consumer `name` have appended. -/
def appendedFor (popId : θ → String) (name : String) (log : List (Return θ T)) : List T :=
  (log.filter fun c => popId c.thread = name).flatMap Return.appended

/-- The call returns `true` exactly if it has appended something. -/
def Return.Truthful (c : Return θ T) : Prop := c.result = some true ↔ c.appended ≠ []

/-- A call of `pop` that has found its queue not empty moves out of a queue that still is
not. -/
def MovesSomething (s : Pipe θ T) : Act θ T → Prop
  | .popMove t => ∀ id, s.calls t = .nonEmpty id → contents s.manager.outQueues id ≠ []
  | _ => True

/-! ### What one step returns -/

variable {popId : θ → String}

theorem returnOf_ret {s s' : Pipe θ T} {t : θ} {moved : List T} (b : Bool)
    (h : s'.data t = s.data t ++ moved) : returnOf s (s'.ret t b) t = [⟨t, moved, some b⟩] := by
  have hdata : (s'.ret t b).data t = s.data t ++ moved := h
  rw [returnOf, hdata]
  simp [ret]

/-- A call that finds nothing returns `false`. -/
theorem returns_popFail {s : Pipe θ T} {t : θ}
    (h : next popId s (.popTest t) = some (s.ret t false)) :
    s.returns popId (.popTest t) = [⟨t, [], some false⟩] := by
  rw [returns, h, Option.map_some, Option.getD_some]
  exact returnOf_ret false (List.append_nil _).symm

/-- A call that finds something has not returned yet. -/
theorem returns_popFound {s : Pipe θ T} {t : θ} {id : Nat}
    (h : next popId s (.popTest t) =
      some { s with calls := Function.update s.calls t (.nonEmpty id) }) :
    s.returns popId (.popTest t) = [] := by
  rw [returns, h, Option.map_some, Option.getD_some, returnOf]
  simp

/-- A call that moves returns `true`. -/
theorem returns_popMove {s : Pipe θ T} {t : θ} {id : Nat} (hc : s.calls t = .nonEmpty id) {q : Q T}
    (hq : s.manager.outQueues[id]? = some q) :
    s.returns popId (.popMove t) = [⟨t, q.queue, some true⟩] := by
  simp only [returns, next, hc, hq, Option.map_some, Option.getD_some]
  exact returnOf_ret true (Function.update_self ..)

theorem appendedBy_append (t : θ) (log log' : List (Return θ T)) :
    appendedBy t (log ++ log') = appendedBy t log ++ appendedBy t log' := by
  simp [appendedBy]

omit [DecidableEq θ] in
theorem appendedFor_append (popId : θ → String) (name : String) (log log' : List (Return θ T)) :
    appendedFor popId name (log ++ log') =
      appendedFor popId name log ++ appendedFor popId name log' := by
  simp [appendedFor]

/-- What a thread's vector gains in a step is what the call that returns has appended. -/
theorem data_step {s s' : Pipe θ T} {a : Act θ T} (h : next popId s a = some s') (t : θ) :
    s'.data t = s.data t ++ appendedBy t (s.returns popId a) := by
  cases next_cases h with
  | pushUnknown | push | passBegin | passMap | passEnd | visitFound | visitSkip | copyBegin
    | copyTo | copyEnd => exact (List.append_nil _).symm
  | popFail => simp [returns_popFail h, appendedBy, ret, List.filter_cons]
  | popFound => simp [returns_popFound h, appendedBy]
  | @popMove u id q hc hq =>
    rw [returns_popMove hc hq]
    by_cases he : u = t
    · subst he
      simp [appendedBy, ret]
    · simp [appendedBy, ret, he, Function.update_of_ne (Ne.symm he)]

/-- What is moved out of the queue of a consumer is what the calls for it have appended. -/
theorem handed_step {s s' : Pipe θ T} {a : Act θ T} (hd : s.manager.outQueuesIds.Distinct)
    (hcalls : ∀ t id, s.calls t = .nonEmpty id → s.manager.outQueuesIds.lookup (popId t) = some id)
    (h : next popId s a = some s') {name : String} {j : Nat}
    (hj : s.manager.outQueuesIds.lookup name = some j) :
    s'.handed j = s.handed j ++ appendedFor popId name (s.returns popId a) := by
  cases next_cases h with
  | pushUnknown | push | passBegin | passMap | passEnd | visitFound | visitSkip | copyBegin
    | copyTo | copyEnd => exact (List.append_nil _).symm
  | @popFail t =>
    rw [returns_popFail h]
    by_cases he : popId t = name <;> simp [appendedFor, ret, he]
  | popFound => simp [returns_popFound h, appendedFor]
  | @popMove t id q hc hq =>
    rw [returns_popMove hc hq]
    by_cases he : popId t = name
    · have hid : id = j := Option.some.inj ((hcalls t id hc).symm.trans (he ▸ hj))
      simp [appendedFor, ret, he, hid]
    · have hne : j ≠ id := by
        rintro rfl
        exact he (hd _ _ j (hcalls t j hc) hj)
      simp [appendedFor, ret, he, Function.update_of_ne hne]

/-- What leaves a queue was in it or was brought to it. -/
theorem delivered_step {s s' : Pipe θ T} {a : Act θ T} (h : next popId s a = some s') (j : Nat) :
    s'.delivered j = s.delivered j ++ brought j s a := by
  cases next_cases h with
  | pushUnknown | push | popFail | popFound => exact (List.append_nil _).symm
  | passBegin hw | passMap hw | passEnd hw | visitFound hw | visitSkip hw | copyBegin hw
    | copyEnd hw =>
    simp [brought, hw, delivered]
  | @popMove t id q hc hq =>
    have hlt := (List.getElem?_eq_some_iff.mp hq).1
    simp only [delivered, ret, contents_set hlt, brought, List.append_nil]
    by_cases he : id = j
    · subst he
      simp [contents_eq hq]
    · simp [he, Function.update_of_ne (Ne.symm he)]
  | @copyTo _ i id _ it other hw hi hid =>
    have hlt := (List.getElem?_eq_some_iff.mp hid).1
    simp only [delivered, contents_set hlt, brought, hw]
    by_cases he : id = j
    · subst he
      simp [contents_eq hid, waiting, contents_eq hi]
    · simp [he]

/-- The call that returns with a step is truthful exactly if its queue still had something
in it. -/
theorem truthful_step_iff {s s' : Pipe θ T} {a : Act θ T} (h : next popId s a = some s') :
    (∀ c ∈ s.returns popId a, c.Truthful) ↔ MovesSomething s a := by
  cases next_cases h with
  | pushUnknown | push | passBegin | passMap | passEnd | visitFound | visitSkip | copyBegin
    | copyTo | copyEnd => simp [returns, MovesSomething]
  | popFail => simp [returns_popFail h, Return.Truthful, MovesSomething]
  | popFound => simp [returns_popFound h, MovesSomething]
  | @popMove t id q hc hq =>
    simp [returns_popMove hc hq, Return.Truthful, MovesSomething, hc, contents_eq hq]

/-! ### Along a run -/

/-- The calls of `pop` that have returned, in the order in which they did. -/
def popLog (popId : θ → String) (dm : DataManager T) (acts : List (Act θ T)) :
    List (Return θ T) :=
  observe (next popId) (returns popId) (start dm) acts

theorem run_calls {dm : DataManager T} {acts : List (Act θ T)} {s : Pipe θ T}
    (hrun : run (next popId) (start dm) acts = some s) (t : θ) (id : Nat)
    (hc : s.calls t = .nonEmpty id) : s.manager.outQueuesIds.lookup (popId t) = some id := by
  refine run_invariant (I := fun s : Pipe θ T => ∀ t id, s.calls t = .nonEmpty id →
    s.manager.outQueuesIds.lookup (popId t) = some id) ?_ (fun _ _ h => by cases h) hrun t id hc
  intro u a v hu h
  rw [(next_cases h).outQueuesIds]
  exact (next_cases h).calls_ok hu

theorem run_data {dm : DataManager T} {acts : List (Act θ T)} {s : Pipe θ T}
    (hrun : run (next popId) (start dm) acts = some s) (t : θ) :
    s.data t = appendedBy t (popLog popId dm acts) := by
  refine run_observe_invariant (C := fun _ => True)
    (I := fun (s : Pipe θ T) log => s.data t = appendedBy t log) (f := returns popId) ?_
    (rfl : _ = appendedBy t []) (fun _ _ => trivial) hrun
  intro u log a v hu _ huv
  rw [data_step huv, hu, appendedBy_append]

theorem run_delivered {dm : DataManager T} {acts : List (Act θ T)} {s : Pipe θ T}
    (hrun : run (next popId) (start dm) acts = some s) (j : Nat) :
    s.delivered j =
      contents dm.outQueues j ++ observe (next popId) (brought j) (start dm) acts := by
  refine run_observe_invariant (C := fun _ => True)
    (I := fun (s : Pipe θ T) log => s.delivered j = log) ?_ rfl (fun _ _ => trivial) hrun
  intro u log a v hu _ huv
  rw [delivered_step huv, hu]

theorem run_handed {dm : DataManager T} (hd : dm.outQueuesIds.Distinct) {acts : List (Act θ T)}
    {s : Pipe θ T} (hrun : run (next popId) (start dm) acts = some s) {name : String} {j : Nat}
    (hj : dm.outQueuesIds.lookup name = some j) :
    s.handed j = appendedFor popId name (popLog popId dm acts) := by
  refine run_history (I := fun acts s => s.handed j = appendedFor popId name
    (popLog popId dm acts)) rfl ?_ hrun
  intro acts u a v hu hI huv
  have hids := (run_ids hu).2
  rw [handed_step (hids ▸ hd) (run_calls hu) huv (hids ▸ hj), hI, popLog, popLog,
    observe_concat _ hu, appendedFor_append]

/-- Any number of threads that pop, by any names and in any interleaving with the
broadcasts, on a manager after any calls. What is in the queue of a consumer or comes to
it goes to the calls for this consumer, one after the other and in the order of the queue,
or is still there; a thread's vector is what its calls have appended. All calls return
`true` exactly if they have appended something if and only if no call moves out of a queue
that is empty again since the call has tested it. -/
theorem pops_hand_out_once {conf : DataManagerConf} {ops : List (DataManager.Op T)}
    {dm : DataManager T} (hdm : run DataManager.step (.new conf) ops = some dm)
    {acts : List (Act θ T)} {s : Pipe θ T}
    (hrun : run (next popId) (start dm) acts = some s) :
    (∀ name j, dm.outQueuesIds.lookup name = some j →
        contents dm.outQueues j ++ observe (next popId) (brought j) (start dm) acts =
          appendedFor popId name (popLog popId dm acts) ++ contents s.manager.outQueues j) ∧
      (∀ t, s.data t = appendedBy t (popLog popId dm acts)) ∧
      ((∀ c ∈ popLog popId dm acts, c.Truthful) ↔
        Meets (next popId) MovesSomething (start dm) acts) := by
  refine ⟨fun name j hj => ?_, run_data hrun, ?_⟩
  · rw [← run_handed (DataManager.run_compact hdm).distinct hrun hj]
    exact (run_delivered hrun j).symm
  · rw [popLog, forall_mem_observe]
    exact meets_congr_of_run hrun fun u a v huv => truthful_step_iff huv

/-- A manager with one feeder and one consumer, and a message that waits for it. -/
def oneMessage : List (DataManager.Op String) :=
  [.setFeeder "f", .setConsumer "c", .push "m" "f", .manageBroadcast]

/-- Two threads for the same consumer, one after the other. -/
theorem two_pops_in_turn : ∃ (dm : DataManager String) (s : Pipe Bool String),
    run DataManager.step (.new ⟨"dm", 8, 8, .BROADCAST⟩) oneMessage = some dm ∧
      run (next fun _ => "c") (start dm) [.popTest true, .popMove true, .popTest false] =
        some s ∧
      s.data true = ["m"] ∧ s.data false = [] := by
  obtain ⟨dm, s, hdm, hrun, htrue, hfalse⟩ : ∃ (dm : DataManager String) (s : Pipe Bool String),
      run DataManager.step (.new ⟨"dm", 8, 8, .BROADCAST⟩) oneMessage = some dm ∧
        run (next fun _ => "c") (start dm) [.popTest true, .popMove true, .popTest false] =
          some s ∧
        appendedBy true (popLog (fun _ => "c") dm
          [.popTest true, .popMove true, .popTest false]) = ["m"] ∧
        appendedBy false (popLog (fun _ => "c") dm
          [.popTest true, .popMove true, .popTest false]) = [] :=
    ⟨_, _, rfl, rfl, by decide, by decide⟩
  have h := (pops_hand_out_once hdm hrun).2.1
  exact ⟨dm, s, hdm, hrun, (h true).trans htrue, (h false).trans hfalse⟩

/-- Both threads have found the message before one of them takes it; the other one returns
`true` with nothing. -/
theorem second_pop_returns_true_with_nothing : ∃ (dm : DataManager String) (s : Pipe Bool String),
    run DataManager.step (.new ⟨"dm", 8, 8, .BROADCAST⟩) oneMessage = some dm ∧
      run (next fun _ => "c") (start dm)
        [.popTest true, .popTest false, .popMove true, .popMove false] = some s ∧
      ∃ c ∈ popLog (fun _ => "c") dm
        [.popTest true, .popTest false, .popMove true, .popMove false], ¬ c.Truthful := by
  refine ⟨_, _, rfl, rfl, ⟨false, [], some true⟩, by decide, ?_⟩
  exact fun h => h.mp rfl rfl

end DataPipeline.Pipe
