import DataPipeline.Core.Machine
import DataPipeline.Core.WaitSet
import DataPipeline.Manager.Queue

/-!
# The blocking pop

`Q` with its condition variable and any number of threads that call `push`, `pop`,
`move` and `stop`. What happens under the mutex is one step; `pop(.., true)` gives the
mutex up in `wait` and is two. It parks without a look at the deque, and it takes the
front without one after it was woken. The step lemmas say exactly which steps let a
woken thread meet an empty deque, and which leave a message to a thread that is parked.
-/

namespace DataPipeline

/-- `queue.front()` and `queue.pop_front()`, undefined on an empty deque. -/
def Q.popFront {T : Type*} (q : Q T) : Option (T × Q T) :=
  match q.queue with
  | [] => none
  | data :: rest => some (data, ⟨rest⟩)

theorem Q.popFront_eq_some {T : Type*} {q q' : Q T} {data : T} :
    q.popFront = some (data, q') ↔ q.queue = data :: q'.queue := by
  obtain ⟨queue⟩ := q
  obtain ⟨queue'⟩ := q'
  cases queue <;> simp [popFront]

/-- The two overloads of `pop`. -/
inductive PopOverload where
  /-- `pop(data, blocking)`. -/
  | data
  /-- `pop(blocking)`. -/
  | discard
  deriving DecidableEq, Repr

/-- A queue with the threads that call it. -/
structure Blocking (θ T : Type) where
  q : Q T
  cv : WaitSet θ PopOverload
  /-- What `pop(data, ..)` has last stored for each thread. -/
  data : θ → Option T
  /-- What the calls of `move` have taken. -/
  moved : List T

namespace Blocking

variable {θ T : Type}

/-- A queue that no thread is inside of. -/
def start (q : Q T) : Blocking θ T := ⟨q, fun _ => .outside, fun _ => none, []⟩

/-- One step of a thread. -/
inductive Act (θ T : Type) where
  | push (data : T)
  /-- Thread `t` calls `pop`. -/
  | pop (t : θ) (call : PopOverload) (blocking : Bool)
  /-- Thread `t` wakes without notification. -/
  | spurious (t : θ)
  /-- Thread `t` has the mutex again and goes on after `wait`. -/
  | resume (t : θ)
  | move
  | stop
  deriving DecidableEq

/-- Only what `pop` does with the message depends on the overload. -/
def store [DecidableEq θ] (s : Blocking θ T) (t : θ) (msg : T) : PopOverload → θ → Option T
  | .data => Function.update s.data t (some msg)
  | .discard => s.data

variable [DecidableEq θ]

/-- `Q::pop` after the wait. -/
def takeFront (s : Blocking θ T) (t : θ) (call : PopOverload) : Option (Blocking θ T) := do
  let (msg, q) ← s.q.popFront
  some { s with q, data := s.store t msg call, cv := (s.cv.goto t .outside).notifyAll }

/-- The queue and its threads as a machine. -/
def step : Machine (Blocking θ T) (Act θ T)
  | s, .push data => some { s with q := s.q.push data, cv := s.cv.notifyAll }
  | s, .pop t call blocking =>
    match s.cv t with
    | .outside =>
      if blocking then some { s with cv := s.cv.goto t (.waiting call) } else s.takeFront t call
    | _ => none
  | s, .spurious t =>
    match s.cv t with
    | .waiting call => some { s with cv := s.cv.goto t (.woken call) }
    | _ => none
  | s, .resume t =>
    match s.cv t with
    | .woken call => s.takeFront t call
    | _ => none
  | s, .move =>
    let (q, moved) := s.q.move s.moved
    some { s with q, moved }
  | s, .stop => some { s with cv := s.cv.notifyAll }

/-! ### What one step can do -/

/-- The steps of the machine, one constructor for each branch. -/
inductive Step (s : Blocking θ T) : Act θ T → Blocking θ T → Prop where
  | push {data} : Step s (.push data) { s with q := s.q.push data, cv := s.cv.notifyAll }
  | park {t call} (ht : s.cv t = .outside) :
      Step s (.pop t call true) { s with cv := s.cv.goto t (.waiting call) }
  | popNow {t call msg q} (ht : s.cv t = .outside) (hq : s.q.queue = msg :: q.queue) :
      Step s (.pop t call false)
        { s with q, data := s.store t msg call, cv := (s.cv.goto t .outside).notifyAll }
  | spurious {t call} (ht : s.cv t = .waiting call) :
      Step s (.spurious t) { s with cv := s.cv.goto t (.woken call) }
  | resume {t call msg q} (ht : s.cv t = .woken call) (hq : s.q.queue = msg :: q.queue) :
      Step s (.resume t)
        { s with q, data := s.store t msg call, cv := (s.cv.goto t .outside).notifyAll }
  | move : Step s .move { s with q := ⟨[]⟩, moved := s.moved ++ s.q.queue }
  | stop : Step s .stop { s with cv := s.cv.notifyAll }

theorem takeFront_eq_some {s s' : Blocking θ T} {t : θ} {call : PopOverload}
    (h : s.takeFront t call = some s') : ∃ msg q, s.q.queue = msg :: q.queue ∧
      s' = { s with q, data := s.store t msg call, cv := (s.cv.goto t .outside).notifyAll } := by
  obtain ⟨⟨msg, q⟩, hq, h⟩ := Option.bind_eq_some_iff.mp h
  exact ⟨msg, q, Q.popFront_eq_some.mp hq, (Option.some.inj h).symm⟩

/-- Every step of the machine is one of the branches. -/
theorem step_cases {s s' : Blocking θ T} {a : Act θ T} (h : step s a = some s') :
    Step s a s' := by
  cases a with
  | push data =>
    cases h
    exact Step.push
  | pop t call blocking =>
    simp only [step] at h
    split at h
    · rename_i ht
      cases blocking with
      | true =>
        cases h
        exact Step.park ht
      | false =>
        obtain ⟨msg, q, hq, rfl⟩ := takeFront_eq_some h
        exact Step.popNow ht hq
    · cases h
  | spurious t =>
    simp only [step] at h
    split at h
    · rename_i ht
      cases h
      exact Step.spurious ht
    · cases h
  | resume t =>
    simp only [step] at h
    split at h
    · rename_i ht
      obtain ⟨msg, q, hq, rfl⟩ := takeFront_eq_some h
      exact Step.resume ht hq
    · cases h
  | move =>
    cases h
    exact Step.move
  | stop =>
    cases h
    exact Step.stop

/-! ### Taking the front -/

/-- Nobody is inside a blocking `pop`. -/
def Unattended (s : Blocking θ T) : Prop := ∀ t, s.cv t = .outside

/-- Every thread that is about to go on after `wait` finds a message. -/
def FindsMessage (s : Blocking θ T) : Prop := ∀ t, (s.cv t).isWoken = true → s.q.queue ≠ []

/-- The step brings no woken thread before an empty deque: what wakes a thread finds a
message, what takes the last message finds nobody else inside `pop`. -/
def LeavesMessage (s : Blocking θ T) : Act θ T → Prop
  | .push _ => True
  | .pop _ _ true => True
  | .pop _ _ false => s.q.queue.length = 1 → s.Unattended
  | .spurious _ => s.q.queue ≠ []
  | .resume t => s.q.queue.length = 1 → ∀ u, u ≠ t → s.cv u = .outside
  | .move => ∀ t, (s.cv t).isWoken = false
  | .stop => s.q.queue = [] → s.Unattended

omit [DecidableEq θ] in
/-- After `notify_all` everybody inside `pop` has to find a message. -/
theorem findsMessage_notifyAll {s : Blocking θ T} {w : WaitSet θ PopOverload}
    (hw : s.cv = w.notifyAll) :
    FindsMessage s ↔ (s.q.queue = [] → ∀ t, w t = .outside) := by
  unfold FindsMessage
  simp only [hw, WaitSet.isWoken_notifyAll]
  constructor
  · intro h hnil t
    by_contra ht
    exact h t ht hnil
  · intro h t ht hnil
    exact ht (h hnil t)

theorem step_findsMessage_iff {s s' : Blocking θ T} {a : Act θ T} (hs : FindsMessage s)
    (h : step s a = some s') : FindsMessage s' ↔ LeavesMessage s a := by
  cases step_cases h with
  | push =>
    refine ⟨fun _ => trivial, fun _ t _ hnil => ?_⟩
    exact List.append_ne_nil_of_right_ne_nil _ (List.cons_ne_nil _ _) hnil
  | @park t call ht =>
    refine ⟨fun _ => trivial, fun _ u hu => hs u ?_⟩
    by_cases hut : u = t
    · simp only [hut, WaitSet.goto_self, Waiter.isWoken, Bool.false_eq_true] at hu
    · simpa only [WaitSet.goto_of_ne _ hut] using hu
  | @popNow t call msg q ht hq =>
    rw [findsMessage_notifyAll rfl, WaitSet.goto_outside_iff]
    simp only [LeavesMessage, hq, List.length_cons, Nat.add_eq_right, List.length_eq_zero_iff]
    refine forall_congr' fun _ => ⟨fun hout u => ?_, fun hout u _ => hout u⟩
    by_cases hut : u = t
    · rw [hut, ht]
    · exact hout u hut
  | @spurious t call ht =>
    constructor
    · intro h'
      exact h' t (by simp only [WaitSet.goto_self, Waiter.isWoken])
    · exact fun hne _ _ => hne
  | @resume t call msg q ht hq =>
    rw [findsMessage_notifyAll rfl, WaitSet.goto_outside_iff]
    simp only [LeavesMessage, hq, List.length_cons, Nat.add_eq_right, List.length_eq_zero_iff]
  | move =>
    simp only [FindsMessage, LeavesMessage, ne_eq, not_true_eq_false, imp_false,
      Bool.not_eq_true]
  | stop => exact findsMessage_notifyAll rfl

/-- In every state of a run the threads that wake from `wait` find a message exactly when
no spurious wakeup and no `stop` wakes a thread at an empty deque, and every `move` or
`pop` that empties it finds nobody else who could come back from `wait`. -/
theorem pop_finds_message_iff (q : Q T) (acts : List (Act θ T)) {s : Blocking θ T}
    (h : Machine.run step (start q) acts = some s) :
    Machine.Always step FindsMessage (start q) acts ↔
      Machine.Meets step LeavesMessage (start q) acts := by
  refine Machine.always_iff_meets (I := fun _ => True) ?_ trivial ?_ h
  · intro u a v _ hu huv
    exact ⟨trivial, step_findsMessage_iff hu huv⟩
  · intro t ht
    cases ht

/-- A consumer that waits, a message, and the consumer takes it. -/
theorem message_found :
    Machine.Always step FindsMessage (start (θ := Unit) (T := String) Q.new)
      [.pop () .data true, .push "m", .resume ()] := by
  refine (pop_finds_message_iff _ _ rfl).mpr ?_
  refine Machine.meets_cons.mpr ⟨trivial, fun s hs => ?_⟩
  refine Machine.meets_cons.mpr ⟨trivial, fun t ht => ?_⟩
  refine Machine.meets_cons.mpr ⟨fun _ u hu => absurd rfl hu, fun v _ => ?_⟩
  exact Machine.meets_nil step LeavesMessage v

/-- `stop` wakes a consumer of an empty queue. -/
theorem stop_wakes_into_empty_queue :
    ¬ Machine.Always step FindsMessage (start (θ := Unit) (T := String) Q.new)
      [.pop () .data true, .stop] := by
  intro h
  exact h _ [] _ (List.append_nil _).symm rfl () rfl rfl

/-! ### Parking -/

/-- A thread is parked only while the queue is empty or another thread was woken, which
will notify it. -/
def NoneForgotten (s : Blocking θ T) : Prop :=
  (∃ t, (s.cv t).isWaiting = true) → (∀ t, (s.cv t).isWoken = false) → s.q.queue = []

/-- A thread that parks finds the queue empty or another thread woken. -/
def ParksWithReason (s : Blocking θ T) : Act θ T → Prop
  | .pop _ _ true => s.q.queue = [] ∨ ∃ t, (s.cv t).isWoken = true
  | _ => True

omit [DecidableEq θ] in
/-- `notify_all` forgets nobody. -/
theorem noneForgotten_notifyAll {s : Blocking θ T} {w : WaitSet θ PopOverload}
    (hw : s.cv = w.notifyAll) : NoneForgotten s := by
  rintro ⟨t, ht⟩
  rw [hw, WaitSet.isWaiting_notifyAll] at ht
  cases ht

theorem step_noneForgotten_iff {s s' : Blocking θ T} {a : Act θ T}
    (h : step s a = some s') : NoneForgotten s' ↔ ParksWithReason s a := by
  cases step_cases h with
  | push | popNow | resume | stop =>
    exact ⟨fun _ => trivial, fun _ => noneForgotten_notifyAll rfl⟩
  | @park t call ht =>
    have hself : ((s.cv.goto t (.waiting call)) t).isWaiting = true := by
      rw [WaitSet.goto_self]
      rfl
    have hwoken : ∀ u, ((s.cv.goto t (.waiting call)) u).isWoken = (s.cv u).isWoken := by
      intro u
      by_cases hu : u = t
      · rw [hu, WaitSet.goto_self, ht]
        rfl
      · rw [WaitSet.goto_of_ne _ hu]
    simp only [NoneForgotten, ParksWithReason, hwoken]
    constructor
    · intro h'
      by_cases hw : ∀ u, (s.cv u).isWoken = false
      · exact Or.inl (h' ⟨t, hself⟩ hw)
      · simp only [not_forall, Bool.not_eq_false] at hw
        exact Or.inr hw
    · rintro (hnil | ⟨u, hu⟩) _ hw
      · exact hnil
      · exact absurd hu (by rw [hw u]; exact Bool.false_ne_true)
  | @spurious t call ht =>
    refine ⟨fun _ => trivial, fun _ _ hw => ?_⟩
    have ht' := hw t
    simp only [WaitSet.goto_self, Waiter.isWoken, Bool.true_eq_false] at ht'
  | move => exact ⟨fun _ => trivial, fun _ _ _ => rfl⟩

/-- In every state of a run the queue is empty while threads are parked and none is woken,
exactly when every thread that parks finds the queue empty or some thread woken. -/
theorem no_lost_message_iff (q : Q T) (acts : List (Act θ T)) {s : Blocking θ T}
    (h : Machine.run step (start q) acts = some s) :
    Machine.Always step NoneForgotten (start q) acts ↔
      Machine.Meets step ParksWithReason (start q) acts := by
  refine Machine.always_iff_meets (I := fun _ => True) ?_ trivial ?_ h
  · intro u a v _ _ huv
    exact ⟨trivial, step_noneForgotten_iff huv⟩
  · rintro ⟨t, ht⟩
    cases ht

/-- Two consumers wait before a producer pushes for each of them. -/
theorem consumers_wait_first :
    Machine.Always step NoneForgotten (start (θ := Bool) (T := String) Q.new)
      [.pop true .data true, .pop false .data true, .push "m", .push "n", .resume false,
        .resume true] := by
  refine (no_lost_message_iff _ _ rfl).mpr ?_
  refine Machine.meets_cons.mpr ⟨Or.inl rfl, fun s hs => ?_⟩
  obtain rfl := Option.some.inj hs
  refine Machine.meets_cons.mpr ⟨Or.inl rfl, fun _ _ => ?_⟩
  refine Machine.meets_cons.mpr ⟨trivial, fun _ _ => ?_⟩
  refine Machine.meets_cons.mpr ⟨trivial, fun _ _ => ?_⟩
  refine Machine.meets_cons.mpr ⟨trivial, fun _ _ => ?_⟩
  exact Machine.meets_cons.mpr ⟨trivial, fun s _ => Machine.meets_nil step ParksWithReason s⟩

/-- A consumer that comes after the message parks on it. -/
theorem parks_on_message :
    ¬ Machine.Always step NoneForgotten (start (θ := Unit) (T := String) Q.new)
      [.push "m", .pop () .data true] := by
  intro h
  have hnil := h _ [] _ (List.append_nil _).symm rfl ⟨(), rfl⟩ (fun _ => rfl)
  cases hnil

end Blocking

end DataPipeline
