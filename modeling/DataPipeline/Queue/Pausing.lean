import DataPipeline.Queue.Blocking

/-!
# A queue that is paused

`pause` takes the mutex of a queue and keeps it; `restart` clears the deque and gives the
mutex back. In between nothing enters the queue and nothing leaves it, only a notification
gets through. What a restart drops was there when its thread paused, and it is missing for
every thread that has been woken in the meantime.
-/

namespace DataPipeline

open Machine

/-- A queue with its threads, one of which may have paused it. -/
structure Pausing (θ T : Type) where
  calls : Blocking θ T
  /-- The thread that has the mutex from `pause` on. -/
  holder : Option θ

namespace Pausing

variable {θ T : Type}

/-- A queue that no thread is inside of. -/
def start (q : Q T) : Pausing θ T := ⟨.start q, none⟩

/-- One step of a thread. -/
inductive Act (θ T : Type) where
  | call (a : Blocking.Act θ T)
  | pause (t : θ)
  | restart (t : θ)
  deriving DecidableEq

/-- The step is made under the mutex. -/
def locks : Blocking.Act θ T → Bool
  | .push _ | .pop .. | .resume _ | .move => true
  | .spurious _ | .stop => false

variable [DecidableEq θ]

/-- The queue as a machine. To give back a mutex that another thread holds is undefined. -/
def step : Machine (Pausing θ T) (Act θ T)
  | s, .call a =>
    if s.holder = none ∨ locks a = false then
      (Blocking.step s.calls a).map fun calls => { s with calls }
    else none
  | s, .pause t =>
    if s.holder = none ∧ s.calls.cv t = .outside then some { s with holder := some t } else none
  | s, .restart t =>
    if s.holder = some t then some ⟨{ s.calls with q := ⟨[]⟩ }, none⟩ else none

/-! ### What one step can do -/

/-- The steps of the machine, one constructor for each branch. -/
inductive Step (s : Pausing θ T) : Act θ T → Pausing θ T → Prop where
  | call {a calls} (hfree : s.holder = none ∨ locks a = false)
      (h : Blocking.step s.calls a = some calls) : Step s (.call a) { s with calls }
  | pause {t} (hfree : s.holder = none) (ht : s.calls.cv t = .outside) :
      Step s (.pause t) { s with holder := some t }
  | restart {t} (ht : s.holder = some t) : Step s (.restart t) ⟨{ s.calls with q := ⟨[]⟩ }, none⟩

/-- Every step of the machine is one of the branches. -/
theorem step_cases {s s' : Pausing θ T} {a : Act θ T} (h : step s a = some s') : Step s a s' := by
  cases a with
  | call a =>
    simp only [step] at h
    split at h
    · rename_i hfree
      obtain ⟨calls, hcalls, rfl⟩ := Option.map_eq_some_iff.mp h
      exact Step.call hfree hcalls
    · contradiction
  | pause t =>
    simp only [step] at h
    split at h
    · rename_i hfree
      cases h
      exact Step.pause hfree.1 hfree.2
    · contradiction
  | restart t =>
    simp only [step] at h
    split at h
    · rename_i ht
      cases h
      exact Step.restart ht
    · contradiction

/-! ### What leaves the queue -/

/-- How a message has left the queue. -/
inductive Removal where
  | popped
  | moved
  | dropped
  deriving DecidableEq, Repr

omit [DecidableEq θ] in
/-- What a step takes out of the queue. -/
def removed (s : Pausing θ T) : Act θ T → List (Removal × T)
  | .call (.pop _ _ false) | .call (.resume _) =>
    s.calls.q.queue.head?.toList.map fun m => (.popped, m)
  | .call .move => s.calls.q.queue.map fun m => (.moved, m)
  | .restart _ => s.calls.q.queue.map fun m => (.dropped, m)
  | _ => []

/-- What a step brings into the queue. -/
def pushed : Act θ T → Option T
  | .call (.push msg) => some msg
  | _ => none

/-- What is taken out was at the front, what is brought comes to the end. -/
theorem step_queue {s s' : Pausing θ T} {a : Act θ T} (h : step s a = some s') :
    (s.removed a).map Prod.snd ++ s'.calls.q.queue = s.calls.q.queue ++ (pushed a).toList := by
  cases step_cases h with
  | call hfree hcall =>
    cases Blocking.step_cases hcall with
    | push => rfl
    | park | spurious | stop => exact (List.append_nil _).symm
    | popNow _ hq | resume _ hq => simp [removed, pushed, hq]
    | move => simp [removed, pushed]
  | pause => exact (List.append_nil _).symm
  | restart => simp [removed, pushed]

/-- What is in the queue and what was taken out of it is what was pushed, in order. -/
theorem run_queue {q : Q T} {acts : List (Act θ T)} {s : Pausing θ T}
    (hrun : run step (start q) acts = some s) :
    (observe step removed (start q) acts).map Prod.snd ++ s.calls.q.queue =
      q.queue ++ acts.filterMap pushed := by
  refine run_history (I := fun acts s =>
    (observe step removed (start q) acts).map Prod.snd ++ s.calls.q.queue =
      q.queue ++ acts.filterMap pushed) (List.append_nil _).symm ?_ hrun
  intro acts u a v hu hI huv
  have hpushed : (acts ++ [a]).filterMap pushed = acts.filterMap pushed ++ (pushed a).toList := by
    rw [List.filterMap_append]
    cases hp : pushed a <;> simp [hp]
  rw [observe_concat _ hu, List.map_append, List.append_assoc, step_queue huv,
    ← List.append_assoc, hI, hpushed, List.append_assoc]

/-! ### While the queue is paused -/

/-- The messages are where they were: in the queue, in the vectors, with the callers of `pop`. -/
def Frozen (u s : Pausing θ T) : Prop :=
  s.calls.q = u.calls.q ∧ s.calls.data = u.calls.data ∧ s.calls.moved = u.calls.moved

/-- A thread that has paused the queue has done so at some time, and nothing has moved since. -/
def PausedAt (q : Q T) (acts : List (Act θ T)) (s : Pausing θ T) : Prop :=
  ∀ t, s.holder = some t → ∃ before during u, acts = before ++ .pause t :: during ∧
    run step (start q) before = some u ∧ Frozen u s

theorem frozen_step {s s' : Pausing θ T} {a : Act θ T} {t : θ} (h : step s a = some s')
    (ht : s.holder = some t) (ht' : s'.holder ≠ none) : s'.holder = some t ∧ Frozen s s' := by
  cases step_cases h with
  | call hfree hcall =>
    rcases hfree with hfree | hfree
    · cases hfree.symm.trans ht
    · refine ⟨ht, ?_⟩
      cases Blocking.step_cases hcall with
      | push | park | popNow | resume | move => cases hfree
      | spurious | stop => exact ⟨rfl, rfl, rfl⟩
  | pause hfree => cases hfree.symm.trans ht
  | restart => exact absurd rfl ht'

theorem run_pausedAt {q : Q T} {acts : List (Act θ T)} {s : Pausing θ T}
    (hrun : run step (start q) acts = some s) : PausedAt q acts s := by
  refine run_history (I := PausedAt q) (fun _ h => by cases h) ?_ hrun
  intro acts u a v hu hI huv t ht
  cases hholder : u.holder with
  | some t' =>
    have hne : v.holder ≠ none := fun hnone => by cases hnone.symm.trans ht
    obtain ⟨hsame, hfrozen⟩ := frozen_step huv hholder hne
    obtain rfl := Option.some.inj (hsame.symm.trans ht)
    obtain ⟨before, during, w, rfl, hw, hq, hdata, hmoved⟩ := hI t' hholder
    refine ⟨before, during ++ [a], w, by simp, hw, hfrozen.1.trans hq, hfrozen.2.1.trans hdata,
      hfrozen.2.2.trans hmoved⟩
  | none =>
    cases step_cases huv with
    | call => cases hholder.symm.trans ht
    | @pause t' =>
      obtain rfl := Option.some.inj ht
      exact ⟨acts, [], u, rfl, hu, rfl, rfl, rfl⟩
    | restart => cases ht

/-- Along every run, with any number of threads, what was pushed is popped, moved, dropped by a
`restart` or still there, each message once and in order. And if a thread has paused the queue,
then a `restart` drops what was there when it did: since then nothing has entered the queue and
nothing has left it. -/
theorem restart_drops_paused {q : Q T} {acts : List (Act θ T)} {s : Pausing θ T}
    (hrun : run step (start q) acts = some s) :
    (observe step removed (start q) acts).map Prod.snd ++ s.calls.q.queue =
        q.queue ++ acts.filterMap pushed ∧
      ∀ t, s.holder = some t → ∃ before during u, acts = before ++ .pause t :: during ∧
        run step (start q) before = some u ∧ Frozen u s ∧
        s.removed (.restart t) = u.calls.q.queue.map fun m => (.dropped, m) := by
  refine ⟨run_queue hrun, fun t ht => ?_⟩
  obtain ⟨before, during, u, hacts, hu, hfrozen⟩ := run_pausedAt hrun t ht
  refine ⟨before, during, u, hacts, hu, hfrozen, ?_⟩
  rw [removed, hfrozen.1]

/-- A message comes while a consumer waits; the queue is paused before the consumer has the mutex
again, and a notification gets through. -/
theorem restart_drops_paused_before_resume : ∃ s,
    run step (start (θ := Bool) (Q.new : Q String))
        [.call (.pop false .data true), .call (.push "a"), .pause true, .call .stop] = some s ∧
      ∃ before during u, [.call (.pop false .data true), .call (.push "a"), .pause true,
          .call .stop] = before ++ .pause true :: during ∧
        run step (start (Q.new : Q String)) before = some u ∧ Frozen u s ∧
        s.removed (.restart true) = u.calls.q.queue.map fun m => (.dropped, m) := by
  obtain ⟨s, hrun, hholder⟩ : ∃ s, run step (start (θ := Bool) (Q.new : Q String))
      [.call (.pop false .data true), .call (.push "a"), .pause true, .call .stop] = some s ∧
      s.holder = some true := ⟨_, rfl, rfl⟩
  exact ⟨s, hrun, (restart_drops_paused hrun).2 true hholder⟩

/-! ### What a woken thread finds -/

/-- The step brings no woken thread before an empty deque. -/
def LeavesMessage (s : Pausing θ T) : Act θ T → Prop
  | .call a => Blocking.LeavesMessage s.calls a
  | .pause _ => True
  | .restart _ => ∀ t, (s.calls.cv t).isWoken = false

theorem step_findsMessage_iff {s s' : Pausing θ T} {a : Act θ T}
    (hs : Blocking.FindsMessage s.calls) (h : step s a = some s') :
    Blocking.FindsMessage s'.calls ↔ LeavesMessage s a := by
  cases step_cases h with
  | call hfree hcall => exact Blocking.step_findsMessage_iff hs hcall
  | pause => exact iff_of_true hs trivial
  | restart =>
    simp only [Blocking.FindsMessage, LeavesMessage, ne_eq, not_true_eq_false, imp_false,
      Bool.not_eq_true]

/-- In every state of a run the threads that wake from `wait` find a message exactly when no step
takes it from them: as without pauses, and every `restart` comes while no thread is woken. -/
theorem restart_leaves_message_iff (q : Q T) (acts : List (Act θ T)) {s : Pausing θ T}
    (hrun : run step (start q) acts = some s) :
    Always step (fun s => Blocking.FindsMessage s.calls) (start q) acts ↔
      Meets step LeavesMessage (start q) acts := by
  refine always_iff_meets (I := fun _ => True) ?_ trivial ?_ hrun
  · intro u a v _ hu huv
    exact ⟨trivial, step_findsMessage_iff hu huv⟩
  · intro t ht
    cases ht

/-- The consumer has been woken by the message that a restart drops. -/
theorem restart_leaves_message_dropped :
    ¬ Always step (fun s : Pausing Bool String => Blocking.FindsMessage s.calls) (start Q.new)
      [.call (.pop false .data true), .call (.push "a"), .pause true, .restart true] := by
  rw [restart_leaves_message_iff Q.new _ rfl]
  intro h
  have hwoken := h [.call (.pop false .data true), .call (.push "a"), .pause true]
    (.restart true) [] _ rfl rfl false
  cases hwoken

end Pausing

end DataPipeline
