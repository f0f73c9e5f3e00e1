import DataPipeline.Core.Refinement
import Mathlib.Logic.Function.Basic

/-!
# A log with many writers and readers

Writers publish what they have written to one log, and every reader goes on in the log from
where it stopped. Publishing is not atomic for the readers: while it goes on a reader may not
see the part that was published last.
-/

namespace DataPipeline

open Machine
open Function (update update_self update_of_ne)

/-- A log with writers `ι` and readers `κ`. -/
structure SharedLog (ι κ T : Type) where
  /-- What each writer has written and not yet published, in order. -/
  pending : ι → List T
  /-- What was published, each message with its writer. -/
  log : List (ι × T)
  /-- The length of the log before the last part was published. -/
  settled : Nat
  /-- How much of the log each reader has read. -/
  position : κ → Nat

namespace SharedLog

variable {ι κ T : Type}

/-- Nothing was written. -/
def start : SharedLog ι κ T := ⟨fun _ => [], [], 0, fun _ => 0⟩

/-- One step. -/
inductive Act (ι κ T : Type) where
  | write (i : ι) (m : T)
  | publish (i : ι)
  | read (j : κ) (n : Nat)

/-- What can be seen from outside. -/
inductive Event (ι κ T : Type) where
  /-- Writer `i` has handed a message over. -/
  | wrote (i : ι) (m : T)
  /-- Reader `j` has got some messages, possibly none. -/
  | got (j : κ) (ms : List T)
  deriving DecidableEq

variable [DecidableEq ι] [DecidableEq κ]

/-- The log as a machine. A reader reads all there is, or all but the part published last. -/
def step : Machine (SharedLog ι κ T) (Act ι κ T)
  | s, .write i m => some { s with pending := update s.pending i (s.pending i ++ [m]) }
  | s, .publish i =>
    some { s with
      pending := update s.pending i []
      log := s.log ++ (s.pending i).map (Prod.mk i)
      settled := s.log.length }
  | s, .read j n =>
    if s.position j + n = s.log.length ∨ s.position j + n = s.settled then
      some { s with position := update s.position j (s.position j + n) }
    else none

omit [DecidableEq ι] [DecidableEq κ] in
/-- What a step shows. -/
def shows (s : SharedLog ι κ T) : Act ι κ T → List (Event ι κ T)
  | .write i m => [.wrote i m]
  | .publish _ => []
  | .read j n => [.got j (((s.log.drop (s.position j)).take n).map Prod.snd)]

/-- What writer `i` has handed over with an event. -/
def Event.writtenBy (i : ι) : Event ι κ T → List T
  | .wrote i' m => if i' = i then [m] else []
  | .got _ _ => []

/-- What reader `j` has got with an event. -/
def Event.gotBy (j : κ) : Event ι κ T → List T
  | .wrote _ _ => []
  | .got j' ms => if j' = j then ms else []

/-- What was seen is explained by one log: every reader has got the beginning of it, and every
writer's part of it is the beginning of what the writer has handed over. -/
def Explained (events : List (Event ι κ T)) : Prop :=
  ∃ log : List (ι × T), (∀ j : κ, events.flatMap (Event.gotBy j) <+: log.map Prod.snd) ∧
    ∀ i, (log.filter fun m => m.1 = i).map Prod.snd <+: events.flatMap (Event.writtenBy i)

/-! ### What the log shows is explained by it -/

/-- The state against what was shown so far. -/
structure Accounts (s : SharedLog ι κ T) (events : List (Event ι κ T)) : Prop where
  settled : s.settled ≤ s.log.length
  position : ∀ j, s.position j ≤ s.log.length
  got : ∀ j, events.flatMap (Event.gotBy j) = (s.log.take (s.position j)).map Prod.snd
  written : ∀ i, (s.log.filter fun m => m.1 = i).map Prod.snd ++ s.pending i =
    events.flatMap (Event.writtenBy i)

theorem accounts_start : Accounts (start : SharedLog ι κ T) [] where
  settled := Nat.le_refl _
  position := fun _ => Nat.le_refl _
  got := fun _ => rfl
  written := fun _ => rfl

theorem Accounts.write {s : SharedLog ι κ T} {events : List (Event ι κ T)} (h : Accounts s events)
    (i : ι) (m : T) :
    Accounts { s with pending := update s.pending i (s.pending i ++ [m]) }
      (events ++ [.wrote i m]) where
  settled := h.settled
  position := h.position
  got := fun j => by
    rw [List.flatMap_append, List.flatMap_singleton, Event.gotBy, List.append_nil]
    exact h.got j
  written := fun k => by
    rw [List.flatMap_append, List.flatMap_singleton, ← h.written k, List.append_assoc]
    by_cases hk : k = i
    · subst hk
      simp only [update_self, Event.writtenBy, ite_true]
    · simp only [update_of_ne hk, Event.writtenBy, Ne.symm hk, ite_false, List.append_nil]

/-- The part of a writer in what the writer has just published is all of it. -/
theorem filter_published (ms : List T) (i k : ι) :
    ((ms.map (Prod.mk i)).filter fun m => m.1 = k).map Prod.snd = if i = k then ms else [] := by
  induction ms with
  | nil => simp
  | cons m ms ih =>
    rw [List.map_cons, List.filter_cons]
    by_cases hk : i = k
    · simp only [hk, decide_true, ite_true, List.map_cons] at ih ⊢
      rw [ih]
    · simp only [hk, decide_false, Bool.false_eq_true, ite_false] at ih ⊢
      exact ih

theorem Accounts.publish {s : SharedLog ι κ T} {events : List (Event ι κ T)}
    (h : Accounts s events) (i : ι) :
    Accounts { s with
      pending := update s.pending i []
      log := s.log ++ (s.pending i).map (Prod.mk i)
      settled := s.log.length } events where
  settled := List.length_append ▸ Nat.le_add_right _ _
  position := fun j => (h.position j).trans (List.length_append ▸ Nat.le_add_right _ _)
  got := fun j => by
    rw [List.take_append_of_le_length (h.position j)]
    exact h.got j
  written := fun k => by
    rw [List.filter_append, List.map_append, filter_published, ← h.written k]
    by_cases hk : k = i
    · subst hk
      simp only [update_self, ite_true, List.append_nil]
    · simp only [update_of_ne hk, Ne.symm hk, ite_false, List.append_nil]

theorem Accounts.read {s : SharedLog ι κ T} {events : List (Event ι κ T)} (h : Accounts s events)
    (j : κ) {n : Nat}
    (hn : s.position j + n = s.log.length ∨ s.position j + n = s.settled) :
    Accounts { s with position := update s.position j (s.position j + n) }
      (events ++ [.got j (((s.log.drop (s.position j)).take n).map Prod.snd)]) where
  settled := h.settled
  position := fun k => by
    have := h.settled
    by_cases hk : k = j
    · subst hk
      simp only [update_self]
      omega
    · simp only [update_of_ne hk]
      exact h.position k
  got := fun k => by
    rw [List.flatMap_append, List.flatMap_singleton, h.got k]
    by_cases hk : k = j
    · subst hk
      simp only [update_self, Event.gotBy, ite_true, List.take_add, List.map_append]
    · simp only [update_of_ne hk, Event.gotBy, Ne.symm hk, ite_false, List.append_nil]
  written := fun i => by
    rw [List.flatMap_append, List.flatMap_singleton, Event.writtenBy, List.append_nil]
    exact h.written i

theorem run_accounts {acts : List (Act ι κ T)} {s : SharedLog ι κ T}
    (hrun : run step start acts = some s) : Accounts s (observe step shows start acts) := by
  refine run_observe_invariant (C := fun _ => True) (f := shows) (I := Accounts) ?_
    accounts_start (fun _ _ => trivial) hrun
  intro s events a t hs _ h
  cases a with
  | write i m =>
    cases h
    exact hs.write i m
  | publish i =>
    cases h
    rw [shows, List.append_nil]
    exact hs.publish i
  | read j n =>
    obtain ⟨hn, he⟩ := Option.ite_none_right_eq_some.mp h
    cases he
    exact hs.read j hn

/-- Everything the log shows is explained by it. -/
theorem explained_of_run {acts : List (Act ι κ T)} {s : SharedLog ι κ T}
    (hrun : run step start acts = some s) : Explained (observe step shows start acts) := by
  have h := run_accounts hrun
  refine ⟨s.log, fun j => ?_, fun i => ?_⟩
  · rw [h.got j]
    exact (List.take_prefix _ _).map _
  · rw [← h.written i]
    exact List.prefix_append _ _

end SharedLog

end DataPipeline
