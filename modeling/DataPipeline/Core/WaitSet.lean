import Mathlib.Logic.Function.Basic

/-!
# The wait set of a condition variable

A thread that calls `wait` gives up the mutex and is parked until it is notified or
wakes by itself; then it has to get the mutex again before it goes on with the call in
which it waited. Under the mutex all of these are single steps on the wait set.
-/

namespace DataPipeline

/-- A thread as seen by a condition variable, with the call in which it waits. -/
inductive Waiter (κ : Type*) where
  | outside
  /-- Parked in `wait`, no notification has reached it. -/
  | waiting (call : κ)
  /-- Out of `wait`, has yet to get the mutex. -/
  | woken (call : κ)
  deriving DecidableEq, Repr

/-- The threads around one condition variable. -/
abbrev WaitSet (θ κ : Type*) := θ → Waiter κ

namespace Waiter

variable {κ : Type*}

/-- The thread is parked. -/
def isWaiting : Waiter κ → Bool
  | .waiting _ => true
  | _ => false

/-- The thread is about to go on. -/
def isWoken : Waiter κ → Bool
  | .woken _ => true
  | _ => false

/-- What a notification does to a thread. -/
def notified : Waiter κ → Waiter κ
  | .waiting call => .woken call
  | w => w

@[simp] theorem isWaiting_notified (w : Waiter κ) : w.notified.isWaiting = false := by
  cases w <;> rfl

theorem isWoken_notified {w : Waiter κ} : w.notified.isWoken = true ↔ w ≠ .outside := by
  cases w <;> simp [notified, isWoken]

end Waiter

namespace WaitSet

variable {θ κ : Type*}

open Function (update)

/-- `notify_all`. -/
def notifyAll (w : WaitSet θ κ) : WaitSet θ κ := fun t => (w t).notified

/-- Nobody is left parked after `notify_all`. -/
@[simp] theorem isWaiting_notifyAll (w : WaitSet θ κ) (t : θ) :
    (w.notifyAll t).isWaiting = false := (w t).isWaiting_notified

theorem isWoken_notifyAll {w : WaitSet θ κ} {t : θ} :
    (w.notifyAll t).isWoken = true ↔ w t ≠ .outside := Waiter.isWoken_notified

variable [DecidableEq θ]

/-- One thread changes its state. -/
def goto (w : WaitSet θ κ) (t : θ) (x : Waiter κ) : WaitSet θ κ := update w t x

@[simp] theorem goto_self (w : WaitSet θ κ) (t : θ) (x : Waiter κ) : w.goto t x t = x :=
  Function.update_self ..

theorem goto_of_ne (w : WaitSet θ κ) {t u : θ} (h : u ≠ t) (x : Waiter κ) :
    w.goto t x u = w u := Function.update_of_ne h ..

/-- Everybody is outside once a thread has left if everybody else was. -/
theorem goto_outside_iff {w : WaitSet θ κ} {t : θ} :
    (∀ u, w.goto t .outside u = .outside) ↔ ∀ u, u ≠ t → w u = .outside := by
  constructor
  · intro h u hu
    exact (w.goto_of_ne hu _).symm.trans (h u)
  · intro h u
    by_cases hu : u = t
    · rw [hu, goto_self]
    · rw [w.goto_of_ne hu, h u hu]

end WaitSet

end DataPipeline
