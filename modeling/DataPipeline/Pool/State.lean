import Mathlib.Data.List.Basic
import Mathlib.Data.List.Count

/-!
# The thread pool

`ThreadPool` at the granularity of its critical sections. A thread of `ThreadLoop` that
holds `queue_mutex` tests the predicate and, in the same critical section, parks in
`wait`, takes the front job or leaves. What a running job is doing is a parameter `A`,
which `enter` gives at its first instruction. Parked threads wake by `notify_one`, by
`notify_all` or spuriously.
-/

namespace DataPipeline

/-- Where a thread of the pool stands in `ThreadLoop`. -/
inductive Worker (A : Type) where
  /-- About to lock the mutex and test the predicate. -/
  | awake
  /-- Inside `mutex_condition.wait`. -/
  | parked
  /-- Executing a job. -/
  | running (a : A)
  /-- `ThreadLoop` has returned. -/
  | terminated
  deriving DecidableEq, Repr

/-- A notification can wake the thread. -/
def Worker.isParked {A : Type} : Worker A → Bool
  | .parked => true
  | _ => false

/-- A `join` of the thread returns. -/
def Worker.isTerminated {A : Type} : Worker A → Bool
  | .terminated => true
  | _ => false

/-- `ThreadPool`. -/
structure Pool (J A : Type) where
  /-- Front of the queue first. -/
  jobs : List J
  shouldTerminate : Bool
  threads : List (Worker A)

namespace Pool

variable {J A : Type}

/-- The constructor. -/
def new : Pool J A := ⟨[], false, []⟩

/-- One round of the loop of `start`. -/
def spawn (p : Pool J A) : Pool J A := { p with threads := p.threads ++ [.awake] }

/-- The critical section of `QueueJob`. -/
def queueJob (p : Pool J A) (job : J) : Pool J A := { p with jobs := p.jobs ++ [job] }

/-- Thread `i` is in state `a`. -/
def At (p : Pool J A) (i : Nat) (a : Worker A) : Prop := p.threads[i]? = some a

instance [DecidableEq A] (p : Pool J A) (i : Nat) (a : Worker A) : Decidable (p.At i a) :=
  inferInstanceAs (Decidable (_ = _))

theorem mem_threads_iff {p : Pool J A} {a : Worker A} : a ∈ p.threads ↔ ∃ i, p.At i a :=
  List.mem_iff_getElem?

/-- Thread `i` continues in state `a`. -/
def goto (p : Pool J A) (i : Nat) (a : Worker A) : Pool J A :=
  { p with threads := p.threads.set i a }

/-- The critical section of `ThreadLoop` in thread `i`. -/
def threadLoop (enter : J → A) (p : Pool J A) (i : Nat) : Option (Pool J A) :=
  match p.threads[i]? with
  | some .awake =>
    if p.shouldTerminate then some (p.goto i .terminated)
    else match p.jobs with
      | [] => some (p.goto i .parked)
      | job :: jobs => some ({ p with jobs }.goto i (.running (enter job)))
  | _ => none

/-- Thread `i` leaves `wait` and is about to test the predicate again. -/
def wake (p : Pool J A) (i : Nat) : Option (Pool J A) :=
  match p.threads[i]? with
  | some .parked => some (p.goto i .awake)
  | _ => none

/-- `notify_one`, which wakes a parked thread of the system's choice if there is one. -/
def notifyOne (p : Pool J A) : Option Nat → Option (Pool J A)
  | some i => p.wake i
  | none => if p.threads.any Worker.isParked then none else some p

/-- `notify_all`. -/
def notifyAll (p : Pool J A) : Pool J A :=
  { p with threads := p.threads.map fun t => if Worker.isParked t then .awake else t }

/-- The critical section of `stop`. -/
def terminate (p : Pool J A) : Pool J A := { p with shouldTerminate := true }

/-- The end of `stop`: every thread is joined, then the vector is cleared. -/
def joinAll (p : Pool J A) : Option (Pool J A) :=
  if p.threads.all Worker.isTerminated then some { p with threads := [] } else none

theorem goto_goto (p : Pool J A) (i : Nat) (a b : Worker A) :
    (p.goto i a).goto i b = p.goto i b := by
  simp only [goto, List.set_set]

theorem goto_eq_self {p : Pool J A} {i : Nat} {a : Worker A} (h : p.At i a) : p.goto i a = p := by
  obtain ⟨hlt, rfl⟩ := List.getElem?_eq_some_iff.mp h
  simp only [goto, List.set_getElem_self]

/-- What one critical section of `ThreadLoop` can do. -/
theorem threadLoop_cases {enter : J → A} {p p' : Pool J A} {i : Nat}
    (h : p.threadLoop enter i = some p') :
    p.At i .awake ∧
      ((p.shouldTerminate = true ∧ p' = p.goto i .terminated) ∨
        (p.shouldTerminate = false ∧ p.jobs = [] ∧ p' = p.goto i .parked) ∨
        ∃ job jobs, p.shouldTerminate = false ∧ p.jobs = job :: jobs ∧
          p' = { p with jobs }.goto i (.running (enter job))) := by
  unfold threadLoop at h
  split at h
  · rename_i hi
    refine ⟨hi, ?_⟩
    split at h
    · rename_i ht
      cases h
      exact Or.inl ⟨ht, rfl⟩
    · rename_i ht
      apply Or.inr
      rw [Bool.not_eq_true] at ht
      split at h <;> rename_i hj <;> cases h
      · exact Or.inl ⟨ht, hj, rfl⟩
      · exact Or.inr ⟨_, _, ht, hj, rfl⟩
  · contradiction

/-- A thread that is awake takes the front job of a pool that is not terminating. -/
theorem threadLoop_take {enter : J → A} {p : Pool J A} {i : Nat} {job : J} {jobs : List J}
    (hi : p.At i .awake) (hterm : p.shouldTerminate = false) (hj : p.jobs = job :: jobs) :
    p.threadLoop enter i = some ({ p with jobs }.goto i (.running (enter job))) := by
  have hi : p.threads[i]? = some .awake := hi
  simp only [threadLoop, hi, hterm, hj, Bool.false_eq_true, ite_false]

theorem wake_eq_some {p p' : Pool J A} {i : Nat} (h : p.wake i = some p') :
    p.At i .parked ∧ p' = p.goto i .awake := by
  unfold wake at h
  split at h
  · rename_i hi
    exact ⟨hi, (Option.some.inj h).symm⟩
  · contradiction

theorem notifyOne_none {p p' : Pool J A} (h : p.notifyOne none = some p') : p' = p := by
  simp only [notifyOne, Option.ite_none_left_eq_some, Option.some.injEq] at h
  exact h.2.symm

theorem joinAll_eq_some {p p' : Pool J A} (h : p.joinAll = some p') :
    (∀ t ∈ p.threads, t = .terminated) ∧ p' = { p with threads := [] } := by
  unfold joinAll at h
  split at h
  · rename_i hall
    refine ⟨fun t ht => ?_, (Option.some.inj h).symm⟩
    have hterm := List.all_eq_true.mp hall t ht
    cases t with
    | terminated => rfl
    | awake | parked | running => cases hterm
  · contradiction

/-! ### Counting threads -/

/-- Moving one thread moves its count. -/
theorem countP_goto {p : Pool J A} {i : Nat} {a : Worker A} (h : p.At i a)
    (f : Worker A → Bool) (b : Worker A) :
    (p.goto i b).threads.countP f + [a].countP f = p.threads.countP f + [b].countP f := by
  obtain ⟨hlt, rfl⟩ := List.getElem?_eq_some_iff.mp h
  have hle := List.boole_getElem_le_countP (p := f) hlt
  unfold Pool.goto
  rw [List.countP_set hlt, List.countP_singleton, List.countP_singleton]
  omega

/-- Moving one thread moves what is read off it. -/
theorem filterMap_goto {B : Type} {p : Pool J A} {i : Nat} {a : Worker A} (h : p.At i a)
    (f : Worker A → Option B) (b : Worker A) :
    ((f a).toList ++ (p.goto i b).threads.filterMap f).Perm
      ((f b).toList ++ p.threads.filterMap f) := by
  obtain ⟨hlt, rfl⟩ := List.getElem?_eq_some_iff.mp h
  have hone : ∀ x, [x].filterMap f = (f x).toList := by
    intro x
    cases hx : f x <;> simp only [List.filterMap_cons, hx, List.filterMap_nil, Option.toList]
  have hold : p.threads = p.threads.take i ++ [p.threads[i]] ++ p.threads.drop (i + 1) := by
    rw [← List.take_succ_eq_append_getElem hlt, List.take_append_drop]
  have hnew : (p.goto i b).threads = p.threads.take i ++ [b] ++ p.threads.drop (i + 1) := by
    rw [goto, List.set_eq_take_append_cons_drop, if_pos hlt, List.append_assoc,
      List.singleton_append]
  rw [hnew]
  conv => rhs; rw [hold]
  classical
  apply List.perm_iff_count.mpr
  intro x
  simp only [List.filterMap_append, hone, List.count_append]
  omega

/-! ### Who is executing a job -/

/-- A thread that is moved is where it was moved to, every other where it was. -/
theorem at_goto {p : Pool J A} {i k : Nat} {a b : Worker A} (h : (p.goto i a).At k b) :
    (k = i ∧ b = a) ∨ (k ≠ i ∧ p.At k b) := by
  unfold At goto at h
  by_cases he : i = k
  · subst k
    rw [List.getElem?_set_self'] at h
    obtain ⟨_, _, hb⟩ := Option.map_eq_some_iff.mp h
    exact Or.inl ⟨rfl, hb.symm⟩
  · rw [List.getElem?_set_ne he] at h
    exact Or.inr ⟨Ne.symm he, h⟩

theorem at_goto_self {p : Pool J A} {i : Nat} {a : Worker A} (h : p.At i a) (b : Worker A) :
    (p.goto i b).At i b := List.getElem?_set_self (List.getElem?_eq_some_iff.mp h).1

theorem at_goto_of_ne {p : Pool J A} {i k : Nat} {b : Worker A} (h : k ≠ i) (a : Worker A)
    (hk : p.At k b) : (p.goto i a).At k b :=
  (List.getElem?_set_ne (Ne.symm h)).trans hk

theorem running_spawn {p : Pool J A} {k : Nat} {a : A} :
    p.spawn.At k (.running a) ↔ p.At k (.running a) := by
  unfold spawn At
  rw [List.getElem?_append]
  split
  · exact Iff.rfl
  · rename_i h
    rw [List.getElem?_eq_none (Nat.le_of_not_lt h)]
    refine iff_of_false (fun he => ?_) nofun
    cases List.mem_singleton.mp (List.mem_of_getElem? he)

theorem running_notifyAll {p : Pool J A} {k : Nat} {a : A} :
    p.notifyAll.At k (.running a) ↔ p.At k (.running a) := by
  unfold notifyAll At
  rw [List.getElem?_map]
  cases p.threads[k]? with
  | none => exact Iff.rfl
  | some t => cases t <;> simp [Worker.isParked]

/-- Waking a thread leaves those that execute something where they are. -/
theorem running_wake {p : Pool J A} {i k : Nat} {a : A} (hi : p.At i .parked) :
    (p.goto i .awake).At k (.running a) ↔ p.At k (.running a) := by
  constructor
  · intro hk
    rcases at_goto hk with ⟨_, he⟩ | ⟨_, hk⟩
    · cases he
    · exact hk
  · intro hk
    refine at_goto_of_ne ?_ _ hk
    rintro rfl
    cases hi.symm.trans hk

end Pool

end DataPipeline
