import Mathlib.Data.List.Basic

/-!
# The message queue

`Q` is the deque behind one mutex. Each operation here is one critical section
of the source. The condition variable plays no part in them: `notify_all` does
not change the deque.
-/

namespace DataPipeline

/-- `Q<T>`: the deque that the mutex protects. -/
structure Q (T : Type*) where
  /-- Front of the deque first. -/
  queue : List T
  deriving DecidableEq, Repr

namespace Q

variable {T : Type*}

/-- `Q()`. -/
def new : Q T := ⟨[]⟩

/-- `Q::push`. -/
def push (q : Q T) (data : T) : Q T := ⟨q.queue ++ [data]⟩

/-- `Q::empty`. -/
def empty (q : Q T) : Bool := q.queue.isEmpty

/-- `Q::move`: everything is appended to the caller's vector and the deque is cleared. -/
def move (q : Q T) (other : List T) : Q T × List T := (⟨[]⟩, other ++ q.queue)

/-- The body of the loop of `Q::copy`, under the destination's mutex. -/
def copyTo (q other : Q T) : Q T := ⟨other.queue ++ q.queue⟩

/-- The loop of `Q::copy` over `enableCopy`. An index past the end of `others` is
undefined behaviour, here `none`. -/
def copyAll (q : Q T) (others : List (Q T)) : List Nat → Option (List (Q T))
  | [] => some others
  | id :: enableCopy => do
    let other ← others[id]?
    copyAll q (others.set id (q.copyTo other)) enableCopy

/-- `Q::copy(others, enableCopy)`: the source is cleared once every destination has it. -/
def copy (q : Q T) (others : List (Q T)) (enableCopy : List Nat) : Option (Q T × List (Q T)) :=
  (copyAll q others enableCopy).map fun others' => (⟨[]⟩, others')

/-- The queue with other messages. -/
def map {U : Type*} (f : T → U) (q : Q T) : Q U := ⟨q.queue.map f⟩

@[simp] theorem queue_new : (new : Q T).queue = [] := rfl

@[simp] theorem queue_push (q : Q T) (data : T) : (q.push data).queue = q.queue ++ [data] := rfl

@[simp] theorem queue_copyTo (q other : Q T) :
    (q.copyTo other).queue = other.queue ++ q.queue := rfl

@[simp] theorem queue_map {U : Type*} (f : T → U) (q : Q T) :
    (q.map f).queue = q.queue.map f := rfl

theorem empty_iff (q : Q T) : q.empty = true ↔ q.queue = [] := List.isEmpty_iff

/-- Destinations from `k` on receive the source, the ones before are left alone. -/
theorem copyAll_range' (q : Q T) (n k : Nat) (others : List (Q T)) (hk : k + n = others.length) :
    copyAll q others (List.range' k n) =
      some (others.take k ++ (others.drop k).map q.copyTo) := by
  induction n generalizing k others with
  | zero =>
    have hd : others.drop k = [] := List.drop_eq_nil_of_le (by omega)
    simp only [List.range'_zero, copyAll, hd, List.map_nil, List.append_nil,
      List.take_of_length_le (show others.length ≤ k by omega)]
  | succ n ih =>
    have hlt : k < others.length := by omega
    simp only [List.range'_succ, copyAll, List.getElem?_eq_getElem hlt, Option.bind_eq_bind,
      Option.bind_some]
    rw [ih (k + 1) _ (by simp only [List.length_set]; omega)]
    have htake : (others.set k (q.copyTo others[k])).take (k + 1) =
        others.take k ++ [q.copyTo others[k]] := by
      rw [List.take_add_one, List.take_set_of_le (Nat.le_refl k)]
      simp [hlt]
    have hdrop : (others.set k (q.copyTo others[k])).drop (k + 1) = others.drop (k + 1) :=
      List.drop_set_of_lt (Nat.lt_succ_self k)
    rw [htake, hdrop, List.drop_eq_getElem_cons hlt, List.map_cons, List.append_assoc,
      List.singleton_append]

/-- Copying to every queue of the vector reaches each of them once and clears the source. -/
theorem copy_range (q : Q T) (others : List (Q T)) :
    q.copy others (List.range others.length) = some (⟨[]⟩, others.map q.copyTo) := by
  rw [copy, List.range_eq_range', copyAll_range' q others.length 0 others (Nat.zero_add _)]
  simp only [List.take_zero, List.nil_append, List.drop_zero, Option.map_some]

end Q

/-- What the queue at an index holds; nothing past the end of the vector. -/
def contents {T : Type*} (queues : List (Q T)) (i : Nat) : List T := (queues[i]?.getD Q.new).queue

section Contents

variable {T : Type*} {queues : List (Q T)}

theorem contents_eq {i : Nat} {q : Q T} (h : queues[i]? = some q) :
    contents queues i = q.queue := by
  simp only [contents, h, Option.getD_some]

theorem contents_of_le {i : Nat} (h : queues.length ≤ i) : contents queues i = [] := by
  simp only [contents, List.getElem?_eq_none h, Option.getD_none, Q.queue_new]

theorem contents_set {i : Nat} (h : i < queues.length) (q : Q T) (j : Nat) :
    contents (queues.set i q) j = if i = j then q.queue else contents queues j := by
  unfold contents
  rw [List.getElem?_set]
  split
  · rename_i he
    subst j
    rfl
  · rfl

/-- A new queue at the end is empty and moves no other. -/
theorem contents_append_new (j : Nat) : contents (queues ++ [Q.new]) j = contents queues j := by
  unfold contents
  rw [List.getElem?_append]
  split
  · rfl
  · rename_i h
    rw [List.getElem?_eq_none (Nat.le_of_not_lt h)]
    cases j - queues.length <;> rfl

end Contents

end DataPipeline
