import Mathlib.Data.List.Basic

/-!
# C strings

A pointer to the text of a string is what stands in memory from there on: the bytes of
the text, a NUL, and then bytes that belong to somebody else. Who takes a number of bytes
from such a pointer gets a part of the text, or all of it with bytes that follow it. Who
takes a C string from a buffer gets what stands before the first NUL, and runs out of the
buffer into whatever follows it if there is none.
-/

namespace DataPipeline

/-- The memory behind `c_str()`; `beyond k` is the byte in place `k` after the NUL. -/
def cStr (text : List UInt8) (beyond : Nat → UInt8) (i : Nat) : UInt8 :=
  if h : i < text.length then text[i]
  else if i = text.length then 0
  else beyond (i - (text.length + 1))

/-- The first `n` bytes from a pointer on. -/
def bytesAt (memory : Nat → UInt8) (n : Nat) : List UInt8 := (List.range n).map memory

@[simp] theorem length_bytesAt (memory : Nat → UInt8) (n : Nat) :
    (bytesAt memory n).length = n := by
  rw [bytesAt, List.length_map, List.length_range]

/-- Up to the length of the text the bytes are those of the text. -/
theorem bytesAt_cStr_of_le {text : List UInt8} (beyond : Nat → UInt8) {n : Nat}
    (h : n ≤ text.length) : bytesAt (cStr text beyond) n = text.take n := by
  apply List.ext_getElem
  · rw [length_bytesAt, List.length_take, Nat.min_eq_left h]
  · intro i hi _
    rw [length_bytesAt] at hi
    have hlt : i < text.length := Nat.lt_of_lt_of_le hi h
    simp only [bytesAt, List.getElem_map, List.getElem_range, List.getElem_take, cStr, hlt,
      dite_true]

theorem bytesAt_cStr_length (text : List UInt8) (beyond : Nat → UInt8) :
    bytesAt (cStr text beyond) text.length = text := by
  rw [bytesAt_cStr_of_le beyond (Nat.le_refl _), List.take_length]

/-- Past the text come the NUL and the bytes that follow it. -/
theorem bytesAt_cStr_add (text : List UInt8) (beyond : Nat → UInt8) (n : Nat) :
    bytesAt (cStr text beyond) (text.length + 1 + n) = text ++ 0 :: bytesAt beyond n := by
  have hnul : cStr text beyond text.length = 0 := by
    simp only [cStr, Nat.lt_irrefl, ite_true, dite_false]
  have hbeyond : (List.range n).map (cStr text beyond ∘ (text.length + 1 + ·)) =
      (List.range n).map beyond := by
    refine List.map_congr_left fun k _ => ?_
    have hlt : ¬ text.length + 1 + k < text.length := by omega
    have hne : text.length + 1 + k ≠ text.length := by omega
    simp only [Function.comp_apply, cStr, hlt, hne, dite_false, ite_false, Nat.add_sub_cancel_left]
  rw [bytesAt, List.range_add, List.map_append, List.map_map, hbeyond, List.range_succ,
    List.map_append, List.map_singleton, hnul, List.append_assoc]
  exact congrArg (· ++ _) (bytesAt_cStr_length text beyond)

/-- `std::string(buffer)`: the bytes before the first NUL. Without one it reads past the
buffer, `none`. -/
def cString (buffer : List UInt8) : Option (List UInt8) :=
  if 0 ∈ buffer then some (buffer.takeWhile (· ≠ 0)) else none

/-- What `std::string(buffer)` reads where `beyond` stands behind the buffer, up to a NUL. -/
def stringAt (buffer beyond : List UInt8) : List UInt8 := (buffer ++ beyond).takeWhile (· ≠ 0)

theorem takeWhile_append_nul {text : List UInt8} (h : 0 ∉ text) (rest : List UInt8) :
    (text ++ 0 :: rest).takeWhile (· ≠ 0) = text := by
  have htext : ∀ b ∈ text, decide (b ≠ 0) = true := fun b hb =>
    decide_eq_true fun he => h (he ▸ hb)
  rw [List.takeWhile_append_of_pos htext]
  exact List.append_nil text

/-- With a NUL in the buffer it does not matter what stands behind it. -/
theorem stringAt_of_mem {buffer : List UInt8} (h : 0 ∈ buffer) (beyond : List UInt8) :
    stringAt buffer beyond = buffer.takeWhile (· ≠ 0) := by
  obtain ⟨before, rest, rfl, hnul⟩ := List.eq_append_cons_of_mem h
  rw [stringAt, List.append_assoc, List.cons_append, takeWhile_append_nul hnul,
    takeWhile_append_nul hnul]

/-- Without one the whole buffer is read. -/
theorem prefix_stringAt_of_notMem {buffer : List UInt8} (h : 0 ∉ buffer) (beyond : List UInt8) :
    buffer <+: stringAt buffer beyond := by
  have hbuffer : ∀ b ∈ buffer, decide (b ≠ 0) = true := fun b hb =>
    decide_eq_true fun he => h (he ▸ hb)
  rw [stringAt, List.takeWhile_append_of_pos hbuffer]
  exact List.prefix_append _ _

theorem stringAt_of_cString {buffer text : List UInt8} (h : cString buffer = some text)
    (beyond : List UInt8) : stringAt buffer beyond = text := by
  rw [cString] at h
  split at h
  · rename_i hmem
    exact (stringAt_of_mem hmem beyond).trans (Option.some.inj h)
  · contradiction

/-- A buffer that starts with a text and a NUL yields the text. -/
theorem cString_append {text : List UInt8} (h : 0 ∉ text) (rest : List UInt8) :
    cString (text ++ 0 :: rest) = some text := by
  rw [cString, if_pos (List.mem_append_right _ (List.mem_cons_self ..)), takeWhile_append_nul h]

/-- The text of a buffer has no NUL and is followed by one inside the buffer. -/
theorem cString_eq_some_iff {buffer text : List UInt8} :
    cString buffer = some text ↔ 0 ∉ text ∧ ∃ rest, buffer = text ++ 0 :: rest := by
  constructor
  · intro h
    by_cases hmem : 0 ∈ buffer
    · obtain ⟨before, rest, rfl, hnul⟩ := List.eq_append_cons_of_mem hmem
      rw [cString_append hnul] at h
      exact Option.some.inj h ▸ ⟨hnul, rest, rfl⟩
    · rw [cString, if_neg hmem] at h
      contradiction
  · rintro ⟨hnul, rest, rfl⟩
    exact cString_append hnul rest

end DataPipeline
