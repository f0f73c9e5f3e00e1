import DataPipeline.Udp.RoundTrip
import Mathlib.Data.List.TakeWhile

/-!
# What a UDP server makes of a datagram

The string a server pushes stands before the first NUL of its buffer. Once a text has come
out of a buffer it has no NUL and fits, so no further server changes it, however many come
after each other. Without a NUL in the buffer the server reads on behind it, and every
further server may find something else behind its own.
-/

namespace DataPipeline.Udp

/-- The part of the buffer before its first NUL. -/
def asString (datagram : List UInt8) : List UInt8 := (received datagram).takeWhile (· ≠ 0)

theorem cString_received {datagram msg : List UInt8}
    (h : cString (received datagram) = some msg) : msg = asString datagram := by
  rw [cString] at h
  split at h
  · exact (Option.some.inj h).symm
  · contradiction

/-- The zeros behind the datagram play no part. -/
theorem asString_eq (datagram : List UInt8) :
    asString datagram = (datagram.take bufferSize).takeWhile (· ≠ 0) := by
  rw [asString, received, List.takeWhile_append]
  split
  · rename_i hlen
    have hzeros : (List.replicate (bufferSize - datagram.length) (0 : UInt8)).takeWhile (· ≠ 0) =
        [] := by
      cases bufferSize - datagram.length <;> rfl
    rw [hzeros, List.append_nil]
    exact ((List.takeWhile_prefix _).eq_of_length hlen).symm
  · rfl

theorem zero_notMem_asString (datagram : List UInt8) : 0 ∉ asString datagram := by
  intro h
  have hne := List.mem_takeWhile_imp h
  simp at hne

/-- The string is the datagram exactly if there is no NUL in it and it fits. -/
theorem asString_eq_self_iff {datagram : List UInt8} :
    asString datagram = datagram ↔ 0 ∉ datagram ∧ datagram.length ≤ bufferSize := by
  constructor
  · intro h
    refine ⟨h ▸ zero_notMem_asString datagram, ?_⟩
    rw [asString_eq] at h
    have hle := (List.takeWhile_prefix (· ≠ 0) (l := datagram.take bufferSize)).length_le
    rw [h, List.length_take] at hle
    omega
  · rintro ⟨hnul, hlen⟩
    rw [asString_eq, List.take_of_length_le hlen, List.takeWhile_eq_self_iff]
    exact fun b hb => decide_eq_true fun he => hnul (he ▸ hb)

/-! ### With what stands behind the buffer -/

/-- A string that a server may make of a datagram: what stands before the first NUL of the
buffer, or the whole buffer and whatever follows it. -/
structure StringOf (datagram text : List UInt8) : Prop where
  inside : 0 ∈ received datagram → text = asString datagram
  beyond : 0 ∉ received datagram → received datagram <+: text

theorem stringOf_stringAt (datagram beyond : List UInt8) :
    StringOf datagram (stringAt (received datagram) beyond) where
  inside := fun h => stringAt_of_mem h beyond
  beyond := fun h => prefix_stringAt_of_notMem h beyond

/-- A datagram without NUL that leaves room for one is its own string. -/
theorem StringOf.eq_self {datagram text : List UInt8} (h : StringOf datagram text)
    (hnul : 0 ∉ datagram) (hlen : datagram.length < bufferSize) : text = datagram := by
  have hroom : 0 ∈ received datagram := by
    obtain ⟨_, rest, hrest⟩ := cString_eq_some_iff.mp (cString_received_iff.mpr ⟨hnul, hlen⟩)
    rw [hrest]
    exact List.mem_append_right _ List.mem_cons_self
  rw [h.inside hroom, asString_eq_self_iff.mpr ⟨hnul, hlen.le⟩]

/-- The buffer is filled with what fills a buffer. -/
theorem received_of_prefix {datagram text : List UInt8} (h : received datagram <+: text) :
    received text = received datagram := by
  have hlen := h.length_le
  rw [length_received] at hlen
  rw [received, Nat.sub_eq_zero_of_le hlen, List.replicate_zero, List.append_nil,
    List.prefix_iff_eq_take.mp h, length_received]

/-- What the next server makes of a string is a string of the datagram it came from. -/
theorem StringOf.trans {datagram text text' : List UInt8} (h : StringOf datagram text)
    (h' : StringOf text text') : StringOf datagram text' where
  inside := fun hnul => by
    obtain rfl := h.inside hnul
    have hlen : (asString datagram).length < bufferSize := by
      have hmem : (asString datagram).length < (received datagram).length := by
        obtain ⟨before, rest, hrest, hbefore⟩ := List.eq_append_cons_of_mem hnul
        have hc := cString_received (hrest ▸ cString_append hbefore rest)
        rw [← hc, hrest, List.length_append, List.length_cons]
        omega
      rwa [length_received] at hmem
    exact h'.eq_self (zero_notMem_asString datagram) hlen
  beyond := fun hnul => by
    have hsame := received_of_prefix (h.beyond hnul)
    exact hsame ▸ h'.beyond (hsame ▸ hnul)

end DataPipeline.Udp
