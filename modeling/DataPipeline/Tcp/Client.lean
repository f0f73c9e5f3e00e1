import DataPipeline.Core.CString
import DataPipeline.Tcp.HangUp
import Mathlib.Algebra.Order.BigOperators.Group.List
import Mathlib.Algebra.Order.Group.Nat

/-!
# From a client to the server

`TcpClient::send` gives `sizeof(msg)` bytes to the system, the size of the string object
and not of its text. A longer text is cut, and after a shorter one the bytes that follow
its NUL in memory are sent too. The server strips the NUL bytes of each read, wherever the
stream is cut into reads. So what arrives is what was sent, whatever stands in memory,
exactly if every text fills the object up to its NUL or completely.
-/

namespace DataPipeline.Tcp

open Machine

/-- `TcpClient::send`: the bytes handed to `::send`, with the memory after the text's NUL. -/
def send (sizeofString : Nat) (msg : List UInt8) (beyond : Nat → UInt8) : List UInt8 :=
  bytesAt (cStr msg beyond) sizeofString

/-- The byte stream of a connection: one message after the other, each with the memory after
its NUL. -/
def stream (sizeofString : Nat) (msgs : List (List UInt8 × (Nat → UInt8))) : List UInt8 :=
  msgs.flatMap fun msg => send sizeofString msg.1 msg.2

/-- A byte stream, cut into reads. -/
structure Segmentation (bytes : List UInt8) where
  reads : List (List UInt8)
  flatten_reads : reads.flatten = bytes
  size : ∀ msgBuf ∈ reads, 1 ≤ msgBuf.length ∧ msgBuf.length ≤ MSG_MAX_SIZE

/-- What `readRxData` pushes, one string for each read. -/
def Segmentation.pushed {bytes : List UInt8} (seg : Segmentation bytes) : List (List UInt8) :=
  seg.reads.map strip

/-- The stream that is read byte by byte. -/
def Segmentation.bytewise (bytes : List UInt8) : Segmentation bytes where
  reads := bytes.map fun b => [b]
  flatten_reads := by
    induction bytes with
    | nil => rfl
    | cons b bytes ih => exact congrArg (b :: ·) ih
  size := by
    intro msgBuf h
    obtain ⟨b, _, rfl⟩ := List.mem_map.mp h
    exact ⟨Nat.le_refl 1, Nat.le_add_left 1 511⟩

/-! ### Stripping a stream -/

theorem strip_eq_self {msg : List UInt8} (h : 0 ∉ msg) : strip msg = msg := by
  refine List.filter_eq_self.mpr fun b hb => decide_eq_true ?_
  rintro rfl
  exact h hb

theorem strip_flatten (reads : List (List UInt8)) :
    strip reads.flatten = (reads.map strip).flatten := by
  induction reads with
  | nil => rfl
  | cons msgBuf reads ih =>
    rw [List.flatten_cons, strip_append, ih, List.map_cons, List.flatten_cons]

/-- How a stream is cut into reads does not matter. -/
theorem Segmentation.flatten_pushed {bytes : List UInt8} (seg : Segmentation bytes) :
    seg.pushed.flatten = strip bytes := by
  rw [pushed, ← strip_flatten, seg.flatten_reads]

theorem strip_stream (sizeofString : Nat) (msgs : List (List UInt8 × (Nat → UInt8))) :
    strip (stream sizeofString msgs) =
      (msgs.map fun msg => strip (send sizeofString msg.1 msg.2)).flatten := by
  rw [stream, List.flatMap_def, strip_flatten, List.map_map]
  rfl

/-! ### What is left of one message -/

variable {sizeofString : Nat} {msg : List UInt8}

/-- A text that is not shorter than the object is cut. -/
theorem strip_send_of_le (hnul : 0 ∉ msg) (h : sizeofString ≤ msg.length)
    (beyond : Nat → UInt8) : strip (send sizeofString msg beyond) = msg.take sizeofString := by
  rw [send, bytesAt_cStr_of_le _ h]
  exact strip_eq_self fun h0 => hnul (List.mem_of_mem_take h0)

/-- A shorter text is followed by what stands in memory. -/
theorem strip_send_add (hnul : 0 ∉ msg) (beyond : Nat → UInt8) (n : Nat) :
    strip (send (msg.length + 1 + n) msg beyond) = msg ++ strip (bytesAt beyond n) := by
  have hzero : strip (0 :: bytesAt beyond n) = strip (bytesAt beyond n) := rfl
  rw [send, bytesAt_cStr_add, strip_append, strip_eq_self hnul, hzero]

/-- Where nothing after the NUL is sent, the text is at most cut. -/
theorem strip_send_eq_take (hnul : 0 ∉ msg) (h : sizeofString ≤ msg.length + 1)
    (beyond : Nat → UInt8) : strip (send sizeofString msg beyond) = msg.take sizeofString := by
  rcases Nat.le_or_eq_of_le_succ h with hle | rfl
  · exact strip_send_of_le hnul hle beyond
  · rw [List.take_of_length_le (Nat.le_succ _)]
    exact (strip_send_add hnul beyond 0).trans (List.append_nil msg)

theorem strip_bytesAt_const {b : UInt8} (hb : b ≠ 0) (n : Nat) :
    strip (bytesAt (fun _ => b) n) = List.replicate n b := by
  have hbytes : bytesAt (fun _ => b) n = List.replicate n b := by
    rw [bytesAt, List.map_const', List.length_range]
  rw [hbytes]
  exact strip_eq_self fun h => hb (List.eq_of_mem_replicate h).symm

/-- With the same byte everywhere in memory, the length of what is left does not depend on
that byte. -/
theorem length_strip_send_const (hnul : 0 ∉ msg) {b : UInt8} (hb : b ≠ 0) :
    (strip (send sizeofString msg fun _ => b)).length =
      min sizeofString msg.length + (sizeofString - (msg.length + 1)) := by
  rcases Nat.lt_or_ge msg.length sizeofString with hlt | hge
  · obtain ⟨n, rfl⟩ := Nat.exists_eq_add_of_le (Nat.succ_le_of_lt hlt)
    rw [Nat.succ_eq_add_one, strip_send_add hnul, List.length_append, strip_bytesAt_const hb,
      List.length_replicate]
    omega
  · rw [strip_send_of_le hnul hge, List.length_take]
    omega

/-- Two bytes in memory can be told apart wherever one of them is sent. -/
theorem le_of_strip_send_eq (hnul : 0 ∉ msg) {b c : UInt8} (hb : b ≠ 0) (hc : c ≠ 0)
    (hbc : b ≠ c)
    (h : strip (send sizeofString msg fun _ => b) = strip (send sizeofString msg fun _ => c)) :
    sizeofString ≤ msg.length + 1 := by
  by_contra hlt
  obtain ⟨n, rfl⟩ := Nat.exists_eq_add_of_lt (Nat.lt_of_not_le hlt)
  rw [Nat.add_assoc _ n, strip_send_add hnul, strip_send_add hnul, strip_bytesAt_const hb,
    strip_bytesAt_const hc] at h
  exact hbc (List.cons.inj (List.append_cancel_left h)).1

/-! ### What is left of a stream -/

/-- If the pieces that are left make up the whole of the messages, none of them was cut. -/
theorem length_le_of_take_flatten {msgs : List (List UInt8)}
    (h : (msgs.map fun msg => msg.take sizeofString).flatten = msgs.flatten) :
    ∀ msg ∈ msgs, msg.length ≤ sizeofString := by
  intro msg hmsg
  by_contra hcut
  have hlt : (msg.take sizeofString).length < msg.length := by
    rw [List.length_take]
    omega
  have hsum : (msgs.map fun msg => (msg.take sizeofString).length).sum <
      (msgs.map List.length).sum :=
    List.sum_lt_sum _ _ (fun msg _ => List.length_take_le' sizeofString msg) ⟨msg, hmsg, hlt⟩
  have hlength := congrArg List.length h
  rw [List.length_flatten, List.length_flatten, List.map_map] at hlength
  exact hsum.ne hlength

/-- Where messages arrive whatever stands in memory, no byte after a NUL is sent. -/
theorem le_of_forall_flatten {msgs : List (List UInt8)} (hnul : ∀ msg ∈ msgs, 0 ∉ msg)
    (h : ∀ b : UInt8,
      (msgs.map fun msg => strip (send sizeofString msg fun _ => b)).flatten = msgs.flatten) :
    ∀ msg ∈ msgs, sizeofString ≤ msg.length + 1 := by
  have hone : (1 : UInt8) ≠ 0 := by decide
  have htwo : (2 : UInt8) ≠ 0 := by decide
  have hlengths : (msgs.map fun msg => strip (send sizeofString msg fun _ => 1)).map List.length =
      (msgs.map fun msg => strip (send sizeofString msg fun _ => 2)).map List.length := by
    rw [List.map_map, List.map_map]
    refine List.map_congr_left fun msg hmsg => ?_
    simp only [Function.comp_apply, length_strip_send_const (hnul msg hmsg), hone, htwo,
      ne_eq, not_false_eq_true]
  have heq := List.eq_iff_flatten_eq.mpr ⟨(h 1).trans (h 2).symm, hlengths⟩
  intro msg hmsg
  exact le_of_strip_send_eq (hnul msg hmsg) hone htwo (by decide)
    (List.map_inj_left.mp heq msg hmsg)

/-- What is left of a stream whose messages fill the string object is the messages. -/
theorem strip_stream_of_fills {sends : List (List UInt8 × (Nat → UInt8))}
    (hnul : ∀ msg ∈ sends.map Prod.fst, 0 ∉ msg)
    (hfills : ∀ msg ∈ sends.map Prod.fst,
      msg.length + 1 = sizeofString ∨ msg.length = sizeofString) :
    strip (stream sizeofString sends) = (sends.map Prod.fst).flatten := by
  rw [strip_stream]
  refine congrArg List.flatten (List.map_congr_left fun msg hmsg => ?_)
  have hmem : msg.1 ∈ sends.map Prod.fst := List.mem_map_of_mem hmsg
  have hlength := hfills _ hmem
  rw [strip_send_eq_take (hnul _ hmem) (by omega), List.take_of_length_le (by omega)]

/-! ### The round trip -/

/-- Messages without NUL arrive at the server as they were sent, whatever stands in memory
after them and wherever the stream is cut, exactly if each fills the string object up to its
NUL or completely. -/
theorem round_trip_iff (sizeofString : Nat) {msgs : List (List UInt8)}
    (hnul : ∀ msg ∈ msgs, 0 ∉ msg) :
    (∀ sends : List (List UInt8 × (Nat → UInt8)), sends.map Prod.fst = msgs →
      ∀ seg : Segmentation (stream sizeofString sends), seg.pushed.flatten = msgs.flatten) ↔
        ∀ msg ∈ msgs, msg.length + 1 = sizeofString ∨ msg.length = sizeofString := by
  constructor
  · intro h
    have hfilled : ∀ b : UInt8,
        (msgs.map fun msg => strip (send sizeofString msg fun _ => b)).flatten = msgs.flatten := by
      intro b
      have harrived := h (msgs.map fun msg => (msg, fun _ => b))
        (by rw [List.map_map]; exact List.map_id msgs) (.bytewise _)
      rw [Segmentation.flatten_pushed, strip_stream, List.map_map] at harrived
      exact harrived
    have hle := le_of_forall_flatten hnul hfilled
    have htake : (msgs.map fun msg => msg.take sizeofString).flatten = msgs.flatten := by
      rw [← hfilled 0]
      exact congrArg List.flatten (List.map_congr_left fun msg hmsg =>
        (strip_send_eq_take (hnul msg hmsg) (hle msg hmsg) _).symm)
    intro msg hmsg
    have hcut := length_le_of_take_flatten htake msg hmsg
    have hbeyond := hle msg hmsg
    omega
  · intro h sends hsends seg
    subst hsends
    rw [seg.flatten_pushed, strip_stream_of_fills hnul h]

/-- A message of 31 bytes and one of 32, with other bytes after them in memory. -/
def fillingSends : List (List UInt8 × (Nat → UInt8)) :=
  [(List.replicate 31 97, fun _ => 1), (List.replicate 32 98, fun _ => 2)]

/-- Both messages arrive. -/
theorem round_trip_filling :
    (Segmentation.bytewise (stream 32 fillingSends)).pushed.flatten =
      (fillingSends.map Prod.fst).flatten :=
  (round_trip_iff 32 (by decide)).mpr (by decide) fillingSends rfl (.bytewise _)

/-- A message of 33 bytes is cut. -/
theorem round_trip_fails : ¬ ∀ msgs : List (List UInt8), (∀ msg ∈ msgs, 0 ∉ msg) →
    ∀ sends : List (List UInt8 × (Nat → UInt8)), sends.map Prod.fst = msgs →
      ∀ seg : Segmentation (stream 32 sends), seg.pushed.flatten = msgs.flatten := by
  intro h
  have hcut := h [List.replicate 33 97] (by decide) [(List.replicate 33 97, fun _ => 0)] rfl
    (.bytewise _)
  exact absurd hcut (by decide)

/-- The messages of a client that fill the string object are what a single worker of the server
has pushed once it has read the whole connection. -/
theorem run_messages_of_fills {acts : List (Act Unit)} {s : Tcp Unit}
    (hrun : run step start acts = some s) {fd : Nat} {sends : List (List UInt8 × (Nat → UInt8))}
    (hsent : s.sent fd = stream sizeofString sends) (hunread : s.unread fd = [])
    (hhand : s.hand fd = []) (hnul : ∀ msg ∈ sends.map Prod.fst, 0 ∉ msg)
    (hfills : ∀ msg ∈ sends.map Prod.fst,
      msg.length + 1 = sizeofString ∨ msg.length = sizeofString) :
    (s.messages fd).flatten = (sends.map Prod.fst).flatten := by
  have hstream := run_stream hrun fd
  rw [hhand, hunread, hsent, strip_stream_of_fills hnul hfills, List.append_nil] at hstream
  exact (List.append_nil _).symm.trans hstream

end DataPipeline.Tcp
