import DataPipeline.Manager.State
import DataPipeline.Tcp.Order

/-!
# What `readRxData` pushes

The loop of `TcpServer::readRxData` runs over the bytes that `read` has written, the push
after it only asks whether `read` returned something other than `0`. So a failed `read`, and
one that delivered nothing but NUL bytes, push an empty string; every other message is
the text that was read. `UdpServer::run`, which does the same for datagrams, pushes nothing
when `recvfrom` fails.
-/

namespace DataPipeline.Tcp

open Machine

/-- What `read` may do on a readable connection. -/
inductive ReadOutcome where
  /-- It returns `-1`. -/
  | failed
  /-- It returns `0`. -/
  | eof
  /-- It writes bytes to the buffer and returns their number. -/
  | bytes (written : List UInt8) (hpos : 0 < written.length) (hmax : written.length ≤ MSG_MAX_SIZE)

namespace ReadOutcome

/-- The bytes that were received. -/
def received : ReadOutcome → List UInt8
  | .failed => []
  | .eof => []
  | .bytes written _ _ => written

/-- What `read` returns, an `ssize_t`. -/
def msgSize : ReadOutcome → Int
  | .failed => -1
  | .eof => 0
  | .bytes written _ _ => written.length

/-- The buffer from `new char[MSG_MAX_SIZE]`: `none` is a byte that was not written. -/
def msgBuf (outcome : ReadOutcome) : List (Option UInt8) :=
  outcome.received.map some ++ List.replicate (MSG_MAX_SIZE - outcome.received.length) none

/-- The read did not fail, and if it delivered bytes one of them is not NUL. -/
def Clean : ReadOutcome → Prop
  | .failed => False
  | .eof => True
  | .bytes written _ _ => ∃ b ∈ written, b ≠ 0

end ReadOutcome

/-- The loop of `readRxData` from round `i` on, with `n` rounds to go. A byte that was not
written is undefined behaviour, `none`. -/
def readRxLoop (msgBuf : List (Option UInt8)) : Nat → Nat → List UInt8 → Option (List UInt8)
  | 0, _, strippedMsg => some strippedMsg
  | n + 1, i, strippedMsg => do
    let c ← msgBuf[i]?.join
    readRxLoop msgBuf n (i + 1) (if c ≠ 0 then strippedMsg ++ [c] else strippedMsg)

/-- `TcpServer::readRxData`: its calls of the data handler. There are as many rounds as
nonnegative numbers below `msgSize`. -/
def readRxData (m_name : String) (outcome : ReadOutcome) :
    Option (List (DataManager.Op (List UInt8))) := do
  let strippedMsg ← readRxLoop outcome.msgBuf outcome.msgSize.toNat 0 []
  if outcome.msgSize ≠ 0 then some [.push strippedMsg m_name] else some []

/-- One message with the text that was received, and none if there is no text. -/
structure PushesText (m_name : String) (outcome : ReadOutcome)
    (calls : List (DataManager.Op (List UInt8))) : Prop where
  once : calls.length ≤ 1
  nothing : outcome = .failed ∨ outcome = .eof ∨ (∀ b ∈ outcome.received, b = 0) → calls = []
  text : (∃ b ∈ outcome.received, b ≠ 0) → calls = [.push (strip outcome.received) m_name]
  clean : ∀ data pushId, .push data pushId ∈ calls → data ≠ [] ∧ 0 ∉ data

/-! ### One call -/

/-- The rounds over bytes that were written add what is not NUL among them. -/
theorem readRxLoop_eq (before written : List UInt8) (rest : List (Option UInt8))
    (strippedMsg : List UInt8) :
    readRxLoop ((before ++ written).map some ++ rest) written.length before.length strippedMsg =
      some (strippedMsg ++ strip written) := by
  induction written generalizing before strippedMsg with
  | nil => simp [readRxLoop, strip]
  | cons b written ih =>
    have hget : ((before ++ b :: written).map some ++ rest)[before.length]?.join = some b := by
      simp
    have hnext := ih (before ++ [b])
    simp only [List.append_assoc, List.singleton_append, List.length_append,
      List.length_singleton] at hnext
    simp only [List.length_cons, readRxLoop, hget, Option.bind_eq_bind, Option.bind_some, hnext]
    by_cases hb : b = 0
    · simp [hb, strip]
    · simp [hb, strip]

theorem readRxData_eq (m_name : String) (outcome : ReadOutcome) :
    readRxData m_name outcome = some (if outcome.msgSize ≠ 0 then
      [.push (strip outcome.received) m_name] else []) := by
  have hrounds : outcome.msgSize.toNat = outcome.received.length := by
    cases outcome <;> rfl
  have hloop := readRxLoop_eq [] outcome.received
    (List.replicate (MSG_MAX_SIZE - outcome.received.length) none) []
  rw [readRxData, hrounds, ReadOutcome.msgBuf]
  simp only [List.nil_append, List.length_nil] at hloop
  rw [hloop]
  simp only [Option.bind_eq_bind, Option.bind_some]
  split <;> rfl

theorem readRxData_bytes (m_name : String) (written : List UInt8) (hpos : 0 < written.length)
    (hmax : written.length ≤ MSG_MAX_SIZE) :
    readRxData m_name (.bytes written hpos hmax) = some [.push (strip written) m_name] := by
  have hsize : (ReadOutcome.bytes written hpos hmax).msgSize ≠ 0 := by
    rw [ReadOutcome.msgSize]
    omega
  rw [readRxData_eq, if_pos hsize]
  rfl

theorem zero_notMem_strip (bs : List UInt8) : 0 ∉ strip bs := by
  simp [strip]

theorem strip_ne_nil_iff {bs : List UInt8} : strip bs ≠ [] ↔ ∃ b ∈ bs, b ≠ 0 := by
  rw [Ne, strip_eq_nil_iff]
  push Not
  rfl

/-- `readRxData` pushes exactly the received text if and only if the read did not fail and
did not deliver just NUL bytes. -/
theorem readRxData_pushes_text_iff (m_name : String) (outcome : ReadOutcome) :
    (∃ calls, readRxData m_name outcome = some calls ∧ PushesText m_name outcome calls) ↔
      outcome.Clean := by
  cases outcome with
  | failed =>
    refine iff_of_false ?_ not_false
    rintro ⟨calls, hcalls, h⟩
    rw [h.nothing (.inl rfl), readRxData_eq] at hcalls
    cases hcalls
  | eof =>
    refine iff_of_true ⟨[], rfl, Nat.zero_le 1, fun _ => rfl, ?_, fun _ _ h => ?_⟩ trivial
    · rintro ⟨b, hb, _⟩
      cases hb
    · cases h
  | bytes written hpos hmax =>
    rw [readRxData_bytes]
    constructor
    · rintro ⟨calls, hcalls, h⟩
      by_contra hno
      have hzero : ∀ b ∈ written, b = 0 := fun b hb => by_contra fun hne => hno ⟨b, hb, hne⟩
      rw [h.nothing (.inr (.inr hzero))] at hcalls
      cases hcalls
    · intro htext
      have hne := strip_ne_nil_iff.mpr htext
      refine ⟨_, rfl, Nat.le_refl 1, ?_, fun _ => rfl, fun data pushId h => ?_⟩
      · rintro (h | h | h)
        · cases h
        · cases h
        · exact absurd (strip_eq_nil_iff.mpr h) hne
      · cases List.mem_singleton.mp h
        exact ⟨hne, zero_notMem_strip written⟩

/-- A failed read and a single NUL byte push an empty string. -/
theorem failed_read_pushes_empty_string :
    readRxData "srv" .failed = some [.push [] "srv"] ∧
      readRxData "srv" (.bytes [0] (by decide) (by decide)) = some [.push [] "srv"] ∧
      ¬ ∃ calls, readRxData "srv" .failed = some calls ∧ PushesText "srv" .failed calls := by
  refine ⟨rfl, rfl, ?_⟩
  rintro ⟨calls, hcalls, h⟩
  rw [h.nothing (.inl rfl)] at hcalls
  cases hcalls

/-! ### Whole runs of the server -/

theorem length_take_bounds {bs : List UInt8} {n : Nat}
    (h : 0 < n ∧ n ≤ MSG_MAX_SIZE ∧ n ≤ bs.length) :
    0 < (bs.take n).length ∧ (bs.take n).length ≤ MSG_MAX_SIZE := by
  rw [List.length_take, Nat.min_eq_left h.2.2]
  exact ⟨h.1, h.2.1⟩

/-- What a `read` of a connection may do, if it can return this. -/
def outcomeOf (conn : Conn) : ReadResult → Option ReadOutcome
  | .bytes n =>
    if h : 0 < n ∧ n ≤ MSG_MAX_SIZE ∧ n ≤ conn.unread.length then
      some (.bytes (conn.unread.take n) (length_take_bounds h).1 (length_take_bounds h).2)
    else none
  | .eof => if conn.unread = [] ∧ conn.closed then some .eof else none
  | .failed => some .failed

/-- The chunk that a worker of the server takes to `push` is the call of `readRxData`. -/
theorem readRxData_outcomeOf (m_name : String) (conn : Conn) (result : ReadResult) :
    (outcomeOf conn result).bind (readRxData m_name) =
      (readChunk conn result).map fun chunk =>
        chunk.toList.map fun bytes => .push (strip bytes) m_name := by
  cases result with
  | bytes n =>
    simp only [outcomeOf, readChunk]
    split
    · rw [Option.bind_some, readRxData_bytes]
      rfl
    · rfl
  | eof =>
    simp only [outcomeOf, readChunk]
    split <;> rfl
  | failed => rfl

variable {θ : Type} [DecidableEq θ]

/-- What was pushed, and what workers are about to push, are texts without NUL. -/
def PushesClean (s : Tcp θ) : Prop :=
  ∀ e, (e ∈ s.pushed ∨ ∃ t, s.Holds t e) → e.text ≠ [] ∧ 0 ∉ e.text

/-- No `read` fails or delivers just NUL bytes. -/
def ReadsClean (s : Tcp θ) : Act θ → Prop
  | .read t result => ∀ pollfds i fd conn, s.workers t = .read pollfds i fd →
      s.conns fd = some conn → ∀ outcome ∈ outcomeOf conn result, outcome.Clean
  | _ => True

/-- The outcome is clean exactly when the chunk has a text. -/
theorem clean_outcome_iff {conn : Conn} {result : ReadResult} {chunk : List UInt8}
    (h : readChunk conn result = some (some chunk)) :
    (∀ outcome ∈ outcomeOf conn result, outcome.Clean) ↔ strip chunk ≠ [] := by
  rw [strip_ne_nil_iff]
  cases result with
  | bytes n =>
    simp only [readChunk] at h
    split at h
    · rename_i hn
      cases h
      simp [outcomeOf, hn, ReadOutcome.Clean]
    · cases h
  | eof =>
    simp only [readChunk] at h
    split at h <;> cases h
  | failed =>
    cases h
    simp [outcomeOf, ReadOutcome.Clean]

omit [DecidableEq θ] in
theorem PushesClean.frame {s s' : Tcp θ} (h : PushesClean s) (hp : s'.pushed = s.pushed)
    (hh : ∀ t e, s'.Holds t e ↔ s.Holds t e) : PushesClean s' := by
  intro e he
  rw [hp] at he
  exact h e (he.imp_right fun ⟨t, ht⟩ => ⟨t, (hh t e).mp ht⟩)

/-- A chunk in the hands of a worker is clean if it has a text. -/
theorem PushesClean.read_iff {s : Tcp θ} (h : PushesClean s) {t : θ} {pollfds : List PollFd}
    {i fd : Nat} {conn : Conn} {e : Entry} {bytes : List UInt8} (htext : e.text = strip bytes) :
    PushesClean ((s.setConn fd conn).goto t (.push pollfds i e)) ↔ strip bytes ≠ [] := by
  constructor
  · intro h'
    exact htext ▸ (h' e (.inr ⟨t, holds_goto.mpr (.inl ⟨rfl, pollfds, i, rfl⟩)⟩)).1
  · rintro hne e' (he' | ⟨u, hu⟩)
    · exact h e' (.inl he')
    · rcases holds_goto.mp hu with ⟨_, _, _, he⟩ | ⟨_, hu⟩
      · cases he
        exact htext ▸ ⟨hne, zero_notMem_strip bytes⟩
      · exact h e' (.inr ⟨u, hu⟩)

/-- What is pushed was in the worker's hands before. -/
theorem PushesClean.push {s : Tcp θ} (h : PushesClean s) {t : θ} {pollfds : List PollFd} {i : Nat}
    {e : Entry} (ht : s.workers t = .push pollfds i e) {place : Place}
    (hplace : ∀ pollfds i e, place ≠ .push pollfds i e) :
    PushesClean ({ s with pushed := s.pushed ++ [e] }.goto t place) := by
  rintro e' (he' | ⟨u, hu⟩)
  · rcases List.mem_append.mp he' with he' | he'
    · exact h e' (.inl he')
    · rw [List.mem_singleton.mp he']
      exact h e (.inr ⟨t, pollfds, i, ht⟩)
  · rcases holds_goto.mp hu with ⟨_, p, j, he⟩ | ⟨_, hu⟩
    · exact absurd he (hplace p j e')
    · exact h e' (.inr ⟨u, hu⟩)

omit [DecidableEq θ] in
theorem readsClean_read_iff {s : Tcp θ} {t : θ} {pollfds : List PollFd} {i fd : Nat} {conn : Conn}
    {result : ReadResult} (ht : s.workers t = .read pollfds i fd) (hc : s.conns fd = some conn) :
    s.ReadsClean (.read t result) ↔ ∀ outcome ∈ outcomeOf conn result, outcome.Clean := by
  refine ⟨fun h => h pollfds i fd conn ht hc, fun h _ _ _ _ ht' hc' => ?_⟩
  cases ht.symm.trans ht'
  cases hc.symm.trans hc'
  exact h

theorem Step.pushesClean_iff {s s' : Tcp θ} {a : Act θ} (h : Step s a s') (hs : PushesClean s) :
    PushesClean s' ↔ ReadsClean s a := by
  cases h with
  | peerSend | peerClose => exact iff_of_true (hs.frame rfl fun _ _ => Iff.rfl) trivial
  | acceptNone ht | fill ht | pollFailed ht | pollTimeout ht | pollReady ht | serve ht | skip ht
    | leave ht =>
    exact iff_of_true (hs.frame rfl (holds_goto_idle (by rw [ht]; nofun) nofun)) trivial
  | accept ht | remove ht =>
    exact iff_of_true (hs.frame rfl (holds_goto_idle (s := s) (by rw [ht]; nofun) nofun)) trivial
  | push ht => exact iff_of_true (hs.push ht nofun) trivial
  | readEnd ht hc hend =>
    refine iff_of_true (hs.frame rfl (holds_goto_idle (by rw [ht]; nofun) nofun)) ?_
    rw [readsClean_read_iff ht hc]
    simp [outcomeOf, hend, ReadOutcome.Clean]
  | read ht hc hr =>
    rw [readsClean_read_iff ht hc, clean_outcome_iff hr]
    exact hs.read_iff rfl

/-- In a run of the server every message is a text without NUL exactly when every `read` of the
run is clean. -/
theorem messages_clean_iff (acts : List (Act θ)) {s : Tcp θ} (h : run step start acts = some s) :
    Always step PushesClean start acts ↔ Meets step ReadsClean start acts := by
  refine always_iff_meets (I := fun _ => True) ?_ trivial ?_ h
  · exact fun u a v _ hu huv => ⟨trivial, (step_cases huv).pushesClean_iff hu⟩
  · rintro e (he | ⟨_, _, _, he⟩) <;> cases he

end DataPipeline.Tcp
