import DataPipeline.Core.Machine
import Mathlib.Logic.Function.Basic

/-!
# The TCP server node

`TcpServer::run` as executed by any number of workers of the pool at once: one `accept`,
then `checkRx`, which fills an array from the list of clients, polls it and goes through
the slots. Every system call and every access to the list is a step of its own; what the
calls return is in the label. The list is read without the lock in the source, and a
read of the list is taken to be atomic here. An access past the array, or to a slot that
was not written, is undefined behaviour, `none`; a `read` that would block is not enabled.
-/

namespace DataPipeline

open Function (update)

/-- `BACKLOG`. -/
def BACKLOG : Nat := 50

/-- `MSG_MAX_SIZE`. -/
def MSG_MAX_SIZE : Nat := 512

/-- `POLLIN`. -/
def POLLIN : UInt16 := 0x001

/-- `POLLPRI`. -/
def POLLPRI : UInt16 := 0x002

/-- `POLLERR`. -/
def POLLERR : UInt16 := 0x008

/-- `POLLHUP`. -/
def POLLHUP : UInt16 := 0x010

/-- `POLLRDHUP`. -/
def POLLRDHUP : UInt16 := 0x2000

/-- `pollfd` in an array from `new`: `none` is a field that was not written. -/
structure PollFd where
  fd : Option Nat
  events : Option UInt16
  revents : Option UInt16
  deriving DecidableEq, Repr

/-- `new pollfd[BACKLOG]`. -/
def newPollFds : List PollFd := List.replicate BACKLOG ⟨none, none, none⟩

/-- `TcpServer::hasPeerHungup`. -/
def hasPeerHungup (revents : UInt16) : Bool :=
  revents &&& (POLLHUP ||| POLLERR ||| POLLRDHUP) != 0

/-- `TcpServer::hasReceivedData`. -/
def hasReceivedData (revents : UInt16) : Bool := revents &&& POLLIN != 0

/-- `TcpServer::fdToPollFdArray`, from position `pos` on. -/
def fdToPollFdArray (pollfds : List PollFd) : Nat → List Nat → Option (List PollFd)
  | _, [] => some pollfds
  | pos, i :: rest => do
    let slot ← pollfds[pos]?
    fdToPollFdArray (pollfds.set pos
      { slot with fd := some i, events := some (POLLIN ||| POLLPRI ||| POLLERR ||| POLLRDHUP) })
      (pos + 1) rest

/-- What a successful `poll` writes into the first slots. -/
def writeRevents : List PollFd → List UInt16 → List PollFd
  | slot :: pollfds, r :: revents => { slot with revents := some r } :: writeRevents pollfds revents
  | pollfds, _ => pollfds

/-- `TcpServer::remConnectedClient`: `list::remove` takes out every occurrence. -/
def remConnectedClient (clients : List Nat) (fd : Nat) : List Nat := clients.filter (· ≠ fd)

/-- The loop of `readRxData` over the buffer. -/
def strip (msgBuf : List UInt8) : List UInt8 := msgBuf.filter (· ≠ 0)

/-- A connection, seen from the server. -/
structure Conn where
  /-- History: everything the peer has sent. -/
  sent : List UInt8
  unread : List UInt8
  closed : Bool
  /-- History: what each `read` has returned, a failed one nothing. -/
  chunks : List (List UInt8)
  deriving DecidableEq, Repr

/-- A message on its way to `push`, with the chunk it comes from. -/
structure Entry where
  fd : Nat
  index : Nat
  text : List UInt8
  deriving DecidableEq, Repr

/-- Where a worker stands in `TcpServer::run`. -/
inductive Place where
  /-- Not inside `run`. -/
  | outside
  /-- Inside `checkRx`, the array is allocated. -/
  | fill (pollfds : List PollFd)
  /-- Before the call of `poll`. -/
  | poll (pollfds : List PollFd)
  /-- At the head of the loop. -/
  | scan (pollfds : List PollFd) (i : Nat)
  /-- Inside `readRxData`, before `read`. -/
  | read (pollfds : List PollFd) (i fd : Nat)
  /-- Inside `readRxData`, before `push`. -/
  | push (pollfds : List PollFd) (i : Nat) (strippedMsg : Entry)
  deriving DecidableEq

/-- What `poll` returns. -/
inductive PollResult where
  /-- `-1`. -/
  | failed
  /-- The number of nonzero entries, which are written to the slots. -/
  | ready (revents : List UInt16)
  deriving DecidableEq, Repr

/-- What `read` returns. -/
inductive ReadResult where
  /-- A number of bytes. -/
  | bytes (n : Nat)
  /-- `0`. -/
  | eof
  /-- `-1`. -/
  | failed
  deriving DecidableEq, Repr

/-- The chunk a `read` of the connection returns, if it can return it: nothing stands for a
failed one, and the end of the stream yields no chunk. -/
def readChunk (conn : Conn) : ReadResult → Option (Option (List UInt8))
  | .bytes n =>
    if 0 < n ∧ n ≤ MSG_MAX_SIZE ∧ n ≤ conn.unread.length then some (some (conn.unread.take n))
    else none
  | .eof => if conn.unread = [] ∧ conn.closed then some none else none
  | .failed => some (some [])

/-- The connection after the peer has sent more. -/
def Conn.afterSend (conn : Conn) (bytes : List UInt8) : Conn :=
  { conn with sent := conn.sent ++ bytes, unread := conn.unread ++ bytes }

/-- A connection that was just established. -/
def Conn.new : Conn := ⟨[], [], false, []⟩

/-- The connection after `read` has returned a chunk. -/
def Conn.afterRead (conn : Conn) (chunk : List UInt8) : Conn :=
  { conn with unread := conn.unread.drop chunk.length, chunks := conn.chunks ++ [chunk] }

/-- A server node with its connections and the workers inside its `run`. -/
structure Tcp (θ : Type) where
  /-- `m_connectedClientsFds`. -/
  clients : List Nat
  conns : Nat → Option Conn
  workers : θ → Place
  /-- What was given to `DataManager::push`, in that order. -/
  pushed : List Entry

namespace Tcp

variable {θ : Type}

/-- A new server. -/
def start : Tcp θ := ⟨[], fun _ => none, fun _ => .outside, []⟩

/-- One step of a peer or of a worker. -/
inductive Act (θ : Type) where
  | peerSend (fd : Nat) (bytes : List UInt8)
  | peerClose (fd : Nat)
  /-- Worker `t` enters `run` and calls `accept`. -/
  | accept (t : θ) (fd : Option Nat)
  | fill (t : θ)
  | poll (t : θ) (result : PollResult)
  | scan (t : θ)
  | read (t : θ) (result : ReadResult)
  | push (t : θ)
  deriving DecidableEq

variable [DecidableEq θ]

/-- Worker `t` continues at a place. -/
def goto (s : Tcp θ) (t : θ) (place : Place) : Tcp θ :=
  { s with workers := update s.workers t place }

/-- The connection behind a descriptor becomes `conn`. -/
def setConn (s : Tcp θ) (fd : Nat) (conn : Conn) : Tcp θ :=
  { s with conns := update s.conns fd (some conn) }

/-- One round of the loop of `checkRx`. -/
def scanSlot (s : Tcp θ) (t : θ) (pollfds : List PollFd) (i : Nat) : Option (Tcp θ) :=
  if i < s.clients.length then do
    let slot ← pollfds[i]?
    let revents ← slot.revents
    if hasPeerHungup revents then
      let fd ← slot.fd
      some ({ s with clients := remConnectedClient s.clients fd }.goto t (.scan pollfds (i + 1)))
    else if hasReceivedData revents then
      let fd ← slot.fd
      some (s.goto t (.read pollfds i fd))
    else some (s.goto t (.scan pollfds (i + 1)))
  else some (s.goto t .outside)

/-- The server as a machine. -/
def step : Machine (Tcp θ) (Act θ)
  | s, .peerSend fd bytes => do
    let conn ← s.conns fd
    if conn.closed then none
    else some (s.setConn fd (conn.afterSend bytes))
  | s, .peerClose fd => do
    let conn ← s.conns fd
    some (s.setConn fd { conn with closed := true })
  | s, .accept t fd =>
    match s.workers t, fd with
    | .outside, none => some (s.goto t (.fill newPollFds))
    | .outside, some fd =>
      if s.conns fd = none then
        some ({ s.setConn fd .new with clients := s.clients ++ [fd] }.goto t (.fill newPollFds))
      else none
    | _, _ => none
  | s, .fill t =>
    match s.workers t with
    | .fill pollfds => (fdToPollFdArray pollfds 0 s.clients).map fun p => s.goto t (.poll p)
    | _ => none
  | s, .poll t result =>
    match s.workers t, result with
    | .poll pollfds, .failed => some (s.goto t (.scan pollfds 0))
    | .poll pollfds, .ready revents =>
      if revents.length = s.clients.length ∧ revents.length ≤ pollfds.length then
        if revents.all (· == 0) then some (s.goto t .outside)
        else some (s.goto t (.scan (writeRevents pollfds revents) 0))
      else none
    | _, _ => none
  | s, .scan t =>
    match s.workers t with
    | .scan pollfds i => s.scanSlot t pollfds i
    | _ => none
  | s, .read t result =>
    match s.workers t with
    | .read pollfds i fd => do
      let conn ← s.conns fd
      match ← readChunk conn result with
      | none => some (s.goto t (.scan pollfds (i + 1)))
      | some chunk =>
        some ((s.setConn fd (conn.afterRead chunk)).goto t
          (.push pollfds i ⟨fd, conn.chunks.length, strip chunk⟩))
    | _ => none
  | s, .push t =>
    match s.workers t with
    | .push pollfds i e =>
      some ({ s with pushed := s.pushed ++ [e] }.goto t (.scan pollfds (i + 1)))
    | _ => none

/-! ### What one step can do -/

/-- The steps of the machine, one constructor for each branch. -/
inductive Step (s : Tcp θ) : Act θ → Tcp θ → Prop where
  | peerSend {fd bytes conn} (hc : s.conns fd = some conn) (hopen : conn.closed = false) :
      Step s (.peerSend fd bytes) (s.setConn fd (conn.afterSend bytes))
  | peerClose {fd conn} (hc : s.conns fd = some conn) :
      Step s (.peerClose fd) (s.setConn fd { conn with closed := true })
  | acceptNone {t} (ht : s.workers t = .outside) :
      Step s (.accept t none) (s.goto t (.fill newPollFds))
  | accept {t fd} (ht : s.workers t = .outside) (hfd : s.conns fd = none) :
      Step s (.accept t (some fd))
        ({ s.setConn fd .new with clients := s.clients ++ [fd] }.goto t (.fill newPollFds))
  | fill {t pollfds p} (ht : s.workers t = .fill pollfds)
      (hp : fdToPollFdArray pollfds 0 s.clients = some p) : Step s (.fill t) (s.goto t (.poll p))
  | pollFailed {t pollfds} (ht : s.workers t = .poll pollfds) :
      Step s (.poll t .failed) (s.goto t (.scan pollfds 0))
  | pollTimeout {t pollfds revents} (ht : s.workers t = .poll pollfds)
      (hlen : revents.length = s.clients.length) (hz : revents.all (· == 0) = true) :
      Step s (.poll t (.ready revents)) (s.goto t .outside)
  | pollReady {t pollfds revents} (ht : s.workers t = .poll pollfds)
      (hlen : revents.length = s.clients.length) (hz : revents.all (· == 0) = false) :
      Step s (.poll t (.ready revents)) (s.goto t (.scan (writeRevents pollfds revents) 0))
  | remove {t pollfds i slot revents fd} (ht : s.workers t = .scan pollfds i)
      (hi : i < s.clients.length) (hslot : pollfds[i]? = some slot)
      (hr : slot.revents = some revents) (hup : hasPeerHungup revents = true)
      (hfd : slot.fd = some fd) :
      Step s (.scan t)
        ({ s with clients := remConnectedClient s.clients fd }.goto t (.scan pollfds (i + 1)))
  | serve {t pollfds i slot revents fd} (ht : s.workers t = .scan pollfds i)
      (hi : i < s.clients.length) (hslot : pollfds[i]? = some slot)
      (hr : slot.revents = some revents) (hup : hasPeerHungup revents = false)
      (hin : hasReceivedData revents = true) (hfd : slot.fd = some fd) :
      Step s (.scan t) (s.goto t (.read pollfds i fd))
  | skip {t pollfds i slot revents} (ht : s.workers t = .scan pollfds i)
      (hi : i < s.clients.length) (hslot : pollfds[i]? = some slot)
      (hr : slot.revents = some revents) (hup : hasPeerHungup revents = false)
      (hin : hasReceivedData revents = false) :
      Step s (.scan t) (s.goto t (.scan pollfds (i + 1)))
  | leave {t pollfds i} (ht : s.workers t = .scan pollfds i) (hi : s.clients.length ≤ i) :
      Step s (.scan t) (s.goto t .outside)
  | readEnd {t pollfds i fd conn} (ht : s.workers t = .read pollfds i fd)
      (hc : s.conns fd = some conn) (hend : conn.unread = [] ∧ conn.closed = true) :
      Step s (.read t .eof) (s.goto t (.scan pollfds (i + 1)))
  | read {t pollfds i fd conn result chunk} (ht : s.workers t = .read pollfds i fd)
      (hc : s.conns fd = some conn) (hr : readChunk conn result = some (some chunk)) :
      Step s (.read t result)
        ((s.setConn fd (conn.afterRead chunk)).goto t
          (.push pollfds i ⟨fd, conn.chunks.length, strip chunk⟩))
  | push {t pollfds i e} (ht : s.workers t = .push pollfds i e) :
      Step s (.push t) ({ s with pushed := s.pushed ++ [e] }.goto t (.scan pollfds (i + 1)))

theorem scanSlot_cases {s s' : Tcp θ} {t : θ} {pollfds : List PollFd} {i : Nat}
    (ht : s.workers t = .scan pollfds i) (h : s.scanSlot t pollfds i = some s') :
    Step s (.scan t) s' := by
  unfold scanSlot at h
  split at h
  · rename_i hi
    obtain ⟨slot, hslot, h⟩ := Option.bind_eq_some_iff.mp h
    obtain ⟨revents, hr, h⟩ := Option.bind_eq_some_iff.mp h
    split at h
    · rename_i hup
      obtain ⟨fd, hfd, h⟩ := Option.bind_eq_some_iff.mp h
      cases h
      exact Step.remove ht hi hslot hr hup hfd
    · rename_i hup
      rw [Bool.not_eq_true] at hup
      split at h
      · rename_i hin
        obtain ⟨fd, hfd, h⟩ := Option.bind_eq_some_iff.mp h
        cases h
        exact Step.serve ht hi hslot hr hup hin hfd
      · rename_i hin
        cases h
        exact Step.skip ht hi hslot hr hup (Bool.not_eq_true _ ▸ hin)
  · rename_i hi
    cases h
    exact Step.leave ht (Nat.le_of_not_lt hi)

theorem readChunk_eq_none {conn : Conn} {result : ReadResult}
    (h : readChunk conn result = some none) :
    result = .eof ∧ conn.unread = [] ∧ conn.closed = true := by
  cases result with
  | bytes n =>
    simp only [readChunk] at h
    split at h <;> cases h
  | eof =>
    simp only [readChunk] at h
    split at h
    · rename_i hend
      exact ⟨rfl, hend⟩
    · cases h
  | failed => cases h

/-- Every step of the machine is one of the branches. -/
theorem step_cases {s s' : Tcp θ} {a : Act θ} (h : step s a = some s') : Step s a s' := by
  cases a with
  | peerSend fd bytes =>
    obtain ⟨conn, hc, h⟩ := Option.bind_eq_some_iff.mp h
    split at h
    · cases h
    · rename_i hopen
      cases h
      exact Step.peerSend hc (Bool.not_eq_true _ ▸ hopen)
  | peerClose fd =>
    obtain ⟨conn, hc, h⟩ := Option.bind_eq_some_iff.mp h
    cases h
    exact Step.peerClose hc
  | accept t fd =>
    simp only [step] at h
    split at h
    · rename_i ht
      cases h
      exact Step.acceptNone ht
    · rename_i ht
      split at h
      · rename_i hfd
        cases h
        exact Step.accept ht hfd
      · cases h
    · cases h
  | fill t =>
    simp only [step] at h
    split at h
    · rename_i ht
      obtain ⟨p, hp, rfl⟩ := Option.map_eq_some_iff.mp h
      exact Step.fill ht hp
    · cases h
  | poll t result =>
    simp only [step] at h
    split at h
    · rename_i ht
      cases h
      exact Step.pollFailed ht
    · rename_i ht
      split at h
      · rename_i hlen
        split at h <;> rename_i hz <;> cases h
        · exact Step.pollTimeout ht hlen.1 hz
        · exact Step.pollReady ht hlen.1 (Bool.not_eq_true _ ▸ hz)
      · cases h
    · cases h
  | scan t =>
    simp only [step] at h
    split at h
    · rename_i ht
      exact scanSlot_cases ht h
    · cases h
  | read t result =>
    simp only [step] at h
    split at h
    · rename_i ht
      obtain ⟨conn, hc, h⟩ := Option.bind_eq_some_iff.mp h
      obtain ⟨r, hr, h⟩ := Option.bind_eq_some_iff.mp h
      cases r with
      | none =>
        cases h
        obtain ⟨rfl, hend⟩ := readChunk_eq_none hr
        exact Step.readEnd ht hc hend
      | some chunk =>
        cases h
        exact Step.read ht hc hr
    · cases h
  | push t =>
    simp only [step] at h
    split at h
    · rename_i ht
      cases h
      exact Step.push ht
    · cases h

/-! ### What a read takes -/

/-- A chunk is the next part of the stream. -/
theorem readChunk_prefix {conn : Conn} {result : ReadResult} {chunk : List UInt8}
    (h : readChunk conn result = some (some chunk)) :
    chunk ++ conn.unread.drop chunk.length = conn.unread := by
  cases result with
  | bytes n =>
    simp only [readChunk] at h
    split at h
    · rename_i hn
      cases h
      rw [List.length_take, Nat.min_eq_left hn.2.2, List.take_append_drop]
    · cases h
  | eof =>
    simp only [readChunk] at h
    split at h <;> cases h
  | failed =>
    cases h
    rfl

theorem strip_append (bs cs : List UInt8) : strip (bs ++ cs) = strip bs ++ strip cs :=
  List.filter_append ..

theorem strip_eq_nil_iff {bs : List UInt8} : strip bs = [] ↔ ∀ b ∈ bs, b = 0 := by
  simp only [strip, List.filter_eq_nil_iff, decide_eq_true_eq, Decidable.not_not]

/-! ### Messages of one connection -/

/-- The chunks of connection `fd` that were pushed, in the order of the queue. -/
def order (s : Tcp θ) (fd : Nat) : List Nat :=
  (s.pushed.filter fun e => e.fd = fd).map Entry.index

/-- The messages pushed for connection `fd`, in the order of the queue. -/
def messages (s : Tcp θ) (fd : Nat) : List (List UInt8) :=
  (s.pushed.filter fun e => e.fd = fd).map Entry.text

/-- The chunks read from connection `fd` so far. -/
def chunks (s : Tcp θ) (fd : Nat) : List (List UInt8) := ((s.conns fd).map Conn.chunks).getD []

/-- Worker `t` has read a chunk and not yet pushed it. -/
def Holds (s : Tcp θ) (t : θ) (e : Entry) : Prop :=
  ∃ pollfds i, s.workers t = .push pollfds i e

end Tcp

end DataPipeline
