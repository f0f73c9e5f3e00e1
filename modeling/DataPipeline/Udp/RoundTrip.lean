import DataPipeline.Core.CString
import DataPipeline.Manager.State

/-!
# From a UDP client to the server

`UdpClient` sends the text of a message and nothing else. `UdpServer::run` receives into a
zeroed buffer and makes a C string of it, whatever the length of the datagram was. So the
string it pushes is the message exactly if the message has no NUL and leaves room for one in
the buffer; without a NUL in the buffer the server reads past it.
-/

namespace DataPipeline.Udp

/-- `sizeof(buffer)`. -/
def bufferSize : Nat := 1024

/-- The zeroed buffer after `recvfrom` has written a datagram to it, cut where it does not fit. -/
def received (datagram : List UInt8) : List UInt8 :=
  datagram.take bufferSize ++ List.replicate (bufferSize - datagram.length) 0

/-- `UdpServer::run`: its calls of the data handler and its result. Without a datagram
`recvfrom` fails; a read past the buffer is undefined behaviour, `none`. -/
def UdpServer.run (m_name : String) :
    Option (List UInt8) → Option (List (DataManager.Op (List UInt8)) × Bool)
  | none => some ([], true)
  | some datagram => (cString (received datagram)).map fun msg => ([.push msg m_name], true)

/-- `::sendto`: the datagram that leaves, nothing where the call fails. -/
def sendto (succeeds : Bool) (memory : Nat → UInt8) (size : Nat) : Option (List UInt8) :=
  if succeeds then some (bytesAt memory size) else none

/-- `UdpClient::send`, with the memory after the text's NUL. -/
def UdpClient.send (succeeds : Bool) (msg : List UInt8) (beyond : Nat → UInt8) :
    Option (List UInt8) :=
  sendto succeeds (cStr msg beyond) msg.length

/-- The loop of `UdpClient::run`: what leaves for each message. Entry `k` of `succeeds` and
`beyond` is about message `k`. -/
def UdpClient.sendAll (data : List (List UInt8)) (succeeds : Nat → Bool)
    (beyond : Nat → Nat → UInt8) : List (Option (List UInt8)) :=
  data.mapIdx fun k it => sendto (succeeds k) (cStr it (beyond k)) it.length

/-- `UdpClient::run`: the manager after `pop`, what left for each message and the result. -/
def UdpClient.run (dm : DataManager (List UInt8)) (m_name : String) (succeeds : Nat → Bool)
    (beyond : Nat → Nat → UInt8) :
    Option (DataManager (List UInt8) × List (Option (List UInt8)) × Bool) :=
  (dm.pop m_name []).map fun (dm', data, found) =>
    if found then
      let sent := sendAll data succeeds beyond
      (dm', sent, sent.all Option.isSome)
    else (dm', [], true)

/-- A datagram that left for a message: by `send`, or by a `run` that popped the message, maybe
among others. -/
inductive Sent (msg datagram : List UInt8) : Prop where
  | send (succeeds : Bool) (beyond : Nat → UInt8)
      (h : UdpClient.send succeeds msg beyond = some datagram)
  | run {dm dm' : DataManager (List UInt8)} {m_name data succeeds beyond sent ret} {k : Nat}
      (hpop : dm.pop m_name [] = some (dm', data, true))
      (hrun : UdpClient.run dm m_name succeeds beyond = some (dm', sent, ret))
      (hmsg : data[k]? = some msg) (hsent : sent[k]? = some (some datagram))

/-! ### What leaves -/

theorem eq_of_sendto {succeeds : Bool} {msg datagram : List UInt8} {beyond : Nat → UInt8}
    (h : sendto succeeds (cStr msg beyond) msg.length = some datagram) : datagram = msg := by
  rw [sendto, bytesAt_cStr_length] at h
  split at h
  · exact (Option.some.inj h).symm
  · contradiction

/-- A client sends the bytes of a message, whatever follows them in memory. -/
theorem Sent.eq {msg datagram : List UInt8} (h : Sent msg datagram) : datagram = msg := by
  cases h with
  | send succeeds beyond h => exact eq_of_sendto h
  | @run dm dm' m_name data succeeds beyond sent ret k hpop hrun hmsg hsent =>
    rw [UdpClient.run, hpop] at hrun
    obtain ⟨-, rfl, -⟩ : dm' = dm' ∧ UdpClient.sendAll data succeeds beyond = sent ∧ _ := by
      simpa using hrun
    rw [UdpClient.sendAll, List.getElem?_mapIdx, hmsg, Option.map_some] at hsent
    exact eq_of_sendto (Option.some.inj hsent)

/-! ### What is pushed -/

theorem length_received (datagram : List UInt8) : (received datagram).length = bufferSize := by
  rw [received, List.length_append, List.length_take, List.length_replicate]
  omega

/-- The C string of the buffer is the datagram exactly if the datagram has no NUL and the
buffer has one left. -/
theorem cString_received_iff {datagram : List UInt8} :
    cString (received datagram) = some datagram ↔ 0 ∉ datagram ∧ datagram.length < bufferSize := by
  rw [cString_eq_some_iff]
  refine and_congr_right fun _ => ⟨?_, fun hlt => ?_⟩
  · rintro ⟨rest, hrest⟩
    have hlength := congrArg List.length hrest
    rw [length_received, List.length_append, List.length_cons] at hlength
    omega
  · obtain ⟨n, hn⟩ := Nat.exists_eq_add_of_lt hlt
    refine ⟨List.replicate n 0, ?_⟩
    rw [received, List.take_of_length_le hlt.le, hn, Nat.add_assoc, Nat.add_sub_cancel_left,
      List.replicate_succ]

/-- A message that a client sends is the string the server pushes under its name, without
reading past its buffer, exactly if it has no NUL and is shorter than the buffer. -/
theorem datagram_round_trip_iff {msg datagram : List UInt8} (h : Sent msg datagram)
    (m_name : String) :
    UdpServer.run m_name (some datagram) = some ([.push msg m_name], true) ↔
      0 ∉ msg ∧ msg.length < bufferSize := by
  obtain rfl := h.eq
  rw [← cString_received_iff, UdpServer.run, Option.map_eq_some_iff]
  constructor
  · rintro ⟨text, htext, he⟩
    cases he
    exact htext
  · exact fun htext => ⟨_, htext, rfl⟩

/-- A manager with the message `hi` in the queue of its only consumer. -/
def greeted : Option (DataManager (List UInt8)) :=
  Machine.run DataManager.step (.new ⟨"dm", 1, 1, .BROADCAST⟩)
    [.setFeeder "f", .setConsumer "tx", .push [104, 105] "f", .manageBroadcast]

/-- The message that a client's `run` pops and sends is pushed under the server's name. -/
theorem datagram_round_trip_greeting : ∃ dm ∈ greeted, ∃ dm' datagram,
    UdpClient.run dm "tx" (fun _ => true) (fun _ _ => 97) = some (dm', [some datagram], true) ∧
      UdpServer.run "rx" (some datagram) = some ([.push [104, 105] "rx"], true) := by
  obtain ⟨dm, hdm, dm', datagram, hpop, hrun⟩ : ∃ dm ∈ greeted, ∃ dm' datagram,
      dm.pop "tx" [] = some (dm', [[104, 105]], true) ∧
        UdpClient.run dm "tx" (fun _ => true) (fun _ _ => 97) =
          some (dm', [some datagram], true) :=
    ⟨_, rfl, _, _, rfl, rfl⟩
  exact ⟨dm, hdm, dm', datagram, hrun,
    (datagram_round_trip_iff (.run (k := 0) hpop hrun rfl rfl) "rx").mpr (by decide)⟩

/-- A message with a NUL is cut there. -/
theorem datagram_round_trip_fails : ¬ ∀ msg datagram : List UInt8, msg.length ≤ 1024 →
    Sent msg datagram → ∀ m_name : String,
      UdpServer.run m_name (some datagram) = some ([.push msg m_name], true) := by
  intro h
  have hsent : Sent [104, 0, 105] [104, 0, 105] :=
    .send true (fun _ => 97) rfl
  exact absurd (h _ _ (by decide) hsent "rx") (by decide)

end DataPipeline.Udp
