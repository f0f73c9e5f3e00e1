import DataPipeline.Relay.State

/-!
# What arrives at a consumer

What the queues took from a node is what the node has pushed, so what a consumer has
popped, what its queue holds and what still waits for the next broadcast is the whole of
it. For a TCP server these are the reads of each connection, once each, and with a single
worker the byte stream of the connection; for a UDP server strings of its datagrams, once
each, and with a single worker in the order of their arrival.
-/

namespace DataPipeline.Relay

open Machine

variable {ν ω θ : Type} [DecidableEq ν] [DecidableEq ω] [DecidableEq θ]
variable {name : ν → String} {popId : θ → String}

/-! ### What a step pushes -/

omit [DecidableEq ν] [DecidableEq θ] in
/-- A server pushes in the one step that ends `readRxData`, what its worker has in hand. -/
theorem server_pushed (name : ν → String) {n : ν} {s : Relay ν ω θ} {server : Tcp ω} {b : Tcp.Act ω}
    (h : Tcp.Step (s.servers n) b server) :
    (s.queueActs name (.server n b) = [] ∧ server.pushed = (s.servers n).pushed) ∨
      ∃ e, s.queueActs name (.server n b) = [.push (.chunk n e) (name n)] ∧
        server.pushed = (s.servers n).pushed ++ [e] := by
  cases h with
  | push ht =>
    right
    simp only [queueActs, ht]
    exact ⟨_, rfl, rfl⟩
  | peerSend | peerClose | acceptNone | accept | fill | pollFailed | pollTimeout | pollReady
    | remove | serve | skip | leave | readEnd | read => exact Or.inl ⟨rfl, rfl⟩

omit [DecidableEq ν] [DecidableEq θ] in
/-- What a UDP server hands over is pushed under its name. -/
theorem completed_handed {β : Type} (name : ν → String) (g : Packet ν → Option β) (n m : ν)
    (msgs : List Udp.Message) :
    (Pipe.completed (name n) (msgs.map fun msg =>
      (.push (.datagram m msg) (name m) : Pipe.Act θ (Packet ν)))).filterMap g =
        if name m = name n then msgs.filterMap fun msg => g (.datagram m msg) else [] := by
  rw [Pipe.completed, List.filterMap_map, List.filterMap_filterMap]
  by_cases hf : name m = name n <;> simp [Pipe.pushOf, hf]

theorem step_chunks (n : ν) {s s' : Relay ν ω θ} {a : Act ν ω θ}
    (h : step name popId s a = some s') :
    (s'.servers n).pushed = (s.servers n).pushed ++
      (Pipe.completed (name n) (s.queueActs name a)).filterMap (Packet.chunkOf n) := by
  obtain ⟨d, hd, hservers, _⟩ := step_eq_some h
  rw [hservers]
  cases a with
  | server m b =>
    obtain ⟨server, hserver, rfl⟩ := Option.map_eq_some_iff.mp hd
    by_cases hm : n = m
    · subst hm
      dsimp only
      rw [Function.update_self]
      rcases server_pushed name (Tcp.step_cases hserver) with
        ⟨hq, hpushed⟩ | ⟨e, hq, hpushed⟩ <;> rw [hq, hpushed]
      · exact (List.append_nil _).symm
      · simp [Pipe.completed, Pipe.pushOf, Packet.chunkOf]
    · dsimp only
      rw [Function.update_of_ne hm]
      rcases server_pushed name (Tcp.step_cases hserver) with
        ⟨hq, -⟩ | ⟨e, hq, -⟩ <;> rw [hq]
      · exact (List.append_nil _).symm
      · by_cases hf : name m = name n <;>
          simp [Pipe.completed, Pipe.pushOf, Packet.chunkOf, hf, Ne.symm hm]
  | udpServer m b =>
    obtain ⟨_, _, rfl⟩ := Option.map_eq_some_iff.mp hd
    rw [queueActs, completed_handed]
    simp [Packet.chunkOf]
  | popTest | popMove | sweep =>
    cases hd
    exact (List.append_nil _).symm

theorem step_datagrams (n : ν) {s s' : Relay ν ω θ} {a : Act ν ω θ}
    (h : step name popId s a = some s') :
    (s'.udpServers n).pushed = (s.udpServers n).pushed ++
      (Pipe.completed (name n) (s.queueActs name a)).filterMap (Packet.datagramOf n) := by
  obtain ⟨d, hd, _, hservers, _⟩ := step_eq_some h
  rw [hservers]
  cases a with
  | server m b =>
    obtain ⟨server, hserver, rfl⟩ := Option.map_eq_some_iff.mp hd
    rcases server_pushed name (Tcp.step_cases hserver) with
      ⟨hq, -⟩ | ⟨e, hq, -⟩ <;> rw [hq]
    · exact (List.append_nil _).symm
    · by_cases hf : name m = name n <;>
        simp [Pipe.completed, Pipe.pushOf, Packet.datagramOf, hf]
  | udpServer m b =>
    obtain ⟨server, hserver, rfl⟩ := Option.map_eq_some_iff.mp hd
    rw [queueActs, completed_handed]
    dsimp only
    by_cases hm : n = m
    · subst hm
      rw [Function.update_self, (Udp.Server.step_cases hserver).pushed]
      simp [Packet.datagramOf]
    · rw [Function.update_of_ne hm]
      simp [Packet.datagramOf, Ne.symm hm]
  | popTest | popMove | sweep =>
    cases hd
    exact (List.append_nil _).symm

/-! ### What the queues took from a node -/

/-- The steps of the queues in a run. -/
def queueLog (name : ν → String) (popId : θ → String) (dm : DataManager (Packet ν))
    (acts : List (Act ν ω θ)) : List (Pipe.Act θ (Packet ν)) :=
  observe (step name popId) (queueActs name) (start dm) acts

theorem queueLog_fromFeeder (dm : DataManager (Packet ν)) (acts : List (Act ν ω θ)) :
    ∀ b ∈ queueLog name popId dm acts, Pipe.FromFeeder (fun p : Packet ν => name p.node) b :=
  forall_mem_observe.mpr fun _ a _ u _ _ => queueActs_fromFeeder u a

/-- Along a run the pushes under the name of a node are those the node has made. -/
theorem run_pushes (n : ν) {dm : DataManager (Packet ν)} {acts : List (Act ν ω θ)}
    {s : Relay ν ω θ} (hrun : run (step name popId) (start dm) acts = some s) :
    (Pipe.completed (name n) (queueLog name popId dm acts)).filterMap (Packet.chunkOf n) =
        (s.servers n).pushed ∧
      (Pipe.completed (name n) (queueLog name popId dm acts)).filterMap (Packet.datagramOf n) =
        (s.udpServers n).pushed := by
  refine run_history (I := fun acts s =>
    (Pipe.completed (name n) (queueLog name popId dm acts)).filterMap (Packet.chunkOf n) =
        (s.servers n).pushed ∧
      (Pipe.completed (name n) (queueLog name popId dm acts)).filterMap (Packet.datagramOf n) =
        (s.udpServers n).pushed) ⟨rfl, rfl⟩ ?_ hrun
  intro acts u a v hu ⟨hchunks, hdatagrams⟩ h
  have hlog : queueLog name popId dm (acts ++ [a]) =
      queueLog name popId dm acts ++ u.queueActs name a := observe_concat _ hu a
  rw [hlog, Pipe.completed, List.filterMap_append, List.filterMap_append, List.filterMap_append]
  exact ⟨(congrArg (· ++ _) hchunks).trans (step_chunks n h).symm,
    (congrArg (· ++ _) hdatagrams).trans (step_datagrams n h).symm⟩

/-- What a thread has popped, what its consumer's queue `j` holds and what waits in input
queue `i`. -/
def reaching (s : Relay ν ω θ) (t : θ) (j i : Nat) : List (Packet ν) :=
  s.pipe.data t ++ contents s.pipe.manager.outQueues j ++ s.pipe.waiting i

/-- What reaches a consumer of a node is what the node has pushed. -/
theorem run_reaching (hinj : Function.Injective popId) {dm : DataManager (Packet ν)}
    (hdm : dm.Registered) {acts : List (Act ν ω θ)} {s : Relay ν ω θ}
    (hrun : run (step name popId) (start dm) acts = some s) {n : ν} {i : Nat}
    (hn : dm.inQueuesIds.lookup (name n) = some i) (hfree : ¬ s.pipe.sweep.Holds i) {t : θ}
    {j : Nat} (ht : dm.outQueuesIds.lookup (popId t) = some j) :
    (s.reaching t j i).filterMap (Packet.chunkOf n) = (s.servers n).pushed ∧
      (s.reaching t j i).filterMap (Packet.datagramOf n) = (s.udpServers n).pushed := by
  have hqueues := run_queues hrun
  obtain ⟨hin, hout⟩ := Pipe.run_ids hqueues
  obtain ⟨hchunks, hdatagrams⟩ := run_pushes n hrun
  rw [← hin] at hn
  rw [← hout] at ht
  have hall := fun {β : Type} {g : Packet ν → Option β}
      (hg : ∀ p b, g p = some b → name p.node = name n) =>
    Pipe.filterMap_reaching hinj hdm (queueLog_fromFeeder dm acts) hqueues hn hfree ht hg
  constructor
  · rw [← hchunks]
    refine hall fun p e hp => ?_
    rw [Packet.eq_of_chunkOf hp]
    rfl
  · rw [← hdatagrams]
    refine hall fun p msg hp => ?_
    rw [Packet.eq_of_datagramOf hp]
    rfl

/-! ### The reads of a connection -/

/-- The reads of connection `fd` of TCP server `n` that reach a consumer. -/
def readsReaching (s : Relay ν ω θ) (t : θ) (j i : Nat) (n : ν) (fd : Nat) : List Entry :=
  ((s.reaching t j i).filterMap (Packet.chunkOf n)).filter fun e => e.fd = fd

/-- No read is lost, changed or doubled on its way from a connection to a consumer, with any
number of workers in the server. The manager saw registrations only, every consumer name has
one popping thread, and everything interleaves in any way. Unless the queue of the server is
being copied, each read reaches the consumer once, stripped, or is in the hands of a worker;
and with a single worker the reads come in the order of the connection. -/
theorem reads_reach_once (hinj : Function.Injective popId) {conf : DataManagerConf}
    {regs : List (DataManager.Op (Packet ν))} (hregs : ∀ op ∈ regs, op.Registers)
    {dm : DataManager (Packet ν)} (hdm : run DataManager.step (.new conf) regs = some dm)
    {acts : List (Act ν ω θ)} {s : Relay ν ω θ}
    (hrun : run (step name popId) (start dm) acts = some s) {n : ν} {i : Nat}
    (hn : dm.inQueuesIds.lookup (name n) = some i) (hfree : ¬ s.pipe.sweep.Holds i) {t : θ}
    {j : Nat} (ht : dm.outQueuesIds.lookup (popId t) = some j) (fd : Nat) :
    ((s.readsReaching t j i n fd).map Entry.index).Nodup ∧
      (∀ e ∈ s.readsReaching t j i n fd, ∃ chunk,
        ((s.servers n).chunks fd)[e.index]? = some chunk ∧ e.text = strip chunk) ∧
      (∀ k < ((s.servers n).chunks fd).length,
        k ∈ (s.readsReaching t j i n fd).map Entry.index ∨
          ∃ w e, (s.servers n).Holds w e ∧ e.fd = fd ∧ e.index = k) ∧
      ((∀ w w' : ω, w = w') →
        ((s.readsReaching t j i n fd).map Entry.index).Pairwise (· < ·)) := by
  have hserver := run_server n hrun
  have hA := Tcp.run_accounted hserver
  obtain ⟨hreach, -⟩ := run_reaching hinj (DataManager.registered_of_run hregs hdm) hrun hn hfree ht
  rw [readsReaching, hreach]
  refine ⟨hA.nodup fd, fun e he => ?_, fun k hk => hA.all fd k hk, fun hsingle =>
    (Tcp.run_inOrder hserver).pairwise hA hsingle fd⟩
  obtain ⟨hpushed, hfd⟩ := List.mem_filter.mp he
  exact of_decide_eq_true hfd ▸ hA.text e (Or.inl hpushed)

/-- The manager of one TCP server, one UDP server and a consumer. -/
def bothNodes : DataManager (Packet Bool) :=
  ((((DataManager.new ⟨"dm", 8, 8, .BROADCAST⟩).setFeeder "UdpServer1").1.setFeeder
    "TcpServer1").1.setConsumer "Out1").1

/-- The name of the TCP server, and of the UDP server. -/
def nodeName : Bool → String
  | true => "TcpServer1"
  | false => "UdpServer1"

/-- A worker takes a connection and reads what its peer has sent. -/
def readOnce {ω : Type} (t : ω) (fd : Nat) (bytes : List UInt8) : List (Act Bool ω String) :=
  [.server true (.accept t (some fd)), .server true (.peerSend fd bytes), .server true (.fill t),
    .server true (.poll t (.ready [POLLIN])), .server true (.scan t),
    .server true (.read t (.bytes bytes.length))]

/-- A pass of the manager over both queues, of which the second one is not empty. -/
def secondQueuePass {ω : Type} : List (Act Bool ω String) := List.replicate 7 .sweep

/-- Two workers, one of them with the second read still in hand. -/
theorem reads_reach_once_two_workers : ∃ s : Relay Bool Bool String,
    run (step nodeName id) (start bothNodes)
        (readOnce true 4 [97, 0] ++ [.server true (.push true)] ++ secondQueuePass ++
          [.server true (.accept false none), .server true (.peerSend 4 [98]),
            .server true (.fill false), .server true (.poll false (.ready [POLLIN])),
            .server true (.scan false), .server true (.read false (.bytes 1))]) = some s ∧
      (∀ k < ((s.servers true).chunks 4).length,
        k ∈ (s.readsReaching "Out1" 0 1 true 4).map Entry.index ∨
          ∃ w e, (s.servers true).Holds w e ∧ e.fd = 4 ∧ e.index = k) := by
  have hregs : ∀ op ∈ [.setFeeder "UdpServer1", .setFeeder "TcpServer1", .setConsumer "Out1"],
      DataManager.Op.Registers (T := Packet Bool) op := by
    simp [DataManager.Op.Registers]
  obtain ⟨s, hrun, hfree⟩ : ∃ s : Relay Bool Bool String,
      run (step nodeName id) (start bothNodes)
          (readOnce true 4 [97, 0] ++ [.server true (.push true)] ++ secondQueuePass ++
            [.server true (.accept false none), .server true (.peerSend 4 [98]),
              .server true (.fill false), .server true (.poll false (.ready [POLLIN])),
              .server true (.scan false), .server true (.read false (.bytes 1))]) = some s ∧
        ¬ s.pipe.sweep.Holds 1 := ⟨_, rfl, by decide⟩
  exact ⟨s, hrun, (reads_reach_once Function.injective_id hregs rfl hrun (n := true) rfl hfree
    (t := "Out1") rfl 4).2.2.1⟩

/-- With one worker no byte of a connection is lost, doubled or moved: what reaches a consumer,
then what the worker has in hand, then what is unread, is what the peer has sent, without the
NUL bytes. -/
theorem bytes_reach_in_order (hinj : Function.Injective popId) {conf : DataManagerConf}
    {regs : List (DataManager.Op (Packet ν))} (hregs : ∀ op ∈ regs, op.Registers)
    {dm : DataManager (Packet ν)} (hdm : run DataManager.step (.new conf) regs = some dm)
    {acts : List (Act ν Unit θ)} {s : Relay ν Unit θ}
    (hrun : run (step name popId) (start dm) acts = some s) {n : ν} {i : Nat}
    (hn : dm.inQueuesIds.lookup (name n) = some i) (hfree : ¬ s.pipe.sweep.Holds i) {t : θ}
    {j : Nat} (ht : dm.outQueuesIds.lookup (popId t) = some j) (fd : Nat) :
    ((s.readsReaching t j i n fd).map Entry.text).flatten ++ (s.servers n).hand fd ++
        strip ((s.servers n).unread fd) = strip ((s.servers n).sent fd) := by
  obtain ⟨hreach, -⟩ := run_reaching hinj (DataManager.registered_of_run hregs hdm) hrun hn hfree ht
  rw [readsReaching, hreach]
  exact Tcp.run_stream (run_server n hrun) fd

/-- One read is popped, the next bytes are unread. -/
theorem bytes_reach_in_order_unread : ∃ s : Relay Bool Unit String,
    run (step nodeName id) (start bothNodes)
        (readOnce () 4 [97, 0] ++ [.server true (.push ())] ++ secondQueuePass ++
          [.server true (.peerSend 4 [98]), .popTest "Out1", .popMove "Out1"]) = some s ∧
      ((s.readsReaching "Out1" 0 1 true 4).map Entry.text).flatten ++ (s.servers true).hand 4 ++
        strip ((s.servers true).unread 4) = strip ((s.servers true).sent 4) := by
  have hregs : ∀ op ∈ [.setFeeder "UdpServer1", .setFeeder "TcpServer1", .setConsumer "Out1"],
      DataManager.Op.Registers (T := Packet Bool) op := by
    simp [DataManager.Op.Registers]
  obtain ⟨s, hrun, hfree⟩ : ∃ s : Relay Bool Unit String,
      run (step nodeName id) (start bothNodes)
          (readOnce () 4 [97, 0] ++ [.server true (.push ())] ++ secondQueuePass ++
            [.server true (.peerSend 4 [98]), .popTest "Out1", .popMove "Out1"]) = some s ∧
        ¬ s.pipe.sweep.Holds 1 := ⟨_, rfl, by decide⟩
  exact ⟨s, hrun, bytes_reach_in_order Function.injective_id hregs rfl hrun (n := true) rfl hfree
    (t := "Out1") rfl 4⟩

/-! ### The datagrams of a UDP server -/

/-- The messages of UDP server `n` that reach a consumer. -/
def datagramsReaching (s : Relay ν ω θ) (t : θ) (j i : Nat) (n : ν) : List Udp.Message :=
  (s.reaching t j i).filterMap (Packet.datagramOf n)

/-- No datagram is lost or doubled on its way from a UDP server to a consumer, with any number of
workers in the server. The manager saw registrations only, every consumer name has one popping
thread, and everything interleaves in any way. Unless the queue of the server is being copied,
each datagram that was received reaches the consumer once, as the string of the buffer or,
where the buffer has no NUL, as the buffer with what stands behind it, or is in the buffer of a
worker; and with a single worker the datagrams come in the order of their arrival. -/
theorem datagrams_reach_once (hinj : Function.Injective popId) {conf : DataManagerConf}
    {regs : List (DataManager.Op (Packet ν))} (hregs : ∀ op ∈ regs, op.Registers)
    {dm : DataManager (Packet ν)} (hdm : run DataManager.step (.new conf) regs = some dm)
    {acts : List (Act ν ω θ)} {s : Relay ν ω θ}
    (hrun : run (step name popId) (start dm) acts = some s) {n : ν} {i : Nat}
    (hn : dm.inQueuesIds.lookup (name n) = some i) (hfree : ¬ s.pipe.sweep.Holds i) {t : θ}
    {j : Nat} (ht : dm.outQueuesIds.lookup (popId t) = some j) :
    ((s.datagramsReaching t j i n).map Udp.Message.index).Nodup ∧
      (∀ msg ∈ s.datagramsReaching t j i n, ∃ d,
        (s.udpServers n).received[msg.index]? = some d ∧ Udp.StringOf d msg.text) ∧
      (∀ k < (s.udpServers n).received.length,
        k ∈ (s.datagramsReaching t j i n).map Udp.Message.index ∨
          ∃ w b, (s.udpServers n).buffers w = some b ∧ b.index = k) ∧
      ((∀ w w' : ω, w = w') → ∀ w,
        (s.datagramsReaching t j i n).map Udp.Message.index ++
            ((s.udpServers n).buffers w).toList.map Udp.Buffered.index =
          List.range (s.udpServers n).received.length) := by
  have hserver := run_udpServer n hrun
  have hA := Udp.Server.run_accounted hserver
  obtain ⟨-, hreach⟩ := run_reaching hinj (DataManager.registered_of_run hregs hdm) hrun hn hfree ht
  rw [datagramsReaching, hreach]
  exact ⟨hA.nodup, hA.text, hA.all, fun hsingle w => Udp.Server.run_inOrder hsingle hserver w⟩

/-- A worker receives a datagram and pushes it. -/
def receiveOnce {ω : Type} (t : ω) (d beyond : List UInt8) : List (Act Bool ω String) :=
  [.udpServer false (.recvfrom t (some d)), .udpServer false (.push t beyond)]

/-- One worker: a datagram with a NUL, a call without one, an empty one, and one that is still
in the buffer. -/
theorem datagrams_reach_once_cut : ∃ s : Relay Bool Unit String,
    run (step nodeName id) (start bothNodes)
        (receiveOnce () [97, 0, 98] [] ++ [.sweep, .udpServer false (.recvfrom () none)] ++
          receiveOnce () [] [] ++ List.replicate 5 .sweep ++
          [.popTest "Out1", .popMove "Out1",
            .udpServer false (.recvfrom () (some [99]))]) = some s ∧
      (s.datagramsReaching "Out1" 0 0 false).map Udp.Message.text = [[97], []] ∧
      (s.datagramsReaching "Out1" 0 0 false).map Udp.Message.index ++
          ((s.udpServers false).buffers ()).toList.map Udp.Buffered.index =
        List.range (s.udpServers false).received.length := by
  have hregs : ∀ op ∈ [.setFeeder "UdpServer1", .setFeeder "TcpServer1", .setConsumer "Out1"],
      DataManager.Op.Registers (T := Packet Bool) op := by
    simp [DataManager.Op.Registers]
  obtain ⟨s, hrun, hfree, htexts⟩ : ∃ s : Relay Bool Unit String,
      run (step nodeName id) (start bothNodes)
          (receiveOnce () [97, 0, 98] [] ++ [.sweep, .udpServer false (.recvfrom () none)] ++
            receiveOnce () [] [] ++ List.replicate 5 .sweep ++
            [.popTest "Out1", .popMove "Out1",
              .udpServer false (.recvfrom () (some [99]))]) = some s ∧
        ¬ s.pipe.sweep.Holds 0 ∧
        (s.datagramsReaching "Out1" 0 0 false).map Udp.Message.text = [[97], []] :=
    ⟨_, rfl, by decide, by decide⟩
  exact ⟨s, hrun, htexts, (datagrams_reach_once Function.injective_id hregs rfl hrun (n := false)
    rfl hfree (t := "Out1") rfl).2.2.2 (fun _ _ => rfl) ()⟩

end DataPipeline.Relay
