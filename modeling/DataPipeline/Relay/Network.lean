import DataPipeline.Relay.Delivery

/-!
# Pipelines that send to each other

Any number of pipelines, of which the UDP clients of one may send to the UDP servers of
another one, or of the same. A datagram may be lost, be late or arrive more than once, and
somebody else may send one. A text goes through as many pipelines as it likes and is never
changed on the way: it is a read of some connection, or a string of a datagram that came
from outside. Where such a datagram has no NUL within the length of a buffer, every server
on the way may read something else behind its own.
-/

namespace DataPipeline

open Function (update update_self update_of_ne)
open Machine

/-! ### The network -/

/-- Pipelines `ι` and the datagrams between them. -/
structure Network (ι ν ω θ : Type) where
  pipelines : ι → Relay ν ω θ
  /-- Every datagram that has left. Each may arrive at any time and any number of times. -/
  sent : List (List UInt8)
  /-- History: those that come from outside. -/
  foreign : List (List UInt8)

namespace Network

variable {ι ν ω θ : Type}

/-- Nobody has started. -/
def start (dm : ι → DataManager (Packet ν)) : Network ι ν ω θ where
  pipelines := fun k => .start (dm k)
  sent := []
  foreign := []

/-- One step of a pipeline, of one of its UDP clients, or of somebody else. -/
inductive Act (ι ν ω θ : Type) where
  | pipeline (k : ι) (a : Relay.Act ν ω θ)
  /-- `UdpClient::run` of thread `t` calls `sendto` for message `m` of its vector. -/
  | sendto (k : ι) (t : θ) (m : Nat) (succeeds : Bool) (beyond : Nat → UInt8)
  | foreign (datagram : List UInt8)

/-- A datagram that arrives has left before. -/
def Arrives (net : Network ι ν ω θ) : Relay.Act ν ω θ → Prop
  | .udpServer _ (.recvfrom _ (some d)) => d ∈ net.sent
  | _ => True

instance (net : Network ι ν ω θ) (a : Relay.Act ν ω θ) : Decidable (net.Arrives a) := by
  unfold Arrives
  split <;> infer_instance

variable [DecidableEq ι] [DecidableEq ν] [DecidableEq ω] [DecidableEq θ]

/-- The network as a machine. -/
def step (name : ι → ν → String) (popId : ι → θ → String) :
    Machine (Network ι ν ω θ) (Act ι ν ω θ)
  | net, .pipeline k a =>
    if net.Arrives a then
      (Relay.step (name k) (popId k) (net.pipelines k) a).map fun s =>
        { net with pipelines := update net.pipelines k s }
    else none
  | net, .sendto k t m succeeds beyond =>
    ((net.pipelines k).pipe.data t)[m]?.map fun it =>
      { net with sent := net.sent ++ (Udp.UdpClient.send succeeds it.text beyond).toList }
  | net, .foreign d => some { net with sent := net.sent ++ [d], foreign := net.foreign ++ [d] }

/-- A text that no pipeline has made up: a read of some connection, or a string of a datagram
from outside. -/
def Genuine (net : Network ι ν ω θ) (text : List UInt8) : Prop :=
  (∃ k n fd, ∃ chunk ∈ ((net.pipelines k).servers n).chunks fd, text = strip chunk) ∨
    ∃ d ∈ net.foreign, Udp.StringOf d text

variable {name : ι → ν → String} {popId : ι → θ → String}

/-! ### Seen from one pipeline -/

/-- The steps of pipeline `k` in a step of the network. -/
def pipelineActs (k : ι) (_ : Network ι ν ω θ) : Act ι ν ω θ → List (Relay.Act ν ω θ)
  | .pipeline k' a => if k' = k then [a] else []
  | _ => []

/-- Seen from one pipeline, a run is one of the pipeline. -/
theorem run_pipeline (k : ι) {dm : ι → DataManager (Packet ν)} {acts : List (Act ι ν ω θ)}
    {net : Network ι ν ω θ} (hrun : run (step name popId) (start dm) acts = some net) :
    run (Relay.step (name k) (popId k)) (.start (dm k))
      (observe (step name popId) (pipelineActs k) (start dm) acts) =
        some (net.pipelines k) := by
  refine run_part (f := fun net => net.pipelines k) (fun _ u a v _ h => ?_) hrun
  cases a with
  | pipeline k' a =>
    simp only [step] at h
    split at h
    · obtain ⟨s, hs, rfl⟩ := Option.map_eq_some_iff.mp h
      by_cases hk : k' = k
      · subst hk
        simp only [pipelineActs, if_pos, run_cons, hs, Option.bind_some, run_nil, update_self]
      · simp only [pipelineActs, if_neg hk, run_nil, update_of_ne (Ne.symm hk)]
    · contradiction
  | sendto k' t m succeeds beyond =>
    obtain ⟨_, _, rfl⟩ := Option.map_eq_some_iff.mp h
    rfl
  | foreign d =>
    cases h
    rfl

/-! ### Texts stay what they are -/

/-- The connections of a pipeline keep their reads. -/
theorem chunks_mono {s s' : Relay ν ω θ} {name : ν → String} {popId : θ → String}
    {a : Relay.Act ν ω θ} (h : Relay.step name popId s a = some s') (n : ν) (fd : Nat) :
    ∀ chunk ∈ (s.servers n).chunks fd, chunk ∈ (s'.servers n).chunks fd := by
  obtain ⟨d, hd, hservers, _⟩ := Relay.step_eq_some h
  rw [hservers]
  cases a with
  | server m b =>
    obtain ⟨server, hserver, rfl⟩ := Option.map_eq_some_iff.mp hd
    intro chunk hchunk
    by_cases hm : n = m
    · subst hm
      dsimp only
      rw [update_self]
      rcases (Tcp.step_cases hserver).chunks fd with he | ⟨new, _, he⟩ <;> rw [he]
      · exact hchunk
      · exact List.mem_append_left _ hchunk
    · dsimp only
      rwa [update_of_ne hm]
  | udpServer m b =>
    obtain ⟨_, _, rfl⟩ := Option.map_eq_some_iff.mp hd
    exact fun _ => id
  | popTest | popMove | sweep =>
    cases hd
    exact fun _ => id

theorem genuine_mono {net net' : Network ι ν ω θ} {a : Act ι ν ω θ}
    (h : step name popId net a = some net') (text : List UInt8) (hg : net.Genuine text) :
    net'.Genuine text := by
  cases a with
  | pipeline k a =>
    simp only [step] at h
    split at h
    · obtain ⟨s, hs, rfl⟩ := Option.map_eq_some_iff.mp h
      refine hg.imp_left fun ⟨k', n, fd, chunk, hchunk, he⟩ => ⟨k', n, fd, chunk, ?_, he⟩
      by_cases hk : k' = k
      · subst hk
        dsimp only
        rw [update_self]
        exact chunks_mono hs n fd chunk hchunk
      · dsimp only
        rwa [update_of_ne hk]
    · contradiction
  | sendto k t m succeeds beyond =>
    obtain ⟨_, _, rfl⟩ := Option.map_eq_some_iff.mp h
    exact hg
  | foreign d =>
    cases h
    exact hg.imp_right fun ⟨d', hd, he⟩ => ⟨d', List.mem_append_left _ hd, he⟩

/-- A datagram that is a genuine text, or comes from outside. -/
def Traced (net : Network ι ν ω θ) (d : List UInt8) : Prop := net.Genuine d ∨ d ∈ net.foreign

theorem traced_mono {net net' : Network ι ν ω θ} {a : Act ι ν ω θ}
    (h : step name popId net a = some net') (d : List UInt8) (hd : net.Traced d) :
    net'.Traced d := by
  refine hd.imp (genuine_mono h d) fun hforeign => ?_
  cases a with
  | pipeline k a =>
    simp only [step] at h
    split at h
    · obtain ⟨_, _, rfl⟩ := Option.map_eq_some_iff.mp h
      exact hforeign
    · contradiction
  | sendto k t m succeeds beyond =>
    obtain ⟨_, _, rfl⟩ := Option.map_eq_some_iff.mp h
    exact hforeign
  | foreign d' =>
    cases h
    exact List.mem_append_left _ hforeign

/-- What a UDP server makes of a traced datagram is genuine. -/
theorem Traced.stringOf {dm : ι → DataManager (Packet ν)} {acts : List (Act ι ν ω θ)}
    {net : Network ι ν ω θ} (hrun : run (step name popId) (start dm) acts = some net)
    {d text : List UInt8} (hd : net.Traced d) (htext : Udp.StringOf d text) :
    net.Genuine text := by
  rcases hd with (⟨k, n, fd, chunk, hchunk, rfl⟩ | ⟨d', hd', hstring⟩) | hforeign
  · have hlen := Tcp.run_chunks_length (Relay.run_server n (run_pipeline k hrun)) fd chunk hchunk
    have hnul : 0 ∉ strip chunk := fun h0 => of_decide_eq_true (List.mem_filter.mp h0).2 rfl
    have hroom : (strip chunk).length < Udp.bufferSize :=
      ((List.length_filter_le ..).trans hlen).trans_lt (by decide)
    exact htext.eq_self hnul hroom ▸ Or.inl ⟨k, n, fd, chunk, hchunk, rfl⟩
  · exact Or.inr ⟨d', hd', hstring.trans htext⟩
  · exact Or.inr ⟨d, hforeign, htext⟩

/-- What a UDP server receives in a step of its pipeline. -/
theorem received_cases {s s' : Relay ν ω θ} {name : ν → String} {popId : θ → String}
    {a : Relay.Act ν ω θ} (h : Relay.step name popId s a = some s') (n : ν) :
    (s'.udpServers n).received = (s.udpServers n).received ∨
      ∃ t d, a = .udpServer n (.recvfrom t (some d)) ∧
        (s'.udpServers n).received = (s.udpServers n).received ++ [d] := by
  obtain ⟨d, hd, _, hservers, _⟩ := Relay.step_eq_some h
  rw [hservers]
  cases a with
  | udpServer m b =>
    obtain ⟨server, hserver, rfl⟩ := Option.map_eq_some_iff.mp hd
    by_cases hm : n = m
    · subst hm
      dsimp only
      rw [update_self]
      cases Udp.Server.step_cases hserver with
      | nothing | push => exact Or.inl rfl
      | recvfrom => exact Or.inr ⟨_, _, rfl, rfl⟩
    · dsimp only
      rw [update_of_ne hm]
      exact Or.inl rfl
  | server m b =>
    obtain ⟨_, _, rfl⟩ := Option.map_eq_some_iff.mp hd
    exact Or.inl rfl
  | popTest | popMove | sweep =>
    cases hd
    exact Or.inl rfl

/-- Whatever a step of a pipeline pushes is genuine, if what its servers have received is
traced. -/
theorem pushes_genuine {dm : ι → DataManager (Packet ν)} {acts : List (Act ι ν ω θ)}
    {net : Network ι ν ω θ} (hrun : run (step name popId) (start dm) acts = some net) {k : ι}
    (hreceived : ∀ n, ∀ d ∈ ((net.pipelines k).udpServers n).received, net.Traced d)
    {a : Relay.Act ν ω θ} {s : Relay ν ω θ}
    (h : Relay.step (name k) (popId k) (net.pipelines k) a = some s) :
    ∀ b ∈ (net.pipelines k).queueActs (name k) a, ∀ p pushId, b = .push p pushId →
      net.Genuine p.text := by
  rintro b hb p pushId rfl
  obtain ⟨d, hd, _⟩ := Relay.step_eq_some h
  cases a with
  | server n c =>
    obtain ⟨server, hserver, rfl⟩ := Option.map_eq_some_iff.mp hd
    have hA := Tcp.run_accounted (Relay.run_server n (run_pipeline k hrun))
    cases Tcp.step_cases hserver with
    | @push t pollfds i e ht =>
      simp only [Relay.queueActs, ht, List.mem_singleton, Pipe.Act.push.injEq] at hb
      obtain ⟨chunk, hchunk, he⟩ := hA.text e (Or.inr ⟨t, pollfds, i, ht⟩)
      rw [hb.1]
      exact Or.inl ⟨k, n, e.fd, chunk, List.mem_of_getElem? hchunk, he⟩
    | peerSend | peerClose | acceptNone | accept | fill | pollFailed | pollTimeout | pollReady
      | remove | serve | skip | leave | readEnd | read => exact absurd hb List.not_mem_nil
  | udpServer n c =>
    obtain ⟨server, hserver, rfl⟩ := Option.map_eq_some_iff.mp hd
    have hA := Udp.Server.run_accounted (Relay.run_udpServer n (run_pipeline k hrun))
    cases Udp.Server.step_cases hserver with
    | @push t b beyond ht =>
      simp only [Relay.queueActs, Udp.Server.handed, ht, Option.toList_some, List.map_cons,
        List.map_nil, List.mem_singleton, Pipe.Act.push.injEq] at hb
      rw [hb.1]
      have hmem := List.mem_of_getElem? (hA.buffer t b ht)
      exact (hreceived n _ hmem).stringOf hrun (Udp.stringOf_stringAt b.datagram beyond)
    | nothing | recvfrom => exact absurd hb List.not_mem_nil
  | popTest | popMove | sweep =>
    cases List.mem_singleton.mp hb

/-- Everything in the pipelines is genuine, and what has left one of them or was received by one
is traced. -/
structure Clean (net : Network ι ν ω θ) : Prop where
  everywhere : ∀ k, (net.pipelines k).pipe.Everywhere fun p => net.Genuine p.text
  sent : ∀ d ∈ net.sent, net.Traced d
  received : ∀ k n, ∀ d ∈ ((net.pipelines k).udpServers n).received, net.Traced d

theorem Clean.step {dm : ι → DataManager (Packet ν)} {acts : List (Act ι ν ω θ)}
    {net net' : Network ι ν ω θ} {a : Act ι ν ω θ}
    (hrun : run (step name popId) (start dm) acts = some net) (hC : Clean net)
    (h : Network.step name popId net a = some net') : Clean net' := by
  have hmono := genuine_mono h
  have htraced := traced_mono h
  have hold := fun k => (hC.everywhere k).mono fun p => hmono p.text
  have hreceived := fun k n d hd => htraced d (hC.received k n d hd)
  cases a with
  | pipeline k a =>
    simp only [Network.step] at h
    split at h
    · rename_i ha
      obtain ⟨s, hs, rfl⟩ := Option.map_eq_some_iff.mp h
      refine ⟨fun k' => ?_, fun d hd => htraced d (hC.sent d hd), fun k' n d hd => ?_⟩ <;>
        by_cases hk : k' = k
      · subst hk
        dsimp only
        rw [update_self]
        obtain ⟨_, _, _, _, hpipe⟩ := Relay.step_eq_some hs
        refine Pipe.run_everywhere (hold k') (fun b hb p pushId he => ?_) hpipe
        exact hmono _ (pushes_genuine hrun (hC.received k') hs b hb p pushId he)
      · dsimp only
        rw [update_of_ne hk]
        exact hold k'
      · subst hk
        dsimp only at hd
        rw [update_self] at hd
        rcases received_cases hs n with he | ⟨t, d', rfl, he⟩ <;> rw [he] at hd
        · exact hreceived k' n d hd
        · rcases List.mem_append.mp hd with hd | hd
          · exact hreceived k' n d hd
          · -- what arrives has left before
            rw [List.mem_singleton.mp hd]
            exact htraced d' (hC.sent d' ha)
      · dsimp only at hd
        rw [update_of_ne hk] at hd
        exact hreceived k' n d hd
    · contradiction
  | sendto k t m succeeds beyond =>
    obtain ⟨it, hit, rfl⟩ := Option.map_eq_some_iff.mp h
    refine ⟨hold, fun d hd => ?_, hreceived⟩
    rcases List.mem_append.mp hd with hd | hd
    · exact htraced d (hC.sent d hd)
    · have hsend := Option.mem_toList.mp hd
      rw [(Udp.Sent.send succeeds beyond hsend).eq]
      exact Or.inl ((hC.everywhere k).popped t it (List.mem_of_getElem? hit))
  | foreign d =>
    cases h
    refine ⟨hold, fun d' hd => ?_, hreceived⟩
    rcases List.mem_append.mp hd with hd | hd
    · exact htraced d' (hC.sent d' hd)
    · exact Or.inr (List.mem_append_right _ hd)

/-- No text is changed on its way through any number of pipelines. Their managers saw
registrations only; the nodes, the clients and the threads of all of them interleave in any
way, and datagrams are lost, late, doubled or somebody else's. Whatever a thread of any
pipeline has popped is a stripped read of a connection to one of the pipelines, or a string of
a datagram from outside: what stands before its first NUL or, where there is none within the
length of the buffer, the whole buffer with what some server has found behind its own. -/
theorem popped_genuine {conf : ι → DataManagerConf}
    {regs : ι → List (DataManager.Op (Packet ν))} (hregs : ∀ k, ∀ op ∈ regs k, op.Registers)
    {dm : ι → DataManager (Packet ν)}
    (hdm : ∀ k, run DataManager.step (.new (conf k)) (regs k) = some (dm k))
    {acts : List (Act ι ν ω θ)} {net : Network ι ν ω θ}
    (hrun : run (step name popId) (start dm) acts = some net) :
    ∀ k t, ∀ p ∈ (net.pipelines k).pipe.data t, net.Genuine p.text := by
  have hclean : Clean net := by
    refine run_history (I := fun _ net => Clean net) ?_ ?_ hrun
    · exact ⟨fun k => Pipe.everywhere_start _ (DataManager.registered_of_run (hregs k) (hdm k)),
        fun _ hd => absurd hd List.not_mem_nil, fun _ _ _ hd => absurd hd List.not_mem_nil⟩
    · exact fun _ _ _ _ hu hC h => hC.step hu h
  exact fun k => (hclean.everywhere k).popped

/-- A read comes to the consumer of a pipeline. -/
def readAndPop : List (Relay.Act Bool Unit String) :=
  Relay.readOnce () 4 [97, 0] ++ [.server true (.push ())] ++ Relay.secondQueuePass ++
    [.popTest "Out1", .popMove "Out1"]

/-- A datagram comes to the consumer of a pipeline, and once more into its queue. -/
def receiveAndPop : List (Relay.Act Bool Unit String) :=
  Relay.receiveOnce () [97] [] ++ List.replicate 5 .sweep ++
    Relay.receiveOnce () [97] [] ++ [.popTest "Out1", .popMove "Out1"]

/-- The UDP client of the first pipeline sends to the UDP server of the second one. -/
def twoHops : List (Act Bool Bool Unit String) :=
  readAndPop.map (.pipeline true) ++ [.sendto true "Out1" 0 true fun _ => 97] ++
    receiveAndPop.map (.pipeline false)

theorem popped_genuine_two_hops : ∃ net : Network Bool Bool Unit String,
    run (step (fun _ => Relay.nodeName) fun _ => id) (start fun _ => Relay.bothNodes) twoHops =
        some net ∧
      ((net.pipelines false).pipe.data "Out1").map Packet.text = [[97]] ∧
      ∀ p ∈ (net.pipelines false).pipe.data "Out1", net.Genuine p.text := by
  have hregs : ∀ op ∈ [.setFeeder "UdpServer1", .setFeeder "TcpServer1", .setConsumer "Out1"],
      DataManager.Op.Registers (T := Packet Bool) op := by
    simp [DataManager.Op.Registers]
  obtain ⟨net, hrun, hpopped⟩ : ∃ net : Network Bool Bool Unit String,
      run (step (fun _ => Relay.nodeName) fun _ => id) (start fun _ => Relay.bothNodes) twoHops =
          some net ∧
        ((net.pipelines false).pipe.data "Out1").map Packet.text = [[97]] :=
    ⟨_, rfl, by decide⟩
  exact ⟨net, hrun, hpopped, popped_genuine (fun _ => hregs) (fun _ => rfl) hrun false "Out1"⟩

end Network

end DataPipeline
