import DataPipeline.Broadcast.Order
import DataPipeline.Core.Refinement
import DataPipeline.Tcp.HangUp
import DataPipeline.Udp.Server

/-!
# From the sockets to the consumers

The input nodes of a pipeline together with its manager. The `push` of a server's worker
is at the same time a step of the queues, under the name of the node; the workers of all
nodes, the peers, the threads that pop and the broadcasting thread interleave in any way,
also between the `recvfrom` of a UDP server's worker and its `push`. Each server and the
queues are parts of the whole: what is known of their runs holds here.
-/

namespace DataPipeline

open Function (update update_self update_of_ne)
open Machine

/-- What an input node gives to `DataManager::push`, with its history. -/
inductive Packet (ν : Type) where
  /-- A stripped read of a TCP server. -/
  | chunk (node : ν) (strippedMsg : Entry)
  /-- The string of a datagram of a UDP server. -/
  | datagram (node : ν) (msg : Udp.Message)
  deriving DecidableEq, Repr

namespace Packet

variable {ν : Type}

def node : Packet ν → ν
  | chunk n _ | datagram n _ => n

def text : Packet ν → List UInt8
  | chunk _ e => e.text
  | datagram _ msg => msg.text

variable [DecidableEq ν]

/-- The read of TCP server `n` that was pushed. -/
def chunkOf (n : ν) : Packet ν → Option Entry
  | chunk m e => if m = n then some e else none
  | datagram .. => none

/-- The message that UDP server `n` has pushed. -/
def datagramOf (n : ν) : Packet ν → Option Udp.Message
  | chunk .. => none
  | datagram m msg => if m = n then some msg else none

theorem eq_of_chunkOf {n : ν} {p : Packet ν} {e : Entry} (h : p.chunkOf n = some e) :
    p = .chunk n e := by
  cases p with
  | chunk m e' =>
    rw [chunkOf] at h
    split at h
    · rename_i hm
      rw [hm, Option.some.inj h]
    · contradiction
  | datagram => contradiction

theorem eq_of_datagramOf {n : ν} {p : Packet ν} {msg : Udp.Message}
    (h : p.datagramOf n = some msg) : p = .datagram n msg := by
  cases p with
  | chunk => contradiction
  | datagram m msg' =>
    rw [datagramOf] at h
    split at h
    · rename_i hm
      rw [hm, Option.some.inj h]
    · contradiction

end Packet

/-- The nodes `ν` of a pipeline, each with workers `ω`, and the manager with the threads `θ`
that pop. -/
structure Relay (ν ω θ : Type) where
  servers : ν → Tcp ω
  udpServers : ν → Udp.Server ω
  pipe : Pipe θ (Packet ν)

namespace Relay

variable {ν ω θ : Type}

/-- Nobody has started. -/
def start (dm : DataManager (Packet ν)) : Relay ν ω θ where
  servers := fun _ => .start
  udpServers := fun _ => .start
  pipe := .start dm

/-- One step of a node, of a peer of a node, or of the manager. -/
inductive Act (ν ω θ : Type) where
  /-- A step of TCP server `n` or of one of its peers. -/
  | server (n : ν) (a : Tcp.Act ω)
  /-- A step of a worker of UDP server `n`. -/
  | udpServer (n : ν) (a : Udp.Server.Act ω)
  | popTest (t : θ)
  | popMove (t : θ)
  | sweep
  deriving DecidableEq

/-- The steps of the queues in a step of the pipeline, whose nodes push under `name`. -/
def queueActs (name : ν → String) (s : Relay ν ω θ) : Act ν ω θ → List (Pipe.Act θ (Packet ν))
  | .server n (.push t) =>
    match (s.servers n).workers t with
    | .push _ _ e => [.push (.chunk n e) (name n)]
    | _ => []
  | .server _ _ => []
  | .udpServer n a =>
    ((s.udpServers n).handed a).map fun msg => .push (.datagram n msg) (name n)
  | .popTest t => [.popTest t]
  | .popMove t => [.popMove t]
  | .sweep => [.sweep]

variable [DecidableEq ν] [DecidableEq ω] [DecidableEq θ]

/-- What the nodes do in a step of the pipeline. -/
def nodes (s : Relay ν ω θ) : Act ν ω θ → Option (Relay ν ω θ)
  | .server n a =>
    (Tcp.step (s.servers n) a).map fun server => { s with servers := update s.servers n server }
  | .udpServer n a =>
    (Udp.Server.step (s.udpServers n) a).map fun server =>
      { s with udpServers := update s.udpServers n server }
  | .popTest _ | .popMove _ | .sweep => some s

/-- The pipeline as a machine. -/
def step (name : ν → String) (popId : θ → String) : Machine (Relay ν ω θ) (Act ν ω θ)
  | s, a => do
    let s' ← s.nodes a
    let pipe ← run (Pipe.next popId) s.pipe (s.queueActs name a)
    some { s' with pipe }

variable {name : ν → String} {popId : θ → String}

theorem step_eq_some {s s' : Relay ν ω θ} {a : Act ν ω θ} (h : step name popId s a = some s') :
    ∃ d, s.nodes a = some d ∧ s'.servers = d.servers ∧ s'.udpServers = d.udpServers ∧
      run (Pipe.next popId) s.pipe (s.queueActs name a) = some s'.pipe := by
  obtain ⟨d, hd, h⟩ := Option.bind_eq_some_iff.mp h
  obtain ⟨pipe, hpipe, h⟩ := Option.bind_eq_some_iff.mp h
  cases h
  exact ⟨d, hd, rfl, rfl, hpipe⟩

/-! ### The machines it is made of -/

/-- The steps of TCP server `n` in a step of the pipeline. -/
def serverActs (n : ν) (_ : Relay ν ω θ) : Act ν ω θ → List (Tcp.Act ω)
  | .server m a => if m = n then [a] else []
  | _ => []

/-- Seen from the queues, a run is one of theirs. -/
theorem run_queues {dm : DataManager (Packet ν)} {acts : List (Act ν ω θ)} {s : Relay ν ω θ}
    (hrun : run (step name popId) (start dm) acts = some s) :
    run (Pipe.next popId) (.start dm)
      (observe (step name popId) (queueActs name) (start dm) acts) = some s.pipe := by
  refine run_part (f := Relay.pipe) (fun _ _ _ _ _ h => ?_) hrun
  obtain ⟨_, _, _, _, hpipe⟩ := step_eq_some h
  exact hpipe

/-- Seen from one server, a run is one of the server. -/
theorem run_server (n : ν) {dm : DataManager (Packet ν)} {acts : List (Act ν ω θ)}
    {s : Relay ν ω θ} (hrun : run (step name popId) (start dm) acts = some s) :
    run Tcp.step .start (observe (step name popId) (serverActs n) (start dm) acts) =
      some (s.servers n) := by
  refine run_part (f := fun s => s.servers n) (fun _ u a v _ h => ?_) hrun
  obtain ⟨d, hd, hservers, _⟩ := step_eq_some h
  rw [hservers]
  cases a with
  | server m b =>
    obtain ⟨server, hserver, rfl⟩ := Option.map_eq_some_iff.mp hd
    by_cases hm : m = n
    · subst hm
      simp only [serverActs, if_pos, run_cons, hserver, Option.bind_some, run_nil, update_self]
    · simp only [serverActs, if_neg hm, run_nil, update_of_ne (Ne.symm hm)]
  | udpServer m b =>
    obtain ⟨_, _, rfl⟩ := Option.map_eq_some_iff.mp hd
    rfl
  | popTest | popMove | sweep =>
    cases hd
    rfl

/-- The steps of UDP server `n` in a step of the pipeline. -/
def udpServerActs (n : ν) (_ : Relay ν ω θ) : Act ν ω θ → List (Udp.Server.Act ω)
  | .udpServer m a => if m = n then [a] else []
  | _ => []

/-- The same for a UDP server. -/
theorem run_udpServer (n : ν) {dm : DataManager (Packet ν)} {acts : List (Act ν ω θ)}
    {s : Relay ν ω θ} (hrun : run (step name popId) (start dm) acts = some s) :
    run Udp.Server.step .start (observe (step name popId) (udpServerActs n) (start dm) acts) =
      some (s.udpServers n) := by
  refine run_part (f := fun s => s.udpServers n) (fun _ u a v _ h => ?_) hrun
  obtain ⟨d, hd, _, hservers, _⟩ := step_eq_some h
  rw [hservers]
  cases a with
  | udpServer m b =>
    obtain ⟨server, hserver, rfl⟩ := Option.map_eq_some_iff.mp hd
    by_cases hm : m = n
    · subst hm
      simp only [udpServerActs, if_pos, run_cons, hserver, Option.bind_some, run_nil, update_self]
    · simp only [udpServerActs, if_neg hm, run_nil, update_of_ne (Ne.symm hm)]
  | server m b =>
    obtain ⟨_, _, rfl⟩ := Option.map_eq_some_iff.mp hd
    rfl
  | popTest | popMove | sweep =>
    cases hd
    rfl

omit [DecidableEq ν] [DecidableEq ω] [DecidableEq θ] in
/-- Every push carries the node under whose name it is made. -/
theorem queueActs_fromFeeder (s : Relay ν ω θ) (a : Act ν ω θ) :
    ∀ b ∈ s.queueActs name a, Pipe.FromFeeder (fun p : Packet ν => name p.node) b := by
  intro b hb
  unfold queueActs at hb
  split at hb
  · split at hb
    · rw [List.mem_singleton.mp hb]
      exact rfl
    · exact absurd hb List.not_mem_nil
  · exact absurd hb List.not_mem_nil
  · obtain ⟨_, _, rfl⟩ := List.mem_map.mp hb
    exact rfl
  all_goals
    rw [List.mem_singleton.mp hb]
    trivial

end Relay

end DataPipeline
