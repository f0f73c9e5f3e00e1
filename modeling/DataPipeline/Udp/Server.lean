import DataPipeline.Core.Machine
import DataPipeline.Udp.Hops
import Mathlib.Logic.Function.Basic

/-!
# The UDP server node

`UdpServer::run` as executed by any number of workers of the pool at once: `recvfrom` into a
buffer of the worker, then `push`, with nothing that keeps another worker from coming in
between. A datagram is received once and is in one buffer until it is pushed, so none is lost
or doubled; only with a single worker are the messages in the order of the datagrams. The
string that is pushed ends behind the buffer where the buffer has no NUL; what stands there
is in the label.
-/

namespace DataPipeline.Udp

open Function (update update_self)
open Machine

/-- A datagram in the buffer of a worker, with its number among those received. -/
structure Buffered where
  index : Nat
  datagram : List UInt8
  deriving DecidableEq, Repr

/-- A message given to `push`, with the number of the datagram it was made of. -/
structure Message where
  index : Nat
  text : List UInt8
  deriving DecidableEq, Repr

/-- A server node with the workers inside its `run`. -/
structure Server (ω : Type) where
  /-- What a worker has received and not yet pushed. -/
  buffers : ω → Option Buffered
  /-- History: the datagrams that `recvfrom` has returned, in that order. -/
  received : List (List UInt8)
  /-- What was given to `DataManager::push`, in that order. -/
  pushed : List Message

namespace Server

variable {ω : Type}

/-- A new server. -/
def start : Server ω := ⟨fun _ => none, [], []⟩

/-- One step of a worker. -/
inductive Act (ω : Type) where
  /-- Worker `t` enters `run` and calls `recvfrom`; without a datagram `run` returns. -/
  | recvfrom (t : ω) (datagram : Option (List UInt8))
  /-- Worker `t` makes a string of its buffer and calls `push`, after which `run` returns.
  `beyond` stands behind the buffer. -/
  | push (t : ω) (beyond : List UInt8)
  deriving DecidableEq

/-- What a step gives to `push`. -/
def handed (s : Server ω) : Act ω → List Message
  | .recvfrom .. => []
  | .push t beyond =>
    (s.buffers t).toList.map fun b => ⟨b.index, stringAt (Udp.received b.datagram) beyond⟩

variable [DecidableEq ω]

/-- The server as a machine. -/
def step : Machine (Server ω) (Act ω)
  | s, .recvfrom t datagram =>
    match s.buffers t, datagram with
    | some _, _ => none
    | none, none => some s
    | none, some d => some
      { s with
        buffers := update s.buffers t (some ⟨s.received.length, d⟩)
        received := s.received ++ [d] }
  | s, .push t beyond =>
    match s.buffers t with
    | none => none
    | some _ => some
      { s with
        buffers := update s.buffers t none
        pushed := s.pushed ++ s.handed (.push t beyond) }

/-- The steps of the machine, one constructor for each branch. -/
inductive Step (s : Server ω) : Act ω → Server ω → Prop where
  | nothing {t} (ht : s.buffers t = none) : Step s (.recvfrom t none) s
  | recvfrom {t d} (ht : s.buffers t = none) :
      Step s (.recvfrom t (some d))
        { s with
          buffers := update s.buffers t (some ⟨s.received.length, d⟩)
          received := s.received ++ [d] }
  | push {t b beyond} (ht : s.buffers t = some b) :
      Step s (.push t beyond)
        { s with
          buffers := update s.buffers t none
          pushed := s.pushed ++ [⟨b.index, stringAt (Udp.received b.datagram) beyond⟩] }

/-- Every step of the machine is one of the branches. -/
theorem step_cases {s s' : Server ω} {a : Act ω} (h : step s a = some s') : Step s a s' := by
  cases a with
  | recvfrom t datagram =>
    simp only [step] at h
    split at h
    · cases h
    · rename_i ht
      cases h
      exact Step.nothing ht
    · rename_i ht
      cases h
      exact Step.recvfrom ht
  | push t beyond =>
    simp only [step] at h
    split at h
    · cases h
    · rename_i b ht
      simp only [handed, ht, Option.toList_some, List.map_cons, List.map_nil] at h
      cases h
      exact Step.push ht

/-- A step adds to the messages what it gives to `push`. -/
theorem Step.pushed {s s' : Server ω} {a : Act ω} (h : Step s a s') :
    s'.pushed = s.pushed ++ s.handed a := by
  cases h with
  | nothing | recvfrom => exact (List.append_nil _).symm
  | push ht => simp only [handed, ht, Option.toList_some, List.map_cons, List.map_nil]

/-- Where one call of `UdpServer::run` is defined, a worker that is left alone pushes in its two
steps what the call pushes, whatever stands behind the buffer. -/
theorem run_alone {s : Server ω} {t : ω} (ht : s.buffers t = none) {m_name : String}
    {d : List UInt8} {ran : List (DataManager.Op (List UInt8)) × Bool}
    (h : UdpServer.run m_name (some d) = some ran) (beyond : List UInt8) :
    ∃ s' msg, run step s [.recvfrom t (some d), .push t beyond] = some s' ∧
      s'.pushed = s.pushed ++ [⟨s.received.length, msg⟩] ∧ ran.1 = [.push msg m_name] := by
  obtain ⟨msg, hmsg, rfl⟩ := Option.map_eq_some_iff.mp h
  let u : Server ω := { s with
    buffers := update s.buffers t (some ⟨s.received.length, d⟩)
    received := s.received ++ [d] }
  have hu : step s (.recvfrom t (some d)) = some u := by simp only [step, ht, u]
  have hbuffer : u.buffers t = some ⟨s.received.length, d⟩ := update_self ..
  have hhanded : u.handed (.push t beyond) = [⟨s.received.length, msg⟩] := by
    simp only [handed, hbuffer, Option.toList_some, List.map_cons, List.map_nil,
      stringAt_of_cString hmsg beyond]
  let v : Server ω := { u with
    buffers := update u.buffers t none
    pushed := u.pushed ++ u.handed (.push t beyond) }
  have hv : step u (.push t beyond) = some v := by simp only [step, hbuffer, v]
  refine ⟨v, msg, ?_, congrArg (s.pushed ++ ·) hhanded, rfl⟩
  rw [run_cons, hu, Option.bind_some, run_cons, hv, Option.bind_some, run_nil]

/-! ### Each datagram is at one place -/

/-- The numbers of the datagrams whose messages were pushed. -/
def order (s : Server ω) : List Nat := s.pushed.map Message.index

/-- Every datagram is in one buffer or was pushed once, as a string of what it is. -/
structure Accounted (s : Server ω) : Prop where
  text : ∀ m ∈ s.pushed, ∃ d, s.received[m.index]? = some d ∧ StringOf d m.text
  buffer : ∀ t b, s.buffers t = some b → s.received[b.index]? = some b.datagram
  nodup : s.order.Nodup
  held : ∀ t b, s.buffers t = some b → b.index ∉ s.order
  apart : ∀ t t' b b', s.buffers t = some b → s.buffers t' = some b' → b.index = b'.index → t = t'
  all : ∀ k < s.received.length, k ∈ s.order ∨ ∃ t b, s.buffers t = some b ∧ b.index = k

omit [DecidableEq ω] in
theorem accounted_start : Accounted (start : Server ω) where
  text := fun _ h => absurd h List.not_mem_nil
  buffer := fun _ _ h => nomatch h
  nodup := List.nodup_nil
  held := fun _ _ h => nomatch h
  apart := fun _ _ _ _ h => nomatch h
  all := fun _ hk => absurd hk (Nat.not_lt_zero _)

omit [DecidableEq ω] in
theorem Accounted.order_lt {s : Server ω} (h : Accounted s) {k : Nat} (hk : k ∈ s.order) :
    k < s.received.length := by
  obtain ⟨m, hm, rfl⟩ := List.mem_map.mp hk
  obtain ⟨d, hd, _⟩ := h.text m hm
  exact (List.getElem?_eq_some_iff.mp hd).1

omit [DecidableEq ω] in
theorem Accounted.index_lt {s : Server ω} (h : Accounted s) {t : ω} {b : Buffered}
    (hb : s.buffers t = some b) : b.index < s.received.length :=
  (List.getElem?_eq_some_iff.mp (h.buffer t b hb)).1

theorem Accounted.step {s s' : Server ω} {a : Act ω} (h : Accounted s) (hs : Step s a s') :
    Accounted s' := by
  cases hs with
  | nothing => exact h
  | @recvfrom t d ht =>
    have hbuffers : ∀ u b, update s.buffers t (some ⟨s.received.length, d⟩) u = some b ↔
        (u = t ∧ b = ⟨s.received.length, d⟩) ∨ (u ≠ t ∧ s.buffers u = some b) := by
      intro u b
      by_cases hu : u = t
      · subst hu
        simp [eq_comm]
      · simp [hu]
    have hnew : ∀ {u b}, s.buffers u = some b → b.index ≠ s.received.length := fun hb =>
      Nat.ne_of_lt (h.index_lt hb)
    constructor
    · intro m hm
      obtain ⟨d', hd', htext⟩ := h.text m hm
      exact ⟨d', List.getElem?_append_left (List.getElem?_eq_some_iff.mp hd').1 ▸ hd', htext⟩
    · intro u b hb
      rcases (hbuffers u b).mp hb with ⟨_, rfl⟩ | ⟨_, hb⟩
      · exact List.getElem?_concat_length
      · exact (List.getElem?_append_left (h.index_lt hb)).trans (h.buffer u b hb)
    · exact h.nodup
    · intro u b hb hmem
      rcases (hbuffers u b).mp hb with ⟨_, rfl⟩ | ⟨_, hb⟩
      · exact Nat.lt_irrefl _ (h.order_lt hmem)
      · exact h.held u b hb hmem
    · intro u u' b b' hb hb' hindex
      rcases (hbuffers u b).mp hb with ⟨hu, rfl⟩ | ⟨_, hb⟩ <;>
        rcases (hbuffers u' b').mp hb' with ⟨hu', rfl⟩ | ⟨_, hb'⟩
      · exact hu.trans hu'.symm
      · exact absurd hindex.symm (hnew hb')
      · exact absurd hindex (hnew hb)
      · exact h.apart u u' b b' hb hb' hindex
    · intro k hk
      rw [List.length_append, List.length_singleton] at hk
      rcases Nat.lt_or_eq_of_le (Nat.le_of_lt_succ hk) with hk | rfl
      · refine (h.all k hk).imp_right ?_
        rintro ⟨u, b, hb, hindex⟩
        refine ⟨u, b, (hbuffers u b).mpr (Or.inr ⟨?_, hb⟩), hindex⟩
        rintro rfl
        cases ht.symm.trans hb
      · have hb := (hbuffers t ⟨s.received.length, d⟩).mpr (Or.inl ⟨rfl, rfl⟩)
        exact Or.inr ⟨t, _, hb, rfl⟩
  | @push t b beyond ht =>
    have hbuffers : ∀ u b', update s.buffers t none u = some b' ↔
        u ≠ t ∧ s.buffers u = some b' := by
      intro u b'
      by_cases hu : u = t
      · subst hu
        simp
      · simp [hu]
    let msg : Message := ⟨b.index, stringAt (Udp.received b.datagram) beyond⟩
    have horder : (s.pushed ++ [msg]).map Message.index = s.order ++ [b.index] := List.map_append
    constructor
    · intro m hm
      rcases List.mem_append.mp hm with hm | hm
      · exact h.text m hm
      · rw [List.mem_singleton.mp hm]
        exact ⟨b.datagram, h.buffer t b ht, stringOf_stringAt b.datagram beyond⟩
    · exact fun u b' hb => h.buffer u b' ((hbuffers u b').mp hb).2
    · rw [order, horder]
      exact List.Nodup.append h.nodup (List.nodup_singleton _)
        (List.disjoint_singleton.mpr (h.held t b ht))
    · intro u b' hb
      obtain ⟨hu, hb⟩ := (hbuffers u b').mp hb
      rw [order, horder, List.mem_append, List.mem_singleton, not_or]
      exact ⟨h.held u b' hb, fun he => hu (h.apart u t b' b hb ht he)⟩
    · intro u u' b₁ b₂ hb hb'
      exact h.apart u u' b₁ b₂ ((hbuffers u b₁).mp hb).2 ((hbuffers u' b₂).mp hb').2
    · intro k hk
      rw [order, horder, List.mem_append, List.mem_singleton]
      rcases h.all k hk with hk | ⟨u, b', hb, rfl⟩
      · exact Or.inl (Or.inl hk)
      · by_cases hu : u = t
        · subst hu
          obtain rfl := Option.some.inj (ht.symm.trans hb)
          exact Or.inl (Or.inr rfl)
        · exact Or.inr ⟨u, b', (hbuffers u b').mpr ⟨hu, hb⟩, rfl⟩

theorem run_accounted {acts : List (Act ω)} {s : Server ω} (hrun : run step start acts = some s) :
    Accounted s :=
  run_invariant (fun _ _ _ h hs => h.step (step_cases hs)) accounted_start hrun

/-! ### A single worker -/

/-- What a single worker has pushed, then what is in its buffer, is what was received, in
order. -/
theorem run_inOrder (hsingle : ∀ t t' : ω, t = t') {acts : List (Act ω)} {s : Server ω}
    (hrun : run step start acts = some s) (t : ω) :
    s.order ++ (s.buffers t).toList.map Buffered.index = List.range s.received.length := by
  refine run_invariant (I := fun s : Server ω =>
    s.order ++ (s.buffers t).toList.map Buffered.index = List.range s.received.length) ?_ rfl hrun
  intro u a v hu h
  cases step_cases h with
  | nothing => exact hu
  | @recvfrom t' d ht =>
    obtain rfl := hsingle t t'
    rw [ht, Option.toList_none, List.map_nil, List.append_nil] at hu
    simp only [update_self, Option.toList_some, List.map_cons, List.map_nil, List.length_append,
      List.length_singleton, List.range_succ, ← hu]
    rfl
  | @push t' b beyond ht =>
    obtain rfl := hsingle t t'
    rw [ht] at hu
    simp only [update_self, Option.toList_none, List.map_nil, List.append_nil, ← hu]
    exact List.map_append

/-- With two workers the datagram that was received second may be pushed first. -/
example : (run step (start : Server Bool)
    [.recvfrom true (some [97]), .recvfrom false (some [98]), .push false [], .push true []]).map
      order = some [1, 0] := rfl

end Server

end DataPipeline.Udp
