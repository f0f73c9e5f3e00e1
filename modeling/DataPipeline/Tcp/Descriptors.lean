import DataPipeline.Tcp.PollArray
import Mathlib.Data.Finset.Card
import Mathlib.Data.Finset.Dedup

/-!
# Descriptors that stay open

`accept` opens a descriptor, and nothing in the server closes one: what
`remConnectedClient` takes out of the list stays open for good. The list and the open
descriptors are the same until the loop of `checkRx` takes out the first client.
-/

namespace DataPipeline.Tcp

open Machine

variable {θ : Type} [DecidableEq θ]

/-- The process has the descriptor open: `accept` has returned it. -/
def Open (s : Tcp θ) (fd : Nat) : Prop := (s.conns fd).isSome

/-- The list has no duplicates and lists exactly the open descriptors. -/
structure SocketsMatch (s : Tcp θ) : Prop where
  nodup : s.clients.Nodup
  listed_iff_open : ∀ fd, fd ∈ s.clients ↔ s.Open fd

/-- The descriptor that the step opens. -/
def openedBy : Act θ → Option Nat
  | .accept _ fd => fd
  | _ => none

/-- The descriptor that a round of the loop gives to `remConnectedClient`. -/
def removedBy (s : Tcp θ) : Act θ → Option Nat
  | .scan t =>
    match s.workers t with
    | .scan pollfds i => do
      let slot ← pollfds[i]?
      let revents ← slot.revents
      if i < s.clients.length ∧ hasPeerHungup revents then slot.fd else none
    | _ => none
  | _ => none

/-- The step takes nobody out of the list. -/
def KeepsClients (s : Tcp θ) (a : Act θ) : Prop := ∀ fd ∈ s.removedBy a, fd ∉ s.clients

instance (s : Tcp θ) (a : Act θ) : Decidable (KeepsClients s a) :=
  inferInstanceAs (Decidable (∀ fd ∈ s.removedBy a, fd ∉ s.clients))

omit [DecidableEq θ] in
theorem open_setConn {s : Tcp θ} {fd fd' : Nat} {conn : Conn} :
    (s.setConn fd conn).Open fd' ↔ fd' = fd ∨ s.Open fd' := by
  simp only [Open, setConn, Function.update_apply]
  split
  · rename_i he
    simp [he]
  · rename_i he
    simp [he]

omit [DecidableEq θ] in
/-- A connection that is there already may change. -/
theorem open_setConn_of_some {s : Tcp θ} {fd fd' : Nat} {conn conn' : Conn}
    (h : s.conns fd = some conn) : (s.setConn fd conn').Open fd' ↔ s.Open fd' := by
  rw [open_setConn, or_iff_right_iff_imp]
  rintro rfl
  rw [Open, h, Option.isSome_some]

/-- A descriptor is opened by the `accept` that returns it, and never closed. -/
theorem Step.open_iff {s s' : Tcp θ} {a : Act θ} (h : Step s a s') (fd : Nat) :
    s'.Open fd ↔ s.Open fd ∨ openedBy a = some fd := by
  have hkeep : ∀ {b : Act θ}, openedBy b = none → (s.Open fd ↔ s.Open fd ∨ openedBy b = some fd) :=
    fun hb => by simp [hb]
  cases h with
  | peerSend hc | peerClose hc => exact (open_setConn_of_some hc).trans (hkeep rfl)
  | read _ hc => exact (open_setConn_of_some hc).trans (hkeep rfl)
  | @accept t new =>
    refine (open_setConn (s := s)).trans ?_
    rw [or_comm, openedBy, Option.some.injEq, eq_comm]
  | acceptNone => exact hkeep rfl
  | fill | pollFailed | pollTimeout | pollReady | remove | serve | skip | leave | readEnd | push =>
    exact hkeep rfl

omit [DecidableEq θ] in
theorem openedBy_of_removedBy {s : Tcp θ} {a : Act θ} {fd : Nat} (h : s.removedBy a = some fd) :
    openedBy a = none := by
  cases a with
  | scan => rfl
  | peerSend | peerClose | accept | fill | poll | read | push => cases h

/-- The list gains what `accept` returns and loses what the loop removes. -/
theorem Step.mem_clients_iff {s s' : Tcp θ} {a : Act θ} (h : Step s a s') (fd : Nat) :
    fd ∈ s'.clients ↔ (fd ∈ s.clients ∨ openedBy a = some fd) ∧ s.removedBy a ≠ some fd := by
  cases h with
  | accept => simp [goto, openedBy, removedBy, eq_comm]
  | @remove t _ _ _ _ gone ht hi hslot hr hup hfd =>
    have hgone : s.removedBy (.scan t) = some gone := by
      simp [removedBy, ht, hslot, hr, hi, hup, hfd]
    simp [goto, remConnectedClient, openedBy, hgone, eq_comm (a := gone)]
  | @serve t _ _ _ _ _ ht hi hslot hr hup | @skip t _ _ _ _ ht hi hslot hr hup =>
    have hno : s.removedBy (.scan t) ≠ some fd := by simp [removedBy, ht, hslot, hr, hup]
    simp [goto, openedBy, hno]
  | @leave t pollfds i ht hi =>
    have hno : s.removedBy (.scan t) ≠ some fd := by
      simp [removedBy, ht, Nat.not_lt.mpr hi]
    simp [goto, openedBy, hno]
  | peerSend | peerClose | acceptNone | fill | pollFailed | pollTimeout | pollReady | readEnd | read
    | push => simp [goto, setConn, openedBy, removedBy]

theorem Step.nodup_clients {s s' : Tcp θ} {a : Act θ} (h : Step s a s') (hs : SocketsMatch s) :
    s'.clients.Nodup := by
  cases h with
  | accept _ hnew =>
    refine List.nodup_append.mpr ⟨hs.nodup, List.nodup_singleton _, ?_⟩
    rintro fd hfd _ hm rfl
    have hopen := (hs.listed_iff_open fd).mp hfd
    rw [List.mem_singleton.mp hm, Open, hnew] at hopen
    cases hopen
  | remove => exact hs.nodup.filter _
  | peerSend | peerClose | acceptNone | fill | pollFailed | pollTimeout | pollReady | serve | skip
    | leave | readEnd | read | push => exact hs.nodup

/-- The list goes on to match unless a client is taken out of it. -/
theorem Step.socketsMatch_iff {s s' : Tcp θ} {a : Act θ} (h : Step s a s')
    (hs : SocketsMatch s) : SocketsMatch s' ↔ s.KeepsClients a := by
  constructor
  · intro hs' fd hgone hfd
    have hopen : s'.Open fd := (h.open_iff fd).mpr (.inl ((hs.listed_iff_open fd).mp hfd))
    exact ((h.mem_clients_iff fd).mp ((hs'.listed_iff_open fd).mpr hopen)).2 hgone
  · intro hkeep
    refine ⟨h.nodup_clients hs, fun fd => ?_⟩
    rw [h.mem_clients_iff, h.open_iff, hs.listed_iff_open, and_iff_left_iff_imp]
    rintro (hopen | hnew) hgone
    · exact hkeep fd hgone ((hs.listed_iff_open fd).mpr hopen)
    · rw [openedBy_of_removedBy hgone] at hnew
      cases hnew

omit [DecidableEq θ] in
/-- Where the list matches, no more descriptors are open than it lists. -/
theorem SocketsMatch.card_le {s : Tcp θ} (h : SocketsMatch s) {fds : Finset Nat}
    (hfds : ∀ fd ∈ fds, s.Open fd) : fds.card ≤ s.clients.length := by
  have hsub : fds ⊆ s.clients.toFinset := fun fd hfd =>
    List.mem_toFinset.mpr ((h.listed_iff_open fd).mpr (hfds fd hfd))
  exact (Finset.card_le_card hsub).trans s.clients.toFinset_card_le

/-- A descriptor that is open and in no list is never listed again, and never closed. -/
theorem run_leaked {s s' : Tcp θ} {acts : List (Act θ)} {fd : Nat} (hopen : s.Open fd)
    (hout : fd ∉ s.clients) (hrun : run step s acts = some s') : s'.Open fd ∧ fd ∉ s'.clients := by
  refine run_invariant (I := fun s => s.Open fd ∧ fd ∉ s.clients) ?_ ⟨hopen, hout⟩ hrun
  rintro u a v ⟨hu, hfd⟩ huv
  have hst := step_cases huv
  refine ⟨(hst.open_iff fd).mpr (.inl hu), fun hmem => ?_⟩
  rcases ((hst.mem_clients_iff fd).mp hmem).1 with hm | hnew
  · exact hfd hm
  · cases hst with
    | accept _ hfree =>
      cases hnew
      rw [Open, hfree] at hu
      cases hu
    | acceptNone | peerSend | peerClose | fill | pollFailed | pollTimeout | pollReady | remove
      | serve | skip | leave | readEnd | read | push => cases hnew

/-- In every state of a run the list and the open descriptors are the same exactly when no
round of the loop takes a client out of the list. -/
theorem sockets_match_iff (acts : List (Act θ)) {s : Tcp θ} (h : run step start acts = some s) :
    Always step SocketsMatch start acts ↔ Meets step KeepsClients start acts := by
  refine always_iff_meets (I := fun _ => True) ?_ trivial ⟨List.nodup_nil, fun fd => ?_⟩ h
  · exact fun u a v _ hu huv => ⟨trivial, (step_cases huv).socketsMatch_iff hu⟩
  · simp [Open, start]

/-- A client that connects and stays. -/
theorem sockets_match_connected :
    Always step SocketsMatch (start : Tcp Unit)
      [.accept () (some 5), .fill (), .poll () (.ready [POLLIN]), .scan ()] :=
  (sockets_match_iff _ rfl).mpr (by decide)

/-- A client that hangs up leaves the list, and its descriptor stays open. -/
theorem descriptor_left_open :
    ∃ s, run step (start : Tcp Unit) [.accept () (some 5), .fill (), .poll () (.ready [POLLHUP]),
      .scan ()] = some s ∧ s.clients = [] ∧ s.Open 5 ∧ ¬ SocketsMatch s := by
  refine ⟨_, rfl, rfl, rfl, fun h => ?_⟩
  exact List.not_mem_nil ((h.listed_iff_open 5).mpr rfl)

end DataPipeline.Tcp
