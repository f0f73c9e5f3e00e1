import DataPipeline.Tcp.Order

/-!
# What is lost when a peer hangs up

`checkRx` looks for a hang-up before it looks for data, so a connection is removed with
whatever was still unread. For a single worker the bytes of a connection are either in
its messages, in the worker's hands or unread, and at a removal the hands are empty: the
messages are the whole stream exactly when nothing but NUL bytes was left unread.
-/

namespace DataPipeline.Tcp

open Machine

/-- Everything the peer of connection `fd` has sent. -/
def sent {θ : Type} (s : Tcp θ) (fd : Nat) : List UInt8 := ((s.conns fd).map Conn.sent).getD []

/-- What is still unread on connection `fd`. -/
def unread {θ : Type} (s : Tcp θ) (fd : Nat) : List UInt8 :=
  ((s.conns fd).map Conn.unread).getD []

/-- The text of connection `fd` in the hands of the worker. -/
def hand (s : Tcp Unit) (fd : Nat) : List UInt8 :=
  match s.workers () with
  | .push _ _ e => if e.fd = fd then e.text else []
  | _ => []

/-- The bytes of every connection are in its messages, in the worker's hands or unread. -/
def Stream (s : Tcp Unit) : Prop :=
  ∀ fd, (s.messages fd).flatten ++ s.hand fd ++ strip (s.unread fd) = strip (s.sent fd)

theorem sent_setConn (s : Tcp Unit) (fd : Nat) (conn : Conn) (fd' : Nat) :
    (s.setConn fd conn).sent fd' = if fd' = fd then conn.sent else s.sent fd' :=
  s.getD_setConn Conn.sent [] fd conn fd'

theorem unread_setConn (s : Tcp Unit) (fd : Nat) (conn : Conn) (fd' : Nat) :
    (s.setConn fd conn).unread fd' = if fd' = fd then conn.unread else s.unread fd' :=
  s.getD_setConn Conn.unread [] fd conn fd'

theorem sent_eq {s : Tcp Unit} {fd : Nat} {conn : Conn} (h : s.conns fd = some conn) :
    s.sent fd = conn.sent ∧ s.unread fd = conn.unread := by
  rw [sent, unread, h]
  exact ⟨rfl, rfl⟩

theorem hand_goto (s : Tcp Unit) (place : Place) (fd : Nat) :
    (s.goto () place).hand fd =
      match place with
      | .push _ _ e => if e.fd = fd then e.text else []
      | _ => [] := by
  simp only [hand, goto, Function.update_self]

theorem hand_eq_nil {s : Tcp Unit} {place : Place} (ht : s.workers () = place)
    (h : ∀ pollfds i e, place ≠ .push pollfds i e) (fd : Nat) : s.hand fd = [] := by
  unfold hand
  split
  · rename_i he
    exact absurd (ht.symm.trans he) (h _ _ _)
  · rfl

/-- A step that pushes nothing and leaves the worker's hands and the streams as they are. -/
theorem Stream.frame {s s' : Tcp Unit} (h : Stream s) (hp : s'.pushed = s.pushed)
    (hh : ∀ fd, s'.hand fd = s.hand fd) (hu : ∀ fd, s'.unread fd = s.unread fd)
    (hs : ∀ fd, s'.sent fd = s.sent fd) : Stream s' := by
  intro fd
  rw [messages, hp, hh, hu, hs]
  exact h fd

theorem Stream.peerSend {s : Tcp Unit} (h : Stream s) {fd : Nat} {conn : Conn}
    (hc : s.conns fd = some conn) (bytes : List UInt8) :
    Stream (s.setConn fd (conn.afterSend bytes)) := by
  intro fd'
  have hold : (s.messages fd').flatten ++ s.hand fd' ++ strip (s.unread fd') = strip (s.sent fd') :=
    h fd'
  rw [sent_setConn, unread_setConn]
  split
  · rename_i he
    subst he
    rw [(sent_eq hc).1, (sent_eq hc).2] at hold
    simp only [Conn.afterSend, strip_append]
    rw [← hold, List.append_assoc _ (strip conn.unread)]
    rfl
  · exact hold

theorem Stream.read {s : Tcp Unit} (h : Stream s) {pollfds : List PollFd} {i fd : Nat}
    {conn : Conn} {result : ReadResult} {chunk : List UInt8}
    (ht : s.workers () = .read pollfds i fd) (hc : s.conns fd = some conn)
    (hr : readChunk conn result = some (some chunk)) :
    Stream ((s.setConn fd (conn.afterRead chunk)).goto ()
      (.push pollfds i ⟨fd, conn.chunks.length, strip chunk⟩)) := by
  intro fd'
  have hold := h fd'
  rw [hand_eq_nil ht nofun, List.append_nil] at hold
  have hsent : ((s.setConn fd (conn.afterRead chunk)).goto ()
      (.push pollfds i ⟨fd, conn.chunks.length, strip chunk⟩)).sent fd' =
        if fd' = fd then conn.sent else s.sent fd' := sent_setConn ..
  have hunread : ((s.setConn fd (conn.afterRead chunk)).goto ()
      (.push pollfds i ⟨fd, conn.chunks.length, strip chunk⟩)).unread fd' =
        if fd' = fd then conn.unread.drop chunk.length else s.unread fd' := unread_setConn ..
  rw [hsent, hunread, hand_goto]
  by_cases he : fd' = fd
  · subst he
    rw [(sent_eq hc).1, (sent_eq hc).2, ← readChunk_prefix hr, strip_append] at hold
    simp only [ite_true]
    rw [List.append_assoc]
    exact hold
  · simp only [he, Ne.symm he, ite_false, List.append_nil]
    exact hold

theorem Stream.push {s : Tcp Unit} (h : Stream s) {pollfds : List PollFd} {i : Nat} {e : Entry}
    (ht : s.workers () = .push pollfds i e) :
    Stream ({ s with pushed := s.pushed ++ [e] }.goto () (.scan pollfds (i + 1))) := by
  intro fd
  have hold := h fd
  have hhand : s.hand fd = if e.fd = fd then e.text else [] := by
    simp only [hand, ht]
  have hmessages : ({ s with pushed := s.pushed ++ [e] }.goto () (.scan pollfds (i + 1))).messages
      fd = s.messages fd ++ if e.fd = fd then [e.text] else [] := by
    simp only [messages, goto, List.filter_append, List.map_append, List.filter_singleton]
    by_cases he : e.fd = fd <;> simp [he]
  rw [hmessages, hand_goto, List.flatten_append, List.append_nil]
  rw [hhand] at hold
  refine Eq.trans ?_ hold
  refine congrArg (· ++ _) (congrArg (_ ++ ·) ?_)
  split
  · exact List.flatten_singleton
  · rfl

/-- Every step keeps every byte of every stream in its place. -/
theorem Stream.step {s s' : Tcp Unit} {a : Act Unit} (h : Stream s) (hs : Step s a s') :
    Stream s' := by
  cases hs with
  | peerSend hc _ => exact h.peerSend hc _
  | @peerClose fd conn hc =>
    refine h.frame rfl (fun _ => rfl) (fun fd' => ?_) fun fd' => ?_
    · rw [unread_setConn]
      split
      · rename_i he
        exact he ▸ (sent_eq hc).2.symm
      · rfl
    · rw [sent_setConn]
      split
      · rename_i he
        exact he ▸ (sent_eq hc).1.symm
      · rfl
  | @accept t fd ht hfd =>
    refine h.frame rfl (fun fd' => ?_) (fun fd' => ?_) fun fd' => ?_
    · rw [hand_goto, hand_eq_nil ht nofun]
    · apply (unread_setConn s fd .new fd').trans
      split
      · rename_i he
        rw [he, unread, hfd]
        rfl
      · rfl
    · apply (sent_setConn s fd .new fd').trans
      split
      · rename_i he
        rw [he, sent, hfd]
        rfl
      · rfl
  | acceptNone ht | fill ht | pollFailed ht | pollTimeout ht | pollReady ht | remove ht | serve ht
    | skip ht | leave ht | readEnd ht =>
    refine h.frame rfl (fun fd' => ?_) (fun _ => rfl) fun _ => rfl
    rw [hand_goto, hand_eq_nil ht nofun]
  | read ht hc hr => exact h.read ht hc hr
  | push ht => exact h.push ht

theorem run_stream {acts : List (Act Unit)} {s : Tcp Unit}
    (hrun : run step start acts = some s) : Stream s :=
  run_invariant (fun _ _ _ h hs => h.step (step_cases hs)) (fun _ => rfl) hrun

/-- Only the hang-up branch of `checkRx` takes a descriptor out of the list. -/
theorem Step.removes {s s' : Tcp Unit} {a : Act Unit} (h : Step s a s') {fd : Nat}
    (hfd : fd ∈ s.clients) (hgone : fd ∉ s'.clients) :
    (∃ pollfds i, s.workers () = .scan pollfds i) ∧ s'.pushed = s.pushed ∧ s'.conns = s.conns := by
  cases h with
  | remove ht => exact ⟨⟨_, _, ht⟩, rfl, rfl⟩
  | accept => exact absurd (List.mem_append_left _ hfd) hgone
  | peerSend | peerClose | acceptNone | fill | pollFailed | pollTimeout | pollReady | serve | skip
    | leave | readEnd | read | push => exact absurd hfd hgone

/-- What a poll must report to be the one of the operating system: the hang-up of a peer that
has closed, together with `POLLIN` while bytes are unread, and no error. -/
def Reports (conn : Conn) (revents : UInt16) : Prop :=
  (revents &&& POLLRDHUP ≠ 0 ↔ conn.closed = true) ∧
    (conn.unread ≠ [] → revents &&& POLLIN ≠ 0) ∧ revents &&& (POLLHUP ||| POLLERR) = 0

instance (conn : Conn) (revents : UInt16) : Decidable (Reports conn revents) :=
  inferInstanceAs (Decidable (_ ∧ _ ∧ _))

/-- What a poll reports for one descriptor is true of its connection. -/
def ReportsAt (s : Tcp Unit) (p : Nat × UInt16) : Prop :=
  ∀ conn ∈ s.conns p.1, Reports conn p.2

instance (s : Tcp Unit) (p : Nat × UInt16) : Decidable (ReportsAt s p) :=
  match h : s.conns p.1 with
  | none => isTrue fun _ hc => nomatch h.symm.trans hc
  | some conn => decidable_of_iff (Reports conn p.2)
      ⟨fun hr _ hc => Option.some.inj (h.symm.trans hc) ▸ hr, fun hr => hr conn h⟩

/-- Every successful poll reports the state of the connections. -/
def PollsTruly (s : Tcp Unit) : Act Unit → Prop
  | .poll _ (.ready revents) => ∀ p ∈ s.clients.zip revents, ReportsAt s p
  | _ => True

instance (s : Tcp Unit) : (a : Act Unit) → Decidable (PollsTruly s a)
  | .poll _ (.ready revents) =>
    inferInstanceAs (Decidable (∀ p ∈ s.clients.zip revents, ReportsAt s p))
  | .poll _ .failed | .peerSend .. | .peerClose _ | .accept .. | .fill _ | .scan _ | .read ..
  | .push _ => isTrue trivial

/-- When a single worker removes a connection, the messages pushed for it are the whole stream
its peer has sent, stripped, exactly if nothing but NUL bytes is left unread. -/
theorem removed_complete_iff {acts : List (Act Unit)} {s s' : Tcp Unit} {a : Act Unit}
    (hrun : run step start acts = some s) (hstep : step s a = some s') {fd : Nat}
    (hfd : fd ∈ s.clients) (hgone : fd ∉ s'.clients) :
    (s'.messages fd).flatten = strip (s'.sent fd) ↔ ∀ b ∈ s.unread fd, b = 0 := by
  obtain ⟨⟨pollfds, i, ht⟩, hpushed, hconns⟩ := (step_cases hstep).removes hfd hgone
  have hstream := run_stream hrun fd
  have hmessages : s'.messages fd = s.messages fd := by rw [messages, hpushed, messages]
  have hsent : s'.sent fd = s.sent fd := by rw [sent, hconns, sent]
  have hhand : s.hand fd = [] := by simp only [hand, ht]
  rw [hhand, List.append_nil] at hstream
  rw [hmessages, hsent, ← hstream, ← strip_eq_nil_iff]
  exact ⟨fun h => List.append_right_eq_self.mp h.symm, fun h => by rw [h, List.append_nil]⟩

/-- A client sends `a` and NUL, the server reads both, the client closes. -/
def readThenClose : List (Act Unit) :=
  [.accept () (some 4), .peerSend 4 [97, 0], .fill (), .poll () (.ready [0x001]), .scan (),
    .read () (.bytes 2), .push (), .scan (), .peerClose 4, .accept () none, .fill (),
    .poll () (.ready [0x2000])]

/-- A client sends `a` and closes before the server polls. -/
def closeThenPoll : List (Act Unit) :=
  [.accept () (some 4), .peerSend 4 [97], .peerClose 4, .fill (), .poll () (.ready [0x2001])]

/-- The message that was read before the hang-up was reported is kept. -/
theorem removed_complete_read_before : ∃ s s' : Tcp Unit,
    run step start readThenClose = some s ∧ step s (.scan ()) = some s' ∧ 4 ∈ s.clients ∧
      4 ∉ s'.clients ∧ (s'.messages 4).flatten = [97] := by
  obtain ⟨s, s', hrun, hstep, hfd, hgone, hunread, hsent⟩ : ∃ s s' : Tcp Unit,
      run step start readThenClose = some s ∧ step s (.scan ()) = some s' ∧ 4 ∈ s.clients ∧
        4 ∉ s'.clients ∧ s.unread 4 = [] ∧ s'.sent 4 = [97, 0] :=
    ⟨_, _, rfl, rfl, by decide, by decide, rfl, rfl⟩
  have hzero : ∀ b ∈ s.unread 4, b = 0 := fun b hb => by
    rw [hunread] at hb
    exact absurd hb List.not_mem_nil
  refine ⟨s, s', hrun, hstep, hfd, hgone, ?_⟩
  rw [(removed_complete_iff hrun hstep hfd hgone).mpr hzero, hsent]
  decide

/-- A single worker loses the message of a client that closes before the poll, although the
poll reports the data together with the hang-up. -/
theorem unread_lost_at_hang_up : ¬ ∀ (acts : List (Act Unit)) (s s' : Tcp Unit) (a : Act Unit)
    (fd : Nat), run step start (acts ++ [a]) = some s' → Meets step PollsTruly start (acts ++ [a]) →
      run step start acts = some s → fd ∈ s.clients → fd ∉ s'.clients →
      (s'.messages fd).flatten = strip (s'.sent fd) := by
  intro h
  obtain ⟨s, s', hrun, hs, hfd, hgone, hlost⟩ : ∃ s s' : Tcp Unit,
      run step start (closeThenPoll ++ [.scan ()]) = some s' ∧
        run step start closeThenPoll = some s ∧ 4 ∈ s.clients ∧ 4 ∉ s'.clients ∧
        (s'.messages 4).flatten ≠ strip (s'.sent 4) :=
    ⟨_, _, rfl, rfl, by decide, by decide, by decide⟩
  exact hlost (h _ s s' _ 4 hrun (by decide) hs hfd hgone)

end DataPipeline.Tcp
