import DataPipeline.Tcp.Pass

/-!
# Clients that are gone

A pass may end before it has visited all clients, but it always comes to the first one
that has hung up, and to its end. Where `poll` reports just the closed peers, every `run`
takes out one of them at least and nobody else, until none is left. The number of closed
peers that may remain goes down by one with every call of `accept`, that is with every `run`
begun.
-/

namespace DataPipeline.Tcp

open Machine ShrinkingLoop

/-- The peer behind a descriptor has closed the connection. -/
def closed (s : Tcp Unit) (fd : Nat) : Bool := ((s.conns fd).map Conn.closed).getD false

/-- The clients in the list that are still connected, in its order. -/
def openFds (s : Tcp Unit) : List Nat := s.clients.filter fun fd => !s.closed fd

/-- How many clients in the list are gone. -/
def closedCount (s : Tcp Unit) : Nat := s.clients.countP s.closed

/-- The client that a step accepts. -/
def acceptedBy : Act Unit → List Nat
  | .accept _ (some fd) => [fd]
  | _ => []

/-- The number of iterations of `run` that these steps begin. -/
def iterations (acts : List (Act Unit)) : Nat := acts.countP fun a => !a.goesOn

/-- No `poll` fails, each shows a hang-up for just the peers that have closed, and no peer
closes any more. -/
def PollsShowClosed (s : Tcp Unit) : Act Unit → Prop
  | .poll _ (.ready revents) => ∀ z ∈ s.clients.zip revents, hungUp z = s.closed z.1
  | .poll _ .failed => False
  | .peerClose _ => False
  | _ => True

instance (s : Tcp Unit) : (a : Act Unit) → Decidable (PollsShowClosed s a)
  | .poll _ (.ready revents) =>
    inferInstanceAs (Decidable (∀ z ∈ s.clients.zip revents, hungUp z = s.closed z.1))
  | .poll _ .failed | .peerClose _ => isFalse id
  | .peerSend .. | .accept .. | .fill _ | .scan _ | .read .. | .push _ => isTrue trivial

/-- The clients are different and connected. -/
structure Connected (s : Tcp Unit) : Prop where
  nodup : s.clients.Nodup
  conn : ∀ fd ∈ s.clients, (s.conns fd).isSome

/-! ### What a step leaves as it is -/

theorem isSome_setConn {s : Tcp Unit} {fd fd' : Nat} (conn : Conn) (h : (s.conns fd').isSome) :
    ((s.setConn fd conn).conns fd').isSome := by
  simp only [setConn, Function.update_apply]
  split
  · rfl
  · exact h

theorem closed_setConn {s : Tcp Unit} {fd : Nat} {conn : Conn} (hc : s.conns fd = some conn)
    (conn' : Conn) (h : conn'.closed = conn.closed) (fd' : Nat) :
    (s.setConn fd conn').closed fd' = s.closed fd' := by
  simp only [closed, setConn, Function.update_apply]
  split
  · rename_i he
    rw [he, hc, Option.map_some, Option.map_some, h]
  · rfl

/-- The peer of a new connection has not closed it. -/
theorem closed_accepted (s : Tcp Unit) (fd : Nat) (t : Unit) :
    ({ s.setConn fd .new with clients := s.clients ++ [fd] }.goto t
      (.fill newPollFds)).closed fd = false := by
  simp [closed, goto, setConn, Conn.new]

/-- A connection stays, and open if it was. -/
theorem Step.conn {s s' : Tcp Unit} {a : Act Unit} (h : Step s a s') (ha : PollsShowClosed s a)
    {fd : Nat} (hfd : (s.conns fd).isSome) :
    (s'.conns fd).isSome ∧ s'.closed fd = s.closed fd := by
  cases h with
  | @peerSend _ bytes conn hc =>
    exact ⟨isSome_setConn _ hfd, closed_setConn hc (conn.afterSend bytes) rfl fd⟩
  | peerClose => exact ha.elim
  | @accept t new ht hnew =>
    have hne : fd ≠ new := by
      rintro rfl
      rw [hnew] at hfd
      cases hfd
    refine ⟨isSome_setConn .new hfd, ?_⟩
    simp only [closed, goto, setConn, Function.update_of_ne hne]
  | @read _ _ _ _ conn _ chunk _ hc =>
    exact ⟨isSome_setConn _ hfd, closed_setConn hc (conn.afterRead chunk) rfl fd⟩
  | acceptNone | fill | pollFailed | pollTimeout | pollReady | remove | serve | skip | leave
    | readEnd | push => exact ⟨hfd, rfl⟩

theorem Connected.step {s s' : Tcp Unit} {a : Act Unit} (h : Connected s) (hst : Step s a s')
    (ha : PollsShowClosed s a) : Connected s' := by
  have hconn : ∀ fd ∈ s.clients, (s'.conns fd).isSome := fun fd hfd =>
    (hst.conn ha (h.conn fd hfd)).1
  cases hst with
  | @accept t fd ht hnew =>
    constructor
    · refine List.nodup_append.mpr ⟨h.nodup, by simp, ?_⟩
      rintro fd' hfd' _ hm rfl
      have := h.conn fd' hfd'
      rw [List.mem_singleton.mp hm, hnew] at this
      cases this
    · intro fd' hfd'
      rcases List.mem_append.mp hfd' with hm | hm
      · exact hconn fd' hm
      · rw [List.mem_singleton.mp hm]
        simp [goto, setConn]
  | remove =>
    exact ⟨h.nodup.sublist List.filter_sublist, fun fd hfd => hconn fd (List.mem_of_mem_filter hfd)⟩
  | peerClose => exact ha.elim
  | peerSend | acceptNone | fill | pollFailed | pollTimeout | pollReady | serve | skip | leave
    | readEnd | read | push => exact ⟨h.nodup, hconn⟩

/-- Only an `accept` and a removal touch the list, and a removal keeps those who are open if
it takes out one who is not. -/
theorem Step.openFds {s s' : Tcp Unit} {a : Act Unit} (hst : Step s a s') (h : Connected s)
    (ha : PollsShowClosed s a)
    (hgone : ∀ fd ∈ s.clients, fd ∉ s'.clients → s.closed fd = true) :
    s'.openFds = s.openFds ++ acceptedBy a := by
  have hclosed : ∀ fd ∈ s.clients, s'.closed fd = s.closed fd := fun fd hfd =>
    (hst.conn ha (h.conn fd hfd)).2
  have hfilter : (s.clients.filter fun fd => !s'.closed fd) = s.openFds :=
    List.filter_congr fun fd hfd => by rw [hclosed fd hfd]
  cases hst with
  | @accept t fd ht hnew =>
    refine (List.filter_append ..).trans ?_
    rw [hfilter]
    simp [closed_accepted s fd t, acceptedBy]
  | @remove t _ _ _ _ fd =>
    rw [acceptedBy, List.append_nil, ← hfilter]
    · refine (List.filter_filter ..).trans (List.filter_congr fun fd' hfd' => ?_)
      by_cases he : fd' = fd
      · subst he
        have hup := hgone fd' hfd' (by simp [goto, remConnectedClient])
        rw [hclosed fd' hfd', hup]
        rfl
      · simp [he]
    · exact fun _ _ he => by cases he
  | peerClose => exact ha.elim
  | peerSend | acceptNone | fill | pollFailed | pollTimeout | pollReady | serve | skip | leave
    | readEnd | read | push => exact hfilter.trans (List.append_nil _).symm

/-! ### How many closed peers may remain -/

/-- The entries of a pass are those of clients, with a hang-up just where the peer has
closed. -/
structure PolledTruly (s : Tcp Unit) (polled : List (Nat × UInt16)) : Prop where
  nodup : (polled.map Prod.fst).Nodup
  closed : ∀ z ∈ polled, hungUp z = s.closed z.1
  conn : ∀ z ∈ polled, (s.conns z.1).isSome

/-- At most `b` closed peers are in the list, or will be after the pass that has begun. -/
def Remaining (s : Tcp Unit) (b : Nat) : Place → Prop
  | .outside => s.closedCount ≤ b
  | .fill pollfds => pollfds = newPollFds ∧ s.closedCount ≤ b + 1
  | .poll pollfds => pollfds = pollArray s.clients ∧ s.closedCount ≤ b + 1
  | place => ∃ polled reads, InLoop s polled reads place ∧ PolledTruly s polled ∧
      polled.countP hungUp ≤ b + 1

theorem PolledTruly.step {s s' : Tcp Unit} {a : Act Unit} {polled : List (Nat × UInt16)}
    (h : PolledTruly s polled) (hst : Step s a s') (ha : PollsShowClosed s a) :
    PolledTruly s' polled where
  nodup := h.nodup
  closed := fun z hz => (h.closed z hz).trans (hst.conn ha (h.conn z hz)).2.symm
  conn := fun z hz => (hst.conn ha (h.conn z hz)).1

theorem PolledTruly.countP_left {s : Tcp Unit} {polled : List (Nat × UInt16)}
    (h : PolledTruly s polled) {m : Nat} (hc : s.clients = (left hungUp polled m).map Prod.fst) :
    s.closedCount = (left hungUp polled m).countP hungUp := by
  rw [closedCount, hc, List.countP_map]
  refine List.countP_congr fun z hz => ?_
  rw [h.closed z ((left_sublist polled m).subset hz)]
  rfl

/-- A pass that is over has taken out a closed peer if there was one. -/
theorem PolledTruly.remaining_outside {s : Tcp Unit} {polled : List (Nat × UInt16)}
    {reads : List Nat} {b : Nat} (h : PolledTruly s polled)
    (hloop : InLoop s polled reads .outside) (hb : polled.countP hungUp ≤ b + 1) :
    s.closedCount ≤ b := by
  obtain ⟨m, hm, hc, _⟩ := hloop
  rw [h.countP_left hc]
  have hsub := (left_sublist polled m).countP_le (p := hungUp)
  rcases Nat.eq_zero_or_pos (polled.countP hungUp) with hz | hpos
  · omega
  · have := hm.countP_left_lt hpos
    omega

theorem closedCount_congr {s s' : Tcp Unit} (hc : s'.clients = s.clients)
    (h : ∀ fd ∈ s.clients, s'.closed fd = s.closed fd) : s'.closedCount = s.closedCount := by
  rw [closedCount, hc]
  exact List.countP_congr fun fd hfd => by rw [h fd hfd]

/-- What `poll` shows is the clients that are closed. -/
theorem polledTruly_ready {s s' : Tcp Unit} {revents : List UInt16} (h : Connected s)
    (hc : s'.conns = s.conns) (hlen : revents.length = s.clients.length)
    (hshow : ∀ z ∈ s.clients.zip revents, hungUp z = s.closed z.1) :
    PolledTruly s' (s.clients.zip revents) ∧
      (s.clients.zip revents).countP hungUp = s.closedCount := by
  have hfst : (s.clients.zip revents).map Prod.fst = s.clients :=
    List.map_fst_zip (Nat.le_of_eq hlen.symm)
  have hclosed : s'.closed = s.closed := by
    funext fd
    rw [closed, hc, closed]
  refine ⟨⟨by rw [hfst]; exact h.nodup, fun z hz => by rw [hclosed]; exact hshow z hz,
    fun z hz => ?_⟩, ?_⟩
  · rw [hc]
    exact h.conn z.1 (hfst ▸ List.mem_map_of_mem hz)
  · rw [closedCount]
    conv_rhs => rw [← hfst, List.countP_map]
    exact List.countP_congr fun z hz => by rw [hshow z hz]; rfl

theorem Remaining.of_loop {s : Tcp Unit} {polled : List (Nat × UInt16)} {reads : List Nat}
    {b : Nat} {place : Place} (hloop : InLoop s polled reads place) (h : PolledTruly s polled)
    (hb : polled.countP hungUp ≤ b + 1) : Remaining s b place := by
  cases place with
  | outside => exact h.remaining_outside hloop hb
  | fill | poll => exact hloop.elim
  | scan | read | push => exact ⟨polled, reads, hloop, h, hb⟩

/-- A step inside the loop, from and to wherever it goes. -/
theorem Remaining.step_loop {s s' : Tcp Unit} {a : Act Unit} {b : Nat} (hst : Step s a s')
    (ha : PollsShowClosed s a) (hgo : a.goesOn = true)
    (h : ∃ polled reads, InLoop s polled reads (s.workers ()) ∧ PolledTruly s polled ∧
      polled.countP hungUp ≤ b + 1) : Remaining s' b (s'.workers ()) := by
  obtain ⟨polled, reads, hloop, hp, hb⟩ := h
  exact .of_loop (hloop.step hp.nodup hst hgo) (hp.step hst ha) hb

theorem Remaining.step {s s' : Tcp Unit} {a : Act Unit} {b : Nat}
    (h : Remaining s b (s.workers ())) (hc : Connected s) (hst : Step s a s')
    (ha : PollsShowClosed s a) :
    Remaining s' (b - if a.goesOn then 0 else 1) (s'.workers ()) := by
  have hclosed : ∀ fd ∈ s.clients, s'.closed fd = s.closed fd := fun fd hfd =>
    (hst.conn ha (hc.conn fd hfd)).2
  have hsame : s'.clients = s.clients → s'.closedCount = s.closedCount := fun he =>
    closedCount_congr he hclosed
  have hst' := hst
  cases hst with
  | @peerSend fd bytes conn hfd hopen =>
    have hcount := hsame rfl
    change Remaining _ b (s.workers ())
    cases hp : s.workers () with
    | outside =>
      rw [hp] at h
      exact hcount.trans_le h
    | fill | poll =>
      rw [hp] at h
      exact ⟨h.1, hcount.trans_le h.2⟩
    | scan | read | push =>
      rw [hp] at h
      obtain ⟨polled, reads, hloop, htrue, hb⟩ := h
      exact ⟨polled, reads, hloop.congr rfl, htrue.step hst' ha, hb⟩
  | peerClose => exact ha.elim
  | acceptNone ht =>
    rw [ht] at h
    have hle : s.closedCount ≤ b := h
    rw [workers_goto, if_pos rfl]
    refine ⟨rfl, (hsame rfl).trans_le ?_⟩
    simp only [Act.goesOn, Bool.false_eq_true, ite_false]
    omega
  | @accept t fd ht hnew =>
    rw [ht] at h
    have hle : s.closedCount ≤ b := h
    rw [workers_goto, if_pos rfl]
    refine ⟨rfl, ?_⟩
    have hcount : ({ s.setConn fd .new with clients := s.clients ++ [fd] }.goto t
        (.fill newPollFds)).closedCount = s.closedCount := by
      refine (List.countP_append ..).trans ?_
      rw [List.countP_congr fun fd hfd => by rw [hclosed fd hfd], List.countP_singleton,
        closed_accepted s fd t]
      rfl
    rw [hcount]
    simp only [Act.goesOn, Bool.false_eq_true, ite_false]
    omega
  | fill ht hp =>
    rw [ht] at h
    obtain ⟨rfl, hle⟩ := h
    obtain ⟨_, rfl⟩ := fdToPollFdArray_new_eq_some.mp hp
    rw [workers_goto, if_pos rfl]
    exact ⟨rfl, (hsame rfl).trans_le hle⟩
  | pollFailed => exact ha.elim
  | @pollTimeout t pollfds revents ht hlen hz =>
    obtain ⟨hp, hcount⟩ := polledTruly_ready hc rfl hlen ha
    rw [workers_goto, if_pos rfl]
    have hnone : (s.clients.zip revents).countP hungUp = 0 := by
      refine List.countP_eq_zero.mpr fun z hmem => ?_
      have hzero := List.all_eq_true.mp hz z.2 (List.of_mem_zip hmem).2
      rw [beq_iff_eq] at hzero
      simp [hungUp, hzero, hasPeerHungup]
    refine (hsame rfl).trans_le ?_
    omega
  | @pollReady t pollfds revents ht hlen hz =>
    rw [ht] at h
    obtain ⟨rfl, hle⟩ := h
    obtain ⟨hp, hcount⟩ := polledTruly_ready hc rfl hlen ha
    rw [workers_goto, if_pos rfl]
    exact ⟨s.clients.zip revents, [], .begin rfl hlen, hp.step hst' ha, hcount.trans_le hle⟩
  | remove ht | serve ht | skip ht | leave ht | readEnd ht | read ht | push ht =>
    refine Remaining.step_loop hst' ha rfl ?_
    rw [ht] at h ⊢
    exact h

/-- Whoever a step takes out of the list is closed. -/
theorem Remaining.gone {s s' : Tcp Unit} {a : Act Unit} {b : Nat}
    (h : Remaining s b (s.workers ())) (hst : Step s a s') {fd : Nat} (hfd : fd ∈ s.clients)
    (hout : fd ∉ s'.clients) : s.closed fd = true := by
  cases hst with
  | @remove t pollfds i slot revents fd' ht hi hslot hr hup hfd' =>
    rw [ht] at h
    obtain ⟨polled, reads, hloop, hp, _⟩ := h
    obtain ⟨z, hz, rfl, hz'⟩ := hloop.round hi hslot hr
    obtain rfl := Option.some.inj (hz'.symm.trans hfd')
    have he : fd = z.1 := by
      by_contra hne
      exact hout (List.mem_filter.mpr ⟨hfd, by simpa using hne⟩)
    rw [he, ← hp.closed z (List.mem_of_getElem? hz)]
    exact hup
  | accept => exact absurd (List.mem_append_left _ hfd) hout
  | peerSend | peerClose | acceptNone | fill | pollFailed | pollTimeout | pollReady | serve
    | skip | leave | readEnd | read | push => exact absurd hfd hout

/-- A run that begins anywhere in a pass. -/
theorem Remaining.run {s s' : Tcp Unit} {acts : List (Act Unit)} {b : Nat}
    (h : Remaining s b (s.workers ())) (hc : Connected s)
    (hrun : Machine.run Tcp.step s acts = some s')
    (hpolls : Meets Tcp.step PollsShowClosed s acts) :
    Remaining s' (b - iterations acts) (s'.workers ()) ∧ Connected s' ∧
      s'.openFds = s.openFds ++ acts.flatMap acceptedBy := by
  induction acts generalizing s b with
  | nil =>
    obtain rfl := Option.some.inj hrun
    exact ⟨h, hc, (List.append_nil _).symm⟩
  | cons a acts ih =>
    obtain ⟨u, hu, hrest⟩ := Option.bind_eq_some_iff.mp hrun
    obtain ⟨ha, hmeets⟩ := meets_cons.mp hpolls
    have hst := step_cases hu
    have hopen := hst.openFds hc ha fun fd hfd hout => h.gone hst hfd hout
    obtain ⟨hr, hc', ho⟩ := ih (h.step hc hst ha) (hc.step hst ha) hrest (hmeets u hu)
    refine ⟨?_, hc', ?_⟩
    · rwa [Nat.sub_sub, Nat.add_comm, show iterations acts + (if a.goesOn then 0 else 1) =
        iterations (a :: acts) by cases hg : a.goesOn <;> simp [iterations, hg]] at hr
    · rw [ho, hopen, List.flatMap_cons, List.append_assoc]

/-! ### A pass comes to its end -/

/-- The step is one of the worker's. -/
def Act.ofWorker : Act Unit → Bool
  | .peerSend .. | .peerClose _ => false
  | _ => true

/-- The steps that are left of a pass over at most `n` clients. -/
def stepsLeft (n : Nat) : Place → Nat
  | .outside => 0
  | .fill _ => 3 * n + 3
  | .poll _ => 3 * n + 2
  | .scan _ i => 3 * (n - i) + 1
  | .read _ i _ => 3 * (n - i - 1) + 3
  | .push _ i _ => 3 * (n - i - 1) + 2

/-- The list does not grow in a pass, and every step of the worker is one less to go. -/
theorem Step.stepsLeft_le {s s' : Tcp Unit} {a : Act Unit} {n : Nat} (hst : Step s a s')
    (ha : a.goesOn = true) (hn : s.clients.length ≤ n) : s'.clients.length ≤ n ∧
      stepsLeft n (s'.workers ()) + (if a.ofWorker then 1 else 0) ≤
        stepsLeft n (s.workers ()) := by
  cases hst with
  | peerSend | peerClose => exact ⟨hn, Nat.le_refl _⟩
  | acceptNone | accept => cases ha
  | remove ht hi =>
    refine ⟨(List.length_filter_le ..).trans hn, ?_⟩
    simp only [workers_goto, ht, stepsLeft, Act.ofWorker, if_true]
    omega
  | serve ht | skip ht | fill ht | pollFailed ht | pollTimeout ht | pollReady ht | leave ht
    | readEnd ht | read ht | push ht =>
    refine ⟨hn, ?_⟩
    simp only [workers_goto, ht, stepsLeft, Act.ofWorker, if_true]
    omega

/-- In a pass the worker takes a bounded number of steps, whatever the peers do. -/
theorem run_stepsLeft {s s' : Tcp Unit} {acts : List (Act Unit)} {n : Nat}
    (hrun : Machine.run step s acts = some s') (hgo : ∀ a ∈ acts, a.goesOn = true)
    (hn : s.clients.length ≤ n) :
    stepsLeft n (s'.workers ()) + acts.countP Act.ofWorker ≤ stepsLeft n (s.workers ()) := by
  induction acts generalizing s with
  | nil =>
    obtain rfl := Option.some.inj hrun
    exact Nat.le_refl _
  | cons a acts ih =>
    obtain ⟨u, hu, hrest⟩ := Option.bind_eq_some_iff.mp hrun
    obtain ⟨ha, hacts⟩ := List.forall_mem_cons.mp hgo
    obtain ⟨hnu, hstep⟩ := (step_cases hu).stepsLeft_le ha hn
    have hle := ih hrest hacts hnu
    rw [List.countP_cons]
    omega

/-- The worker can come out of the pass it is in, with a `poll` that shows who has closed. -/
def CanFinish (s : Tcp Unit) : Prop :=
  ∃ acts t, (∀ a ∈ acts, a.goesOn = true) ∧ Meets step PollsShowClosed s acts ∧
    run step s acts = some t ∧ t.workers () = .outside

theorem CanFinish.of_step {s u : Tcp Unit} {a : Act Unit} (h : CanFinish u)
    (hu : step s a = some u) (hgo : a.goesOn = true) (ha : PollsShowClosed s a) :
    CanFinish s := by
  obtain ⟨acts, t, hacts, hpolls, hrun, hout⟩ := h
  refine ⟨a :: acts, t, List.forall_mem_cons.mpr ⟨hgo, hacts⟩, meets_cons.mpr ⟨ha, ?_⟩, ?_, hout⟩
  · rintro v hv
    obtain rfl := Option.some.inj (hu.symm.trans hv)
    exact hpolls
  · rwa [run_cons, hu, Option.bind_some]

/-- From the head of the loop. -/
theorem canFinish_scan {s : Tcp Unit} {polled : List (Nat × UInt16)} {reads : List Nat}
    {pollfds : List PollFd} {i : Nat} (hw : s.workers () = .scan pollfds i)
    (h : InLoop s polled reads (.scan pollfds i)) (hp : PolledTruly s polled) : CanFinish s := by
  obtain ⟨acts, t, hscans, hrun, hout⟩ := h.completes hw hp.nodup hp.conn
  refine ⟨acts, t, fun a ha => Act.goesOn_of_scans (hscans a ha),
    meets_of_forall (fun a ha u => ?_) s, hrun, hout⟩
  have hscan := hscans a ha
  cases a with
  | scan | read | push => exact trivial
  | peerSend | peerClose | accept | fill | poll => cases hscan

/-- Out of `push` the worker comes back to the head of the loop. -/
theorem canFinish_push {s : Tcp Unit} {polled : List (Nat × UInt16)} {reads : List Nat}
    {pollfds : List PollFd} {i : Nat} {e : Entry} (hw : s.workers () = .push pollfds i e)
    (h : InLoop s polled reads (.push pollfds i e)) (hp : PolledTruly s polled) : CanFinish s := by
  let u := { s with pushed := s.pushed ++ [e] }.goto () (.scan pollfds (i + 1))
  have hu : step s (.push ()) = some u := by simp only [step, hw, u]
  have hst := step_cases hu
  have hin : InLoop s polled reads (s.workers ()) := by rwa [hw]
  have hloop := hin.step hp.nodup hst rfl
  have hwu : u.workers () = .scan pollfds (i + 1) := by simp [u, workers_goto]
  rw [hwu] at hloop
  exact (canFinish_scan hwu hloop (hp.step hst trivial)).of_step hu rfl trivial

/-- A `read` may fail at any time, so the worker comes out of it. -/
theorem canFinish_read {s : Tcp Unit} {polled : List (Nat × UInt16)} {reads : List Nat}
    {pollfds : List PollFd} {i fd : Nat} (hw : s.workers () = .read pollfds i fd)
    (h : InLoop s polled reads (.read pollfds i fd)) (hp : PolledTruly s polled) :
    CanFinish s := by
  obtain ⟨conn, hc⟩ : ∃ conn, s.conns fd = some conn := by
    have hfd : fd ∈ ((polled.take (i + 1)).filter readable).map Prod.fst :=
      h.2.2 ▸ List.mem_append_right reads (List.mem_singleton_self fd)
    obtain ⟨z, hz, rfl⟩ := List.mem_map.mp hfd
    exact Option.isSome_iff_exists.mp (hp.conn z (List.mem_of_mem_take (List.mem_of_mem_filter hz)))
  let e : Entry := ⟨fd, conn.chunks.length, strip []⟩
  let u := (s.setConn fd (conn.afterRead [])).goto () (.push pollfds i e)
  have hu : step s (.read () .failed) = some u := by
    simp only [step, hw, hc, readChunk, Option.bind_eq_bind, Option.bind_some, u, e]
  have hst := step_cases hu
  have hin : InLoop s polled reads (s.workers ()) := by rwa [hw]
  have hloop := hin.step hp.nodup hst rfl
  have hwu : u.workers () = .push pollfds i e := by simp [u, workers_goto]
  rw [hwu] at hloop
  exact (canFinish_push hwu hloop (hp.step hst trivial)).of_step hu rfl trivial

/-- What a `poll` shows of the clients. -/
def closedRevents (s : Tcp Unit) : List UInt16 :=
  s.clients.map fun fd => if s.closed fd then POLLHUP else 0

theorem closedRevents_shown (s : Tcp Unit) :
    ∀ z ∈ s.clients.zip s.closedRevents, hungUp z = s.closed z.1 := by
  intro z hz
  rw [closedRevents, List.zip_map_right] at hz
  obtain ⟨⟨fd, fd'⟩, hmem, rfl⟩ := List.mem_map.mp hz
  obtain rfl : fd = fd' := by
    obtain ⟨k, hk⟩ := List.mem_iff_getElem?.mp hmem
    obtain ⟨h, h'⟩ := List.getElem?_zip_eq_some.mp hk
    exact Option.some.inj (h.symm.trans h')
  cases hclosed : s.closed fd <;> simp [hungUp, hclosed] <;> decide

/-- A `poll` that shows who has closed leads into the loop, or out of the pass. -/
theorem canFinish_poll {s : Tcp Unit} (hc : Connected s) (hlen : s.clients.length ≤ BACKLOG)
    (hw : s.workers () = .poll (pollArray s.clients)) : CanFinish s := by
  have hlength : s.closedRevents.length = s.clients.length := List.length_map _
  have hshown := closedRevents_shown s
  by_cases hz : s.closedRevents.all (· == 0) = true
  · refine ⟨[.poll () (.ready s.closedRevents)], s.goto () .outside, by simp [Act.goesOn],
      meets_cons.mpr ⟨hshown, fun _ _ => meets_nil _ _ _⟩, ?_, by simp [workers_goto]⟩
    simp only [run_cons, step, hw, hlength, length_pollArray hlen, hlen, hz, and_self, if_true,
      Option.bind_some, run_nil]
  · let u := s.goto () (.scan (writeRevents (pollArray s.clients) s.closedRevents) 0)
    have hu : step s (.poll () (.ready s.closedRevents)) = some u := by
      simp only [step, hw, hlength, length_pollArray hlen, hlen, hz, and_self, if_true,
        Bool.false_eq_true, if_false, u]
    have hwu : u.workers () = .scan (writeRevents (pollArray s.clients) s.closedRevents) 0 := by
      simp [u, workers_goto]
    have hconns : u.conns = s.conns := rfl
    have hp := (polledTruly_ready hc hconns hlength hshown).1
    exact (canFinish_scan hwu (.begin rfl hlength) hp).of_step hu rfl hshown

theorem canFinish_fill {s : Tcp Unit} (hc : Connected s) (hlen : s.clients.length ≤ BACKLOG)
    (hw : s.workers () = .fill newPollFds) : CanFinish s := by
  let u := s.goto () (.poll (pollArray s.clients))
  have hu : step s (.fill ()) = some u := by
    simp only [step, hw, fdToPollFdArray_new, hlen, if_true, Option.map_some, u]
  have hwu : u.workers () = .poll (pollArray s.clients) := by simp [u, workers_goto]
  exact (canFinish_poll (hc.step (step_cases hu) trivial) hlen hwu).of_step hu rfl trivial

/-- Wherever a worker stands, it can come to the end of its pass. -/
theorem Remaining.canFinish {s : Tcp Unit} {b : Nat} (h : Remaining s b (s.workers ()))
    (hc : Connected s) (hlen : s.clients.length ≤ BACKLOG) : CanFinish s := by
  cases hw : s.workers () with
  | outside => exact ⟨[], s, fun _ ha => absurd ha List.not_mem_nil, meets_nil _ _ s, rfl, hw⟩
  | fill pollfds =>
    rw [hw] at h
    exact canFinish_fill hc hlen (h.1 ▸ hw)
  | poll pollfds =>
    rw [hw] at h
    exact canFinish_poll hc hlen (h.1 ▸ hw)
  | scan pollfds i =>
    rw [hw] at h
    obtain ⟨polled, reads, hloop, hp, _⟩ := h
    exact canFinish_scan hw hloop hp
  | read pollfds i fd =>
    rw [hw] at h
    obtain ⟨polled, reads, hloop, hp, _⟩ := h
    exact canFinish_read hw hloop hp
  | push pollfds i e =>
    rw [hw] at h
    obtain ⟨polled, reads, hloop, hp, _⟩ := h
    exact canFinish_push hw hloop hp

/-! ### Any number of iterations -/

/-- A single worker whose polls do not fail and show a hang-up just for the peers that have
closed, over any list of distinct clients: wherever it stands while the list fits into the
array, it can come to the end of its pass, and no pass takes it more than three steps for each
client and three more; every pass that has come to its end leaves the open clients as they are
and has taken out a closed one if there was one; and after as many iterations as there were
closed clients the list is the open ones in the order in which they were accepted. -/
theorem closed_peers_removed {s s' : Tcp Unit} {acts : List (Act Unit)}
    (hs : s.workers () = .outside) (hn : s.clients.Nodup)
    (hconn : ∀ fd ∈ s.clients, (s.conns fd).isSome) (hrun : run step s acts = some s')
    (hpolls : Meets step PollsShowClosed s acts) :
    (∀ before after u, acts = before ++ after → run step s before = some u →
        u.clients.length ≤ BACKLOG → CanFinish u) ∧
      (∀ before pass after u v, acts = before ++ (pass ++ after) → run step s before = some u →
        u.workers () = .fill newPollFds → (∀ a ∈ pass, a.goesOn = true) →
        run step u pass = some v → pass.countP Act.ofWorker ≤ 3 * u.clients.length + 3 ∧
        (v.workers () = .outside →
          v.openFds = u.openFds ∧ (0 < u.closedCount → v.closedCount < u.closedCount))) ∧
      (s'.workers () = .outside → s.closedCount ≤ iterations acts →
        s'.clients = s.openFds ++ acts.flatMap acceptedBy) := by
  have hc : Connected s := ⟨hn, hconn⟩
  have hbegin : Remaining s s.closedCount (s.workers ()) := by
    rw [hs]
    exact Nat.le_refl s.closedCount
  refine ⟨?_, ?_, ?_⟩
  · rintro before after u rfl hu hlen
    obtain ⟨hr, hcu, _⟩ := hbegin.run hc hu hpolls.prefix
    exact hr.canFinish hcu hlen
  · rintro before pass after u v rfl hu hfill hgo hv
    constructor
    · have hsteps := run_stepsLeft hv hgo (Nat.le_refl _)
      rw [hfill, stepsLeft] at hsteps
      omega
    intro hout
    obtain ⟨_, hcu, _⟩ := hbegin.run hc hu hpolls.prefix
    have hmeets : Meets step PollsShowClosed u pass := Meets.prefix (hpolls.suffix hu)
    have hpass : Remaining u (u.closedCount - 1) (u.workers ()) := by
      rw [hfill]
      exact ⟨rfl, by omega⟩
    obtain ⟨hr, _, hopen⟩ := hpass.run hcu hv hmeets
    have hnone : pass.flatMap acceptedBy = [] := by
      refine List.flatMap_eq_nil_iff.mpr fun a ha => ?_
      have hgo := hgo a ha
      cases a <;> first | rfl | cases hgo
    rw [hnone, List.append_nil] at hopen
    refine ⟨hopen, fun hpos => ?_⟩
    rw [hout] at hr
    have hle : v.closedCount ≤ u.closedCount - 1 - iterations pass := hr
    omega
  · intro hout hk
    obtain ⟨hr, _, hopen⟩ := hbegin.run hc hrun hpolls
    rw [hout] at hr
    have hle : s'.closedCount ≤ s.closedCount - iterations acts := hr
    have hzero : s'.clients.countP s'.closed = 0 := by
      have : s'.closedCount = 0 := by omega
      exact this
    rw [← hopen, openFds, List.filter_eq_self.mpr]
    intro fd hfd
    simpa using List.countP_eq_zero.mp hzero fd hfd

/-- Two of three clients have closed, the worker is outside `run`. -/
def threeClients : Tcp Unit :=
  ⟨[4, 5, 6], fun fd =>
    if fd = 4 ∨ fd = 5 then some { Conn.new with closed := true }
    else if fd = 6 then some .new else none, fun _ => .outside, []⟩

/-- Two iterations, with a client accepted in the first one. -/
def twoIterations : List (Act Unit) :=
  [.accept () (some 7), .fill (), .poll () (.ready [POLLHUP, POLLERR, 0, POLLIN]),
    .scan (), .scan (), .scan (),
    .accept () none, .fill (), .poll () (.ready [POLLPRI, 0]), .scan (), .scan (), .scan ()]

/-- The first pass can be finished from its beginning, and both are gone at the end. -/
theorem two_closed_peers_removed : ∃ u s',
    run step threeClients (twoIterations.take 1) = some u ∧ u.workers () = .fill newPollFds ∧
      CanFinish u ∧ run step threeClients twoIterations = some s' ∧ s'.clients = [6, 7] := by
  obtain ⟨u, hu, hfill, hlen⟩ : ∃ u, run step threeClients (twoIterations.take 1) = some u ∧
      u.workers () = .fill newPollFds ∧ u.clients.length ≤ BACKLOG := ⟨_, rfl, rfl, by decide⟩
  obtain ⟨s', hrun, hout⟩ : ∃ s', run step threeClients twoIterations = some s' ∧
      s'.workers () = .outside := ⟨_, rfl, rfl⟩
  obtain ⟨hfinish, -, hgone⟩ :=
    closed_peers_removed rfl (by decide) (by decide) hrun (by decide)
  exact ⟨u, s', hu, hfill, hfinish _ (twoIterations.drop 1) u rfl hu hlen, hrun,
    hgone hout (by decide)⟩

end DataPipeline.Tcp
