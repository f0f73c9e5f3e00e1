import DataPipeline.Core.ShrinkingLoop
import DataPipeline.Tcp.PollArray

/-!
# One pass of a single worker

The loop of `checkRx` compares its index with the length of the list that
`remConnectedClient` shortens, while the slots it looks at are those of the array. A pass
of a single worker is that loop over the clients with what `poll` has returned for them:
`InLoop` holds at every place of the pass, whatever the peers do meanwhile.
-/

namespace DataPipeline.Tcp

open Machine ShrinkingLoop

/-- The peer of this entry has hung up. -/
def hungUp (z : Nat × UInt16) : Bool := hasPeerHungup z.2

/-- The peer of this entry is to be read from. -/
def readable (z : Nat × UInt16) : Bool := !hasPeerHungup z.2 && hasReceivedData z.2

/-- The descriptors `readRxData` is called for, in that order. -/
def readCalls {θ : Type} (s : Tcp θ) : Act θ → List Nat
  | .read t _ =>
    match s.workers t with
    | .read _ _ fd => [fd]
    | _ => []
  | _ => []

/-- No `accept`: the worker does not begin another pass. -/
def Act.goesOn {θ : Type} : Act θ → Bool
  | .accept .. => false
  | _ => true

/-- A step of the loop over the slots. -/
def Act.scans {θ : Type} : Act θ → Bool
  | .scan _ | .read .. | .push _ => true
  | _ => false

theorem Act.goesOn_of_scans {θ : Type} {a : Act θ} (h : a.scans = true) : a.goesOn = true := by
  cases a with
  | accept => cases h
  | peerSend | peerClose | fill | poll | scan | read | push => rfl

/-- The array shows these entries. -/
def Shows (pollfds : List PollFd) (polled : List (Nat × UInt16)) : Prop :=
  ∀ (i : Nat) (z : Nat × UInt16), polled[i]? = some z →
    ∃ slot : PollFd, pollfds[i]? = some slot ∧ slot.fd = some z.1 ∧ slot.revents = some z.2

/-- The list is what the first `i` rounds have left of it. -/
def Visited (s : Tcp Unit) (polled : List (Nat × UInt16)) (i : Nat) : Prop :=
  s.clients = (left hungUp polled i).map Prod.fst ∧ ∀ j < i, Reached hungUp polled j

/-- A worker in the loop over the entries `polled`, after the calls `reads`; once it is
outside, the loop has stopped. -/
def InLoop (s : Tcp Unit) (polled : List (Nat × UInt16)) (reads : List Nat) : Place → Prop
  | .scan pollfds i => Shows pollfds polled ∧ Visited s polled i ∧
      reads = ((polled.take i).filter readable).map Prod.fst
  | .read pollfds i fd => Shows pollfds polled ∧ Visited s polled (i + 1) ∧
      reads ++ [fd] = ((polled.take (i + 1)).filter readable).map Prod.fst
  | .push pollfds i _ => Shows pollfds polled ∧ Visited s polled (i + 1) ∧
      reads = ((polled.take (i + 1)).filter readable).map Prod.fst
  | .outside => ∃ m, Stops hungUp polled m ∧
      s.clients = (left hungUp polled m).map Prod.fst ∧
      reads = ((polled.take m).filter readable).map Prod.fst
  | .fill _ | .poll _ => False

/-- The entries of a successful `poll` are those of the array it was given. -/
theorem shows_ready (clients : List Nat) (revents : List UInt16) :
    Shows (writeRevents (pollArray clients) revents) (clients.zip revents) := by
  rintro i ⟨fd, r⟩ h
  obtain ⟨hfd, hr⟩ := List.getElem?_zip_eq_some.mp h
  rw [getElem?_writeRevents, getElem?_pollArray hfd, hr]
  exact ⟨_, rfl, rfl, rfl⟩

/-- One descriptor out of a list without repetition. -/
theorem remConnectedClient_middle {before after : List Nat} {fd : Nat}
    (h : (before ++ fd :: after).Nodup) :
    remConnectedClient (before ++ fd :: after) fd = before ++ after := by
  have hb : fd ∉ before := fun hm => (List.nodup_append.mp h).2.2 fd hm fd List.mem_cons_self rfl
  have ha : fd ∉ after := (List.nodup_cons.mp (List.nodup_append.mp h).2.1).1
  rw [remConnectedClient, List.filter_append, List.filter_cons_of_neg (by simp)]
  congr 1 <;> rw [List.filter_eq_self] <;> simp only [decide_eq_true_eq] <;> rintro x hx rfl <;>
    contradiction

theorem left_sublist (polled : List (Nat × UInt16)) (i : Nat) :
    (left hungUp polled i).Sublist polled := by
  conv_rhs => rw [← List.take_append_drop i polled]
  exact List.Sublist.append List.filter_sublist (List.Sublist.refl _)

/-- The loop goes on exactly while it reaches another entry. -/
theorem Visited.entry {s : Tcp Unit} {polled : List (Nat × UInt16)} {i : Nat}
    (h : Visited s polled i) (hi : i < s.clients.length) :
    (∀ j < i + 1, Reached hungUp polled j) ∧ ∃ z, polled[i]? = some z := by
  have hr : Reached hungUp polled i := by rwa [h.1, List.length_map] at hi
  refine ⟨fun j hj => ?_, _, List.getElem?_eq_getElem hr.lt_length⟩
  exact hr.of_le (Nat.le_of_lt_succ hj)

theorem Visited.stops {s : Tcp Unit} {polled : List (Nat × UInt16)} {i : Nat}
    (h : Visited s polled i) (hi : s.clients.length ≤ i) : Stops hungUp polled i := by
  rw [h.1, List.length_map] at hi
  exact ⟨Nat.not_lt_of_le hi, h.2⟩

/-- The removal of a peer that hung up is a round of the loop. -/
theorem Visited.remove {s : Tcp Unit} {polled : List (Nat × UInt16)} {i : Nat}
    {z : Nat × UInt16} (h : Visited s polled i) (hn : (polled.map Prod.fst).Nodup)
    (hz : polled[i]? = some z) (hup : hungUp z = true) :
    remConnectedClient s.clients z.1 = (left hungUp polled (i + 1)).map Prod.fst := by
  have hsub := ((left_sublist polled i).map Prod.fst).nodup hn
  rw [left_eq_cons hz, List.map_append, List.map_cons] at hsub
  rw [h.1, left_eq_cons hz, left_succ_of_gone hz hup, List.map_append, List.map_cons,
    remConnectedClient_middle hsub, List.map_append]

/-- A round that removes nobody. -/
theorem Visited.keep {s : Tcp Unit} {polled : List (Nat × UInt16)} {i : Nat}
    {z : Nat × UInt16} (h : Visited s polled i) (hi : i < s.clients.length)
    (hz : polled[i]? = some z) (hup : hungUp z = false) : Visited s polled (i + 1) :=
  ⟨by rw [left_succ_of_not_gone hz hup, h.1], (h.entry hi).1⟩

theorem readable_take_succ {polled : List (Nat × UInt16)} {i : Nat} {z : Nat × UInt16}
    (hz : polled[i]? = some z) : ((polled.take (i + 1)).filter readable).map Prod.fst =
      ((polled.take i).filter readable).map Prod.fst ++ if readable z then [z.1] else [] := by
  rw [List.take_add_one, hz, List.filter_append, List.map_append]
  cases hr : readable z <;> simp [hr]

/-- Where the worker stands in the pass depends on the list only. -/
theorem InLoop.congr {s s' : Tcp Unit} {polled : List (Nat × UInt16)} {reads : List Nat}
    {place : Place} (h : InLoop s polled reads place) (hc : s'.clients = s.clients) :
    InLoop s' polled reads place := by
  cases place with
  | fill | poll => exact h
  | outside | scan | read | push => simpa only [InLoop, Visited, hc] using h

/-- A round of the loop looks at the entry of its index. -/
theorem InLoop.round {s : Tcp Unit} {polled : List (Nat × UInt16)} {reads : List Nat}
    {pollfds : List PollFd} {i : Nat} {slot : PollFd} {revents : UInt16}
    (h : InLoop s polled reads (.scan pollfds i)) (hi : i < s.clients.length)
    (hslot : pollfds[i]? = some slot) (hr : slot.revents = some revents) :
    ∃ z, polled[i]? = some z ∧ z.2 = revents ∧ slot.fd = some z.1 := by
  obtain ⟨hshows, hv, _⟩ := h
  obtain ⟨_, z, hz⟩ := hv.entry hi
  obtain ⟨slot', hslot', hfd, hr'⟩ := hshows i z hz
  obtain rfl := Option.some.inj (hslot'.symm.trans hslot)
  exact ⟨z, hz, Option.some.inj (hr'.symm.trans hr), hfd⟩

/-- Whatever is done until the next `accept`, the worker goes through its loop. -/
theorem InLoop.step {s s' : Tcp Unit} {a : Act Unit} {polled : List (Nat × UInt16)}
    {reads : List Nat} (h : InLoop s polled reads (s.workers ()))
    (hn : (polled.map Prod.fst).Nodup) (hst : Step s a s') (ha : a.goesOn = true) :
    InLoop s' polled (reads ++ readCalls s a) (s'.workers ()) := by
  cases hst with
  | peerSend | peerClose =>
    simp only [readCalls, List.append_nil]
    exact h.congr rfl
  | acceptNone | accept => cases ha
  | fill ht | pollFailed ht | pollTimeout ht | pollReady ht =>
    rw [ht] at h
    exact h.elim
  | @remove t pollfds i slot revents fd ht hi hslot hr hup hfd =>
    rw [ht] at h
    obtain ⟨z, hz, rfl, hfd'⟩ := h.round hi hslot hr
    obtain ⟨hshows, hv, hreads⟩ := h
    obtain rfl := Option.some.inj (hfd'.symm.trans hfd)
    have hnot : readable z = false := by simp [readable, hup]
    simp only [readCalls, List.append_nil, workers_goto, ite_true]
    refine ⟨hshows, ⟨hv.remove hn hz hup, (hv.entry hi).1⟩, ?_⟩
    rw [readable_take_succ hz, hnot, hreads]
    simp
  | @serve t pollfds i slot revents fd ht hi hslot hr hup hin hfd =>
    rw [ht] at h
    obtain ⟨z, hz, rfl, hfd'⟩ := h.round hi hslot hr
    obtain ⟨hshows, hv, hreads⟩ := h
    obtain rfl := Option.some.inj (hfd'.symm.trans hfd)
    have hyes : readable z = true := by simp [readable, hup, hin]
    simp only [readCalls, List.append_nil, workers_goto, ite_true]
    refine ⟨hshows, hv.keep hi hz hup, ?_⟩
    rw [readable_take_succ hz, hyes, hreads]
    simp
  | @skip t pollfds i slot revents ht hi hslot hr hup hin =>
    rw [ht] at h
    obtain ⟨z, hz, rfl, _⟩ := h.round hi hslot hr
    obtain ⟨hshows, hv, hreads⟩ := h
    have hnot : readable z = false := by simp [readable, hin]
    simp only [readCalls, List.append_nil, workers_goto, ite_true]
    refine ⟨hshows, hv.keep hi hz hup, ?_⟩
    rw [readable_take_succ hz, hnot, hreads]
    simp
  | @leave t pollfds i ht hi =>
    rw [ht] at h
    obtain ⟨_, hv, hreads⟩ := h
    simp only [readCalls, List.append_nil, workers_goto, ite_true]
    exact ⟨i, hv.stops hi, hv.1, hreads⟩
  | readEnd ht | read ht =>
    rw [ht] at h
    simp only [readCalls, ht, workers_goto, ite_true]
    exact h
  | push ht =>
    rw [ht] at h
    simp only [readCalls, List.append_nil, workers_goto, ite_true]
    exact h

/-- A whole pass, from after its poll. -/
theorem InLoop.run {s s' : Tcp Unit} {acts : List (Act Unit)} {polled : List (Nat × UInt16)}
    {reads : List Nat} (h : InLoop s polled reads (s.workers ()))
    (hn : (polled.map Prod.fst).Nodup) (hacts : ∀ a ∈ acts, a.goesOn = true)
    (hrun : Machine.run Tcp.step s acts = some s') :
    InLoop s' polled (reads ++ observe Tcp.step readCalls s acts) (s'.workers ()) :=
  run_observe_invariant (m := Tcp.step) (I := fun s reads => InLoop s polled reads (s.workers ()))
    (fun _ _ _ _ h ha hst => h.step hn (step_cases hst) ha) h hacts hrun

/-- After its poll a worker is at the beginning of the loop. -/
theorem InLoop.begin {s : Tcp Unit} {clients : List Nat} {revents : List UInt16}
    (hc : s.clients = clients) (hlen : revents.length = clients.length) :
    InLoop s (clients.zip revents) [] (.scan (writeRevents (pollArray clients) revents) 0) := by
  refine ⟨shows_ready clients revents, ⟨?_, fun j hj => absurd hj (Nat.not_lt_zero j)⟩, rfl⟩
  rw [left_zero, List.map_fst_zip (Nat.le_of_eq hlen.symm), hc]

/-- A worker before the poll of its pass over the list `clients`. -/
def Opening (clients : List Nat) (s : Tcp Unit) (reads : List Nat) : Place → Prop
  | .fill pollfds => pollfds = newPollFds ∧ s.clients = clients ∧ reads = []
  | .poll pollfds => pollfds = pollArray clients ∧ s.clients = clients ∧ reads = []
  | _ => True

theorem Opening.step {clients reads : List Nat} {s s' : Tcp Unit} {a : Act Unit}
    (h : Opening clients s reads (s.workers ())) (hst : Step s a s') (ha : a.goesOn = true) :
    Opening clients s' (reads ++ readCalls s a) (s'.workers ()) := by
  cases hst with
  | peerSend | peerClose =>
    simp only [readCalls, List.append_nil]
    exact h
  | acceptNone | accept => cases ha
  | fill ht hp =>
    rw [ht] at h
    obtain ⟨rfl, hc, hreads⟩ := h
    obtain ⟨_, rfl⟩ := fdToPollFdArray_new_eq_some.mp hp
    simp only [readCalls, List.append_nil, workers_goto, ite_true]
    exact ⟨hc ▸ rfl, hc, hreads⟩
  | pollFailed | pollTimeout | pollReady | remove | serve | skip | leave | readEnd | read
    | push =>
    simp only [workers_goto, ite_true]
    exact trivial

/-! ### What one pass does -/

/-- One call of `checkRx`, beginning with the array that was just allocated, in which `poll`
returns these entries. -/
structure CheckRx (s : Tcp Unit) (revents : List UInt16) (acts : List (Act Unit))
    (s' : Tcp Unit) : Prop where
  begin : s.workers () = .fill newPollFds
  polls : ∃ pre post, acts = pre ++ .poll () (.ready revents) :: post
  goesOn : ∀ a ∈ acts, a.goesOn = true
  run : Machine.run step s acts = some s'
  done : s'.workers () = .outside

/-- The pass has removed exactly those who hung up and has read exactly once, in the order of
the list, from each of the others that had something to read. -/
def Serviced (s : Tcp Unit) (revents : List UInt16) (acts : List (Act Unit))
    (s' : Tcp Unit) : Prop :=
  s'.clients = ((s.clients.zip revents).filter fun z => !hungUp z).map Prod.fst ∧
    observe step readCalls s acts = ((s.clients.zip revents).filter readable).map Prod.fst

/-- A client has no event if its position together with the number of hang-ups before it
makes up the length of the list. -/
def LateSlotsIdle (clients : List Nat) (revents : List UInt16) : Prop :=
  ∀ (i : Nat) (r : UInt16), revents[i]? = some r →
    clients.length ≤ i + (revents.take i).countP hasPeerHungup →
    hasPeerHungup r = false ∧ hasReceivedData r = false

/-- A pass is the loop over the clients with what `poll` has returned for them. -/
theorem CheckRx.loop {s s' : Tcp Unit} {revents : List UInt16} {acts : List (Act Unit)}
    (h : CheckRx s revents acts s') (hn : s.clients.Nodup) (hr : ∃ r ∈ revents, r ≠ 0) :
    revents.length = s.clients.length ∧
      InLoop s' (s.clients.zip revents) (observe step readCalls s acts) .outside := by
  obtain ⟨pre, post, rfl⟩ := h.polls
  obtain ⟨u, hu, hrest⟩ := run_append_eq_some.mp h.run
  obtain ⟨v, hv, hpost⟩ := Option.bind_eq_some_iff.mp hrest
  have hgo := h.goesOn
  simp only [List.mem_append, List.mem_cons] at hgo
  have hopen : Opening s.clients s [] (s.workers ()) := by
    rw [h.begin]
    exact ⟨rfl, rfl, rfl⟩
  have hopen := run_observe_invariant (m := step)
    (I := fun u reads => Opening s.clients u reads (u.workers ()))
    (fun _ _ _ _ h ha hst => h.step (step_cases hst) ha) hopen
    (fun a ha => hgo a (Or.inl ha)) hu
  rw [observe_append readCalls hu, observe, hv, Option.map_some, Option.getD_some]
  cases step_cases hv with
  | pollTimeout ht hlen hz =>
    obtain ⟨r, hr, hne⟩ := hr
    exact absurd (List.all_eq_true.mp hz r hr) (by simpa using hne)
  | pollReady ht hlen hz =>
    rw [ht] at hopen
    obtain ⟨rfl, hc, hreads⟩ := hopen
    rw [hc] at hlen
    have hbegin : InLoop (u.goto () (.scan (writeRevents (pollArray s.clients) revents) 0))
        (s.clients.zip revents) []
        ((u.goto () (.scan (writeRevents (pollArray s.clients) revents) 0)).workers ()) := by
      rw [workers_goto, if_pos rfl]
      exact .begin hc hlen
    have hfst : (s.clients.zip revents).map Prod.fst = s.clients :=
      List.map_fst_zip (Nat.le_of_eq hlen.symm)
    have hloop := hbegin.run (by rwa [hfst]) (fun a ha => hgo a (Or.inr (Or.inr ha))) hpost
    rw [h.done] at hloop
    rw [List.nil_append] at hreads
    rw [hreads]
    exact ⟨hlen, hloop⟩

/-- Every round of the loop can be completed, as `read` may fail at any time. -/
theorem InLoop.completes_round {s : Tcp Unit} {polled : List (Nat × UInt16)} {reads : List Nat}
    {pollfds : List PollFd} {i : Nat} (hw : s.workers () = .scan pollfds i)
    (h : InLoop s polled reads (.scan pollfds i)) (hi : i < s.clients.length)
    (hconn : ∀ z ∈ polled, (s.conns z.1).isSome) :
    ∃ acts t, (∀ a ∈ acts, a.scans = true) ∧ Machine.run Tcp.step s acts = some t ∧
      t.workers () = .scan pollfds (i + 1) ∧ ∀ z ∈ polled, (t.conns z.1).isSome := by
  obtain ⟨hshows, hv, _⟩ := h
  obtain ⟨_, z, hz⟩ := hv.entry hi
  obtain ⟨slot, hslot, hfd, hr⟩ := hshows i z hz
  by_cases hup : hasPeerHungup z.2 = true
  · refine ⟨[.scan ()], { s with clients := remConnectedClient s.clients z.1 }.goto ()
      (.scan pollfds (i + 1)), by simp [Act.scans], ?_, by simp [workers_goto], hconn⟩
    simp [run_cons, Tcp.step, hw, scanSlot, hi, hslot, hr, hup, hfd]
  rw [Bool.not_eq_true] at hup
  by_cases hin : hasReceivedData z.2 = true
  · obtain ⟨conn, hc⟩ := Option.isSome_iff_exists.mp (hconn z (List.mem_of_getElem? hz))
    let e : Entry := ⟨z.1, conn.chunks.length, strip []⟩
    let u := (s.setConn z.1 (conn.afterRead [])).goto () (.push pollfds i e)
    refine ⟨[.scan (), .read () .failed, .push ()],
      { u with pushed := u.pushed ++ [e] }.goto () (.scan pollfds (i + 1)),
      by simp [Act.scans], ?_, by simp [workers_goto], fun z' hz' => ?_⟩
    · simp [run_cons, Tcp.step, hw, scanSlot, hi, hslot, hr, hup, hin, hfd, goto, setConn, hc,
        readChunk, u, e]
    · change (Function.update s.conns z.1 (some (conn.afterRead [])) z'.1).isSome
      rw [Function.update_apply]
      split
      · rfl
      · exact hconn z' hz'
  · rw [Bool.not_eq_true] at hin
    refine ⟨[.scan ()], s.goto () (.scan pollfds (i + 1)), by simp [Act.scans], ?_,
      by simp [workers_goto], hconn⟩
    simp [run_cons, Tcp.step, hw, scanSlot, hi, hslot, hr, hup, hin]

/-- A worker that has come to the end of the list leaves the loop. -/
theorem leaves_loop {s : Tcp Unit} {pollfds : List PollFd} {i : Nat}
    (hw : s.workers () = .scan pollfds i) (hi : ¬ i < s.clients.length) :
    ∃ acts t, (∀ a ∈ acts, a.scans = true) ∧ Machine.run Tcp.step s acts = some t ∧
      t.workers () = .outside := by
  refine ⟨[.scan ()], s.goto () .outside, by simp [Act.scans], ?_, by simp [workers_goto]⟩
  simp [run_cons, Tcp.step, hw, scanSlot, hi]

/-- The loop can be completed. -/
theorem InLoop.completes {s : Tcp Unit} {polled : List (Nat × UInt16)} {reads : List Nat}
    {pollfds : List PollFd} {i : Nat} (hw : s.workers () = .scan pollfds i)
    (h : InLoop s polled reads (.scan pollfds i)) (hn : (polled.map Prod.fst).Nodup)
    (hconn : ∀ z ∈ polled, (s.conns z.1).isSome) :
    ∃ acts t, (∀ a ∈ acts, a.scans = true) ∧ Machine.run Tcp.step s acts = some t ∧
      t.workers () = .outside := by
  -- the rounds left are at most the entries from `i` on
  induction hk : polled.length - i generalizing s reads i with
  | zero =>
    refine leaves_loop hw fun hi => ?_
    have hr := (h.2.1.entry hi).1 i (Nat.lt_succ_self i)
    have := hr.lt_length
    omega
  | succ k ih =>
    by_cases hi : i < s.clients.length
    · obtain ⟨acts, t, hscans, hrun, hwt, hconnt⟩ := h.completes_round hw hi hconn
      have hloop := InLoop.run (by rwa [hw]) hn (fun a ha => Act.goesOn_of_scans (hscans a ha)) hrun
      rw [hwt] at hloop
      obtain ⟨acts', t', hscans', hrun', hout⟩ := ih hwt hloop hconnt (by omega)
      refine ⟨acts ++ acts', t', fun a ha => ?_, run_append_eq_some.mpr ⟨t, hrun, hrun'⟩, hout⟩
      exact (List.mem_append.mp ha).elim (hscans a) (hscans' a)
    · exact leaves_loop hw hi

/-- The hang-ups before an entry are those among the results of `poll`. -/
theorem reached_zip_iff {clients : List Nat} {revents : List UInt16}
    (hlen : revents.length = clients.length) (i : Nat) :
    Reached hungUp (clients.zip revents) i ↔
      i + (revents.take i).countP hasPeerHungup < clients.length := by
  have hsnd : (clients.zip revents).map Prod.snd = revents :=
    List.map_snd_zip (Nat.le_of_eq hlen)
  have hcount : ((clients.zip revents).take i).countP hungUp =
      (revents.take i).countP hasPeerHungup := by
    conv_rhs => rw [← hsnd, ← List.map_take, List.countP_map]
    rfl
  rw [reached_iff, hcount, List.length_zip, hlen, Nat.min_self]

/-- A list of descriptors that is what `filter` would have kept is what was kept. -/
theorem map_fst_eq_iff {l l' : List (Nat × UInt16)} (h : l.Sublist l') :
    l.map Prod.fst = l'.map Prod.fst ↔ l = l' := by
  refine ⟨fun he => h.eq_of_length ?_, congrArg _⟩
  simpa using congrArg List.length he

/-- What is left when the loop stops. -/
theorem loop_serviced_iff {polled : List (Nat × UInt16)} {m : Nat}
    (hm : Stops hungUp polled m) :
    ((left hungUp polled m).map Prod.fst = (polled.filter fun z => !hungUp z).map Prod.fst ∧
        ((polled.take m).filter readable).map Prod.fst = (polled.filter readable).map Prod.fst) ↔
      ∀ i z, polled[i]? = some z → ¬ Reached hungUp polled i →
        hungUp z = false ∧ hasReceivedData z.2 = false := by
  have hkept : (polled.filter fun z => !hungUp z).Sublist (left hungUp polled m) := by
    rw [← filter_left m]
    exact List.filter_sublist
  have hread : ((polled.take m).filter readable).Sublist (polled.filter readable) :=
    (List.take_sublist m polled).filter _
  rw [eq_comm, map_fst_eq_iff hkept, map_fst_eq_iff hread, eq_comm, hm.left_eq_filter_iff,
    hm.filter_take_eq_iff]
  constructor
  · rintro ⟨hup, hin⟩ i z hz hr
    refine ⟨hup i z hz hr, ?_⟩
    have hread := hin i z hz hr
    rw [readable, show hasPeerHungup z.2 = false from hup i z hz hr] at hread
    simpa using hread
  · intro h
    refine ⟨fun i z hz hr => (h i z hz hr).1, fun i z hz hr => ?_⟩
    simp [readable, (h i z hz hr).2]

/-- One call of `checkRx` by a single worker, over any distinct connected clients and with
any result of `poll` that has an event: it can be completed, and however it goes, it
removes and reads from the clients it should exactly when no client has an event whose
position together with the number of hang-ups before it makes up the length of the list. -/
theorem checkRx_services_iff {s : Tcp Unit} {revents : List UInt16}
    (hs : s.workers () = .fill newPollFds) (hlen : s.clients.length ≤ BACKLOG)
    (hn : s.clients.Nodup) (hconn : ∀ fd ∈ s.clients, (s.conns fd).isSome)
    (hrevents : revents.length = s.clients.length) (hr : ∃ r ∈ revents, r ≠ 0) :
    (∃ acts s', CheckRx s revents acts s') ∧
      ∀ acts s', CheckRx s revents acts s' →
        (Serviced s revents acts s' ↔ LateSlotsIdle s.clients revents) := by
  have hfst : (s.clients.zip revents).map Prod.fst = s.clients :=
    List.map_fst_zip (Nat.le_of_eq hrevents.symm)
  constructor
  · let p := pollArray s.clients
    let q := writeRevents p revents
    let u := (s.goto () (.poll p)).goto () (.scan q 0)
    have hall : ¬ ∀ r ∈ revents, r = 0 := fun h => by
      obtain ⟨r, hr, hne⟩ := hr
      exact hne (h r hr)
    have hu : Machine.run step s [.fill (), .poll () (.ready revents)] = some u := by
      simp [run_cons, step, hs, fdToPollFdArray_new, hlen, goto, hrevents, hall, u, q, p,
        length_pollArray hlen]
    have hw : u.workers () = .scan q 0 := by simp [u, workers_goto]
    have hloop : InLoop u (s.clients.zip revents) [] (.scan q 0) := .begin rfl hrevents
    obtain ⟨acts, s', hscans, hrun, hout⟩ := hloop.completes hw (by rwa [hfst]) fun z hz =>
      hconn z.1 (hfst ▸ List.mem_map_of_mem hz)
    refine ⟨.fill () :: .poll () (.ready revents) :: acts, s', hs, ⟨[.fill ()], acts, rfl⟩, ?_,
      run_append_eq_some.mpr ⟨u, hu, hrun⟩, hout⟩
    intro a ha
    rcases List.mem_cons.mp ha with rfl | ha
    · rfl
    rcases List.mem_cons.mp ha with rfl | ha
    · rfl
    · exact Act.goesOn_of_scans (hscans a ha)
  · intro acts s' h
    obtain ⟨_, m, hm, hclients, hreads⟩ := h.loop hn hr
    rw [Serviced, hclients, hreads, loop_serviced_iff hm]
    simp only [reached_zip_iff hrevents, Nat.not_lt]
    constructor
    · intro hidle i r hri hle
      have hi : i < s.clients.length := hrevents ▸ (List.getElem?_eq_some_iff.mp hri).1
      exact hidle i (s.clients[i], r)
        (List.getElem?_zip_eq_some.mpr ⟨List.getElem?_eq_getElem hi, hri⟩) hle
    · intro hidle i z hz hle
      exact hidle i z.2 (List.getElem?_zip_eq_some.mp hz).2 hle

/-- A server with two clients, the worker inside `checkRx`. -/
def twoClients : Tcp Unit :=
  ⟨[4, 5], fun fd => if fd = 4 ∨ fd = 5 then some .new else none, fun _ => .fill newPollFds, []⟩

/-- The first client has sent something, the second one has hung up. -/
theorem checkRx_read_then_hang_up : ∃ acts s', CheckRx twoClients [POLLIN, POLLRDHUP] acts s' ∧
    Serviced twoClients [POLLIN, POLLRDHUP] acts s' := by
  have hidle : LateSlotsIdle [4, 5] [POLLIN, POLLRDHUP] := by
    rintro (_ | _ | i) r hr hle
    · exact absurd hle (by decide)
    · exact absurd hle (by decide)
    · cases hr
  have hevent : ∃ r ∈ [POLLIN, POLLRDHUP], r ≠ 0 := ⟨POLLIN, by decide, by decide⟩
  obtain ⟨⟨acts, s', h⟩, hserviced⟩ := checkRx_services_iff (s := twoClients) rfl (by decide)
    (by decide) (by decide) (by rfl) hevent
  exact ⟨acts, s', h, (hserviced acts s' h).mpr hidle⟩

/-- The first client has hung up, the second one has sent something and is not read from. -/
theorem client_skipped_after_hang_up :
    ¬ ∀ acts s', CheckRx twoClients [POLLRDHUP, POLLIN] acts s' →
      Serviced twoClients [POLLRDHUP, POLLIN] acts s' := by
  intro h
  have hpass := h [.fill (), .poll () (.ready [POLLRDHUP, POLLIN]), .scan (), .scan ()] _
    { begin := rfl
      polls := ⟨[.fill ()], [.scan (), .scan ()], rfl⟩
      goesOn := by decide
      run := rfl
      done := rfl }
  exact absurd hpass.2 (by decide)

end DataPipeline.Tcp
