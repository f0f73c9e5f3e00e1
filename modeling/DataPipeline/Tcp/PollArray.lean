import DataPipeline.Tcp.State
import Mathlib.Data.List.Basic

/-!
# The array that is polled

`checkRx` allocates `BACKLOG` slots, fills one for each client in the list and lets
`poll` write what it found. The list has no such bound, its length is read again in every
round of the loop, and the result of `poll` is only compared with zero. The accesses stay
inside the array as long as no client is accepted beyond `BACKLOG`. They stay inside the
part that was filled for this pass as long as the list, whenever a worker comes to the
end of that part, is no longer than the part.
-/

namespace DataPipeline

namespace PollFd

/-- A slot of the new array. -/
def blank : PollFd := ⟨none, none, none⟩

/-- A slot as `fdToPollFdArray` leaves it. -/
def ofFd (fd : Nat) : PollFd :=
  ⟨some fd, some (POLLIN ||| POLLPRI ||| POLLERR ||| POLLRDHUP), none⟩

/-- Both the descriptor and what was found for it have been written. -/
def filled (slot : PollFd) : Bool := slot.fd.isSome && slot.revents.isSome

end PollFd

/-! ### Filling the array -/

theorem fdToPollFdArray_append (pollfds : List PollFd) (k : Nat) (clients : List Nat) :
    fdToPollFdArray (pollfds ++ List.replicate k .blank) pollfds.length clients =
      if clients.length ≤ k then
        some (pollfds ++ clients.map .ofFd ++ List.replicate (k - clients.length) .blank)
      else none := by
  induction clients generalizing pollfds k with
  | nil =>
    simp only [fdToPollFdArray, List.length_nil, Nat.zero_le, ite_true, List.map_nil,
      List.append_nil, Nat.sub_zero]
  | cons i rest ih =>
    cases k with
    | zero => simp [fdToPollFdArray]
    | succ k =>
      have hset : (pollfds ++ List.replicate (k + 1) PollFd.blank).set pollfds.length (.ofFd i) =
          (pollfds ++ [.ofFd i]) ++ List.replicate k .blank := by
        simp [List.replicate_succ]
      have hih := ih (pollfds ++ [.ofFd i]) k
      rw [List.length_append, List.length_singleton] at hih
      have hget : (pollfds ++ List.replicate (k + 1) PollFd.blank)[pollfds.length]? =
          some PollFd.blank := by simp
      simp only [fdToPollFdArray, hget, Option.bind_eq_bind, Option.bind_some]
      refine (congrArg (fdToPollFdArray · _ rest) hset).trans (hih.trans ?_)
      simp only [List.length_cons, Nat.add_le_add_iff_right, List.map_cons, List.append_assoc,
        List.singleton_append, Nat.add_sub_add_right]

/-- The array after the clients were written to its first slots. -/
def pollArray (clients : List Nat) : List PollFd :=
  clients.map .ofFd ++ List.replicate (BACKLOG - clients.length) .blank

/-- As many clients as slots can be written to a new array. -/
theorem fdToPollFdArray_new (clients : List Nat) :
    fdToPollFdArray newPollFds 0 clients =
      if clients.length ≤ BACKLOG then some (pollArray clients) else none :=
  fdToPollFdArray_append [] BACKLOG clients

theorem fdToPollFdArray_new_eq_some {clients : List Nat} {p : List PollFd} :
    fdToPollFdArray newPollFds 0 clients = some p ↔
      clients.length ≤ BACKLOG ∧ p = pollArray clients := by
  rw [fdToPollFdArray_new]
  split
  · rename_i h
    simp [h, eq_comm]
  · rename_i h
    simp [h]

theorem length_pollArray {clients : List Nat} (h : clients.length ≤ BACKLOG) :
    (pollArray clients).length = BACKLOG := by
  simp only [pollArray, List.length_append, List.length_map, List.length_replicate]
  omega

theorem getElem?_pollArray {clients : List Nat} {j fd : Nat} (h : clients[j]? = some fd) :
    (pollArray clients)[j]? = some (.ofFd fd) := by
  have hlt := (List.getElem?_eq_some_iff.mp h).1
  rw [pollArray, List.getElem?_append_left (by rwa [List.length_map]), List.getElem?_map, h]
  rfl

theorem length_writeRevents (pollfds : List PollFd) (revents : List UInt16) :
    (writeRevents pollfds revents).length = pollfds.length := by
  induction pollfds generalizing revents with
  | nil => rfl
  | cons slot pollfds ih =>
    cases revents with
    | nil => rfl
    | cons r revents => simp only [writeRevents, List.length_cons, ih]

/-- `poll` changes nothing but `revents`, and that in as many slots as it is given. -/
theorem getElem?_writeRevents (pollfds : List PollFd) (revents : List UInt16) (j : Nat) :
    (writeRevents pollfds revents)[j]? =
      pollfds[j]?.map fun slot => { slot with revents := revents[j]?.or slot.revents } := by
  induction pollfds generalizing revents j with
  | nil => simp [writeRevents]
  | cons slot pollfds ih =>
    cases revents with
    | nil => simp [writeRevents]
    | cons r revents =>
      cases j with
      | zero => simp [writeRevents]
      | succ j => simp only [writeRevents, List.getElem?_cons_succ, ih]

/-! ### The part that was filled -/

/-- The number of slots from the first one on that `poll` has reported on. -/
def reported (pollfds : List PollFd) : Nat := pollfds.findIdx fun slot => !slot.filled

theorem filled_of_lt_reported {pollfds : List PollFd} {i : Nat} (h : i < reported pollfds) :
    ∃ slot, pollfds[i]? = some slot ∧ slot.filled = true := by
  have hlen := Nat.lt_of_lt_of_le h (List.findIdx_le_length ..)
  refine ⟨pollfds[i], List.getElem?_eq_getElem hlen, ?_⟩
  simpa using List.not_of_lt_findIdx h

theorem not_filled_reported {pollfds : List PollFd} {slot : PollFd}
    (h : pollfds[reported pollfds]? = some slot) : slot.filled = false := by
  obtain ⟨hlt, rfl⟩ := List.getElem?_eq_some_iff.mp h
  have hne : (!pollfds[reported pollfds].filled) = true := List.findIdx_getElem (w := hlt)
  simpa using hne

theorem lt_reported {pollfds : List PollFd} {i : Nat} {slot : PollFd} (hi : i ≤ reported pollfds)
    (h : pollfds[i]? = some slot) (hf : slot.filled = true) : i < reported pollfds := by
  apply Nat.lt_of_le_of_ne hi
  rintro rfl
  rw [not_filled_reported h] at hf
  cases hf

theorem reported_eq {pollfds : List PollFd} {k : Nat}
    (hlt : ∀ i < k, ∃ slot, pollfds[i]? = some slot ∧ slot.filled = true)
    (hk : ∀ slot, pollfds[k]? = some slot → slot.filled = false) : reported pollfds = k := by
  apply Nat.le_antisymm
  · by_contra hle
    obtain ⟨slot, hslot, hf⟩ := filled_of_lt_reported (Nat.lt_of_not_le hle)
    rw [hk slot hslot] at hf
    cases hf
  · by_contra hle
    obtain ⟨slot, hslot, hf⟩ := hlt _ (Nat.lt_of_not_le hle)
    rw [not_filled_reported hslot] at hf
    cases hf

theorem revents_pollArray {clients : List Nat} {slot : PollFd} (h : slot ∈ pollArray clients) :
    slot.revents = none := by
  rw [pollArray, List.mem_append, List.mem_map] at h
  rcases h with ⟨fd, _, rfl⟩ | h
  · rfl
  · rw [List.eq_of_mem_replicate h]
    rfl

/-- A failed `poll` reports on nothing. -/
theorem reported_failed (clients : List Nat) : reported (pollArray clients) = 0 := by
  apply reported_eq (fun i hi => absurd hi (Nat.not_lt_zero i))
  intro slot hslot
  simp [PollFd.filled, revents_pollArray (List.mem_of_getElem? hslot)]

/-- A successful `poll` reports on the clients that are both in the array and among its
entries, which are counted when it is called. -/
theorem reported_ready (clients : List Nat) (revents : List UInt16) :
    reported (writeRevents (pollArray clients) revents) =
      min clients.length revents.length := by
  apply reported_eq
  · intro i hi
    have hfd := List.getElem?_eq_getElem (Nat.lt_of_lt_of_le hi (Nat.min_le_left ..))
    have hr := List.getElem?_eq_getElem (Nat.lt_of_lt_of_le hi (Nat.min_le_right ..))
    rw [getElem?_writeRevents, getElem?_pollArray hfd, hr]
    exact ⟨_, rfl, rfl⟩
  · intro slot hslot
    rw [getElem?_writeRevents] at hslot
    obtain ⟨old, hold, rfl⟩ := Option.map_eq_some_iff.mp hslot
    have hnone := revents_pollArray (List.mem_of_getElem? hold)
    rcases Nat.le_total clients.length revents.length with hle | hle
    · rw [Nat.min_eq_left hle, pollArray, List.getElem?_append_right (by simp)] at hold
      rw [List.eq_of_mem_replicate (List.mem_of_getElem? hold)]
      rfl
    · rw [Nat.min_eq_right hle, List.getElem?_eq_none (Nat.le_refl _), hnone]
      simp [PollFd.filled]

/-! ### Inside the array -/

/-- The array of a worker is the one that `checkRx` allocated. -/
def Place.Allocated : Place → Prop
  | .outside => True
  | .fill pollfds => pollfds = newPollFds
  | .poll pollfds | .scan pollfds _ | .read pollfds _ _ | .push pollfds _ _ =>
    pollfds.length = BACKLOG

/-- A worker in the loop has not gone beyond what `poll` has reported on. -/
def Place.Within : Place → Prop
  | .scan pollfds i => i ≤ reported pollfds
  | .read pollfds i _ | .push pollfds i _ => i < reported pollfds
  | .outside | .fill _ | .poll _ => True

namespace Tcp

open Machine

variable {θ : Type} [DecidableEq θ]

theorem workers_goto (s : Tcp θ) (t : θ) (place : Place) (u : θ) :
    (s.goto t place).workers u = if u = t then place else s.workers u :=
  Function.update_apply ..

/-- What holds of all places still does when one worker has gone to such a place. -/
theorem forall_goto {s : Tcp θ} {t : θ} {place : Place} {Q : Place → Prop}
    (hs : ∀ u, Q (s.workers u)) (hq : Q place) (u : θ) : Q ((s.goto t place).workers u) := by
  rw [workers_goto]
  split
  · exact hq
  · exact hs u

theorem Step.allocated {s s' : Tcp θ} {a : Act θ} (h : Step s a s')
    (hs : ∀ t, (s.workers t).Allocated) : ∀ t, (s'.workers t).Allocated := by
  cases h with
  | peerSend | peerClose => exact hs
  | acceptNone | accept => exact forall_goto hs rfl
  | @fill t _ _ ht hp =>
    have hnew := hs t
    rw [ht] at hnew
    obtain rfl : _ = newPollFds := hnew
    obtain ⟨hle, rfl⟩ := fdToPollFdArray_new_eq_some.mp hp
    exact forall_goto hs (length_pollArray hle)
  | pollTimeout | leave => exact forall_goto hs trivial
  | @pollReady t _ revents ht =>
    have hold := hs t
    rw [ht] at hold
    exact forall_goto hs ((length_writeRevents _ revents).trans hold)
  | @pollFailed t _ ht | @remove t _ _ _ _ _ ht | @serve t _ _ _ _ _ ht | @skip t _ _ _ _ ht
    | @readEnd t _ _ _ _ ht | @read t _ _ _ _ _ _ ht | @push t _ _ _ ht =>
    have hold := hs t
    rw [ht] at hold
    exact forall_goto hs hold

/-- No access of `fdToPollFdArray` or of the loop of `checkRx` that may come next is past the
end of the array, and the list fits into it. -/
structure ArrayInBounds (s : Tcp θ) : Prop where
  count : s.clients.length ≤ BACKLOG
  write : ∀ t pollfds, s.workers t = .fill pollfds →
    (fdToPollFdArray pollfds 0 s.clients).isSome
  read : ∀ t pollfds i, s.workers t = .scan pollfds i → i < s.clients.length → i < pollfds.length

/-- A client is only accepted when the list is shorter than the array. -/
def AcceptsWithRoom (s : Tcp θ) : Act θ → Prop
  | .accept _ (some _) => s.clients.length < BACKLOG
  | _ => True

omit [DecidableEq θ] in
theorem arrayInBounds_iff {s : Tcp θ} (hs : ∀ t, (s.workers t).Allocated) :
    ArrayInBounds s ↔ s.clients.length ≤ BACKLOG := by
  refine ⟨fun h => h.count, fun h => ⟨h, fun t pollfds ht => ?_, fun t pollfds i ht hi => ?_⟩⟩
  · have hnew := hs t
    rw [ht] at hnew
    obtain rfl : pollfds = newPollFds := hnew
    rw [fdToPollFdArray_new, if_pos h]
    rfl
  · have hlen := hs t
    rw [ht] at hlen
    have hlen : pollfds.length = BACKLOG := hlen
    omega

/-- The list only grows by accepted clients. -/
theorem step_inBounds_iff {s s' : Tcp θ} {a : Act θ} (h : Step s a s')
    (hs : s.clients.length ≤ BACKLOG) : s'.clients.length ≤ BACKLOG ↔ AcceptsWithRoom s a := by
  cases h with
  | accept =>
    simp only [goto, List.length_append, List.length_singleton, AcceptsWithRoom]
    omega
  | remove =>
    refine ⟨fun _ => trivial, fun _ => ?_⟩
    exact (List.length_filter_le _ s.clients).trans hs
  | peerSend | peerClose | acceptNone | fill | pollFailed | pollTimeout | pollReady | serve
    | skip | leave | readEnd | read | push => exact ⟨fun _ => trivial, fun _ => hs⟩

/-- In every state of a run the accesses to the array are inside it, and the list has no more
entries than the array, exactly when no client is accepted while the list has `BACKLOG`. -/
theorem array_in_bounds_iff (acts : List (Act θ)) {s : Tcp θ} (h : run step start acts = some s) :
    Always step ArrayInBounds start acts ↔ Meets step AcceptsWithRoom start acts := by
  have hstart : ∀ t, ((start : Tcp θ).workers t).Allocated := fun _ => trivial
  refine always_iff_meets (I := fun s => ∀ t, (s.workers t).Allocated) ?_ hstart
    ((arrayInBounds_iff hstart).mpr (Nat.zero_le _)) h
  intro u a v hu hb huv
  have hv := (step_cases huv).allocated hu
  rw [arrayInBounds_iff hv]
  exact ⟨hv, step_inBounds_iff (step_cases huv) hb.count⟩

/-- A server with one client. -/
theorem one_client_in_bounds :
    Always step ArrayInBounds (start : Tcp Unit)
      [.accept () (some 4), .fill (), .poll () (.ready [0]), .accept () none] := by
  refine (array_in_bounds_iff _ rfl).mpr (meets_cons.mpr ⟨?_, fun _ _ => ?_⟩)
  · exact (by decide : 0 < BACKLOG)
  · refine meets_cons.mpr ⟨trivial, fun _ _ => meets_cons.mpr ⟨trivial, fun _ _ => ?_⟩⟩
    exact meets_cons.mpr ⟨trivial, fun s _ => meets_nil step AcceptsWithRoom s⟩

/-- Clients connect one after the other and send nothing. -/
def connectTimes : Nat → List (Act Unit)
  | 0 => []
  | n + 1 =>
    connectTimes n ++ [.accept () (some n), .fill (), .poll () (.ready (List.replicate (n + 1) 0))]

theorem run_connectTimes {n : Nat} (hn : n ≤ BACKLOG) :
    ∃ s, run step start (connectTimes n) = some s ∧ s.workers () = .outside ∧
      s.clients.length = n ∧ ∀ fd, n ≤ fd → s.conns fd = none := by
  induction n with
  | zero => exact ⟨start, rfl, rfl, rfl, fun _ _ => rfl⟩
  | succ n ih =>
    obtain ⟨s, hrun, hout, hlen, hfree⟩ := ih (Nat.le_of_succ_le hn)
    have hlen' : (s.clients ++ [n]).length = n + 1 := by
      rw [List.length_append, hlen, List.length_singleton]
    have hzero : (List.replicate (n + 1) (0 : UInt16)).all (· == 0) = true := by
      simp [List.all_replicate]
    have hroom := length_pollArray (hlen' ▸ hn : (s.clients ++ [n]).length ≤ BACKLOG)
    refine ⟨{ s.setConn n .new with clients := s.clients ++ [n] }.goto () .outside, ?_, ?_, hlen',
      fun fd hfd => ?_⟩
    · rw [connectTimes, run_append, hrun, Option.bind_some]
      simp only [run_cons, run_nil, step, hout, hfree n (Nat.le_refl n), ite_true,
        Option.bind_some, goto, Function.update_idem, Function.update_self, fdToPollFdArray_new,
        Option.map_some, hlen', List.length_replicate, hroom, hn, and_self, hzero]
    · exact (workers_goto ..).trans (if_pos rfl)
    · have hne : fd ≠ n := by omega
      exact (Function.update_of_ne hne ..).trans (hfree fd (by omega))

/-- The connection after the fiftieth leaves no room for the list in the array. -/
theorem array_overrun :
    ¬ Always step ArrayInBounds (start : Tcp Unit)
      (connectTimes 50 ++ [.accept () (some 50)]) := by
  intro h
  obtain ⟨s, hrun, hout, hlen, hfree⟩ := run_connectTimes (n := 50) (Nat.le_refl _)
  have hstep : step s (.accept () (some 50)) = some
      ({ s.setConn 50 .new with clients := s.clients ++ [50] }.goto () (.fill newPollFds)) := by
    simp only [step, hout, hfree 50 (Nat.le_refl _), ite_true]
  have hcount := (h _ [] _ (List.append_nil _).symm
    (run_concat_eq_some.mpr ⟨s, hrun, hstep⟩)).count
  simp [goto, hlen, BACKLOG] at hcount

/-! ### Inside the part that was filled -/

/-- The slot that the loop of `checkRx` looks at was filled for this pass. -/
def InspectsFilled (s : Tcp θ) : Act θ → Prop
  | .scan t => ∀ pollfds i, s.workers t = .scan pollfds i → i < s.clients.length →
      ∃ slot, pollfds[i]? = some slot ∧ slot.filled = true
  | _ => True

/-- A worker that has come to the end of what `poll` has reported on finds no more clients. -/
def StopsInTime (s : Tcp θ) : Act θ → Prop
  | .scan t => ∀ pollfds i, s.workers t = .scan pollfds i → i = reported pollfds →
      s.clients.length ≤ i
  | _ => True

omit [DecidableEq θ] in
theorem inspectsFilled_iff {s : Tcp θ} (hs : ∀ t, (s.workers t).Within) (a : Act θ) :
    InspectsFilled s a ↔ StopsInTime s a := by
  cases a with
  | scan t =>
    refine forall_congr' fun pollfds => forall_congr' fun i => forall_congr' fun ht => ?_
    have hle := hs t
    rw [ht] at hle
    have hle : i ≤ reported pollfds := hle
    constructor
    · rintro h rfl
      by_contra hlt
      obtain ⟨slot, hslot, hf⟩ := h (Nat.lt_of_not_le hlt)
      rw [not_filled_reported hslot] at hf
      cases hf
    · intro h hi
      apply filled_of_lt_reported
      by_contra hge
      have := h (by omega)
      omega
  | peerSend | peerClose | accept | fill | poll | read | push => exact Iff.rfl

theorem Step.within {s s' : Tcp θ} {a : Act θ} (h : Step s a s')
    (hs : ∀ t, (s.workers t).Within) (ha : InspectsFilled s a) : ∀ t, (s'.workers t).Within := by
  cases h with
  | peerSend | peerClose => exact hs
  | acceptNone | accept | fill | pollTimeout | leave => exact forall_goto hs trivial
  | pollFailed | pollReady => exact forall_goto hs (Nat.zero_le _)
  | @remove t pollfds i _ _ _ ht hi | @serve t pollfds i _ _ _ ht hi
    | @skip t pollfds i _ _ ht hi =>
    have hle := hs t
    rw [ht] at hle
    obtain ⟨slot, hslot, hf⟩ := ha pollfds i ht hi
    have hlt : i < reported pollfds := lt_reported hle hslot hf
    exact forall_goto hs hlt
  | @readEnd t _ _ _ _ ht | @read t _ _ _ _ _ _ ht | @push t _ _ _ ht =>
    have hlt := hs t
    rw [ht] at hlt
    exact forall_goto hs hlt

/-- Every slot that the workers look at in a run was filled for the same pass exactly when
each worker that comes to the end of what its `poll` has reported on finds no more clients
in the list. -/
theorem inspects_filled_iff (acts : List (Act θ)) :
    Meets step InspectsFilled start acts ↔ Meets step StopsInTime start acts :=
  meets_congr_of_invariant (I := fun s => ∀ t, (s.workers t).Within)
    (fun _ _ _ hs ha h => (step_cases h).within hs ha) (fun _ a hs => inspectsFilled_iff hs a)
    (fun _ => trivial) acts

/-- With a client in the list a failed `poll` is enough, and so is a client that another
worker accepts after the poll. -/
theorem unfilled_slot_inspected :
    ¬ Meets step InspectsFilled (start : Tcp Unit)
        [.accept () (some 4), .fill (), .poll () .failed, .scan ()] ∧
      ¬ Meets step InspectsFilled (start : Tcp Bool)
        [.accept true (some 4), .fill true, .poll true (.ready [POLLPRI]), .accept false (some 5),
          .scan true, .scan true] := by
  constructor
  · intro h
    obtain ⟨slot, hslot, hf⟩ := h [.accept () (some 4), .fill (), .poll () .failed] (.scan ()) []
      _ rfl rfl _ 0 rfl (by decide)
    cases hslot
    cases hf
  · intro h
    obtain ⟨slot, hslot, hf⟩ := h [.accept true (some 4), .fill true,
      .poll true (.ready [POLLPRI]), .accept false (some 5), .scan true] (.scan true) []
      _ rfl rfl _ 1 rfl (by decide)
    cases hslot
    cases hf

end Tcp

end DataPipeline
