import DataPipeline.Tcp.State
import Mathlib.Data.List.Nodup

/-!
# The order of the messages of one connection

A worker reads a chunk in one step and pushes it in a later one, and no lock spans the
two. Every chunk is in one place: pushed once, or in the hands of one worker. So a chunk
that is pushed before an earlier one of its connection finds that one in the hands of
another worker, and with a single worker the messages are in the order of the stream.
-/

namespace DataPipeline.Tcp

open Machine

variable {θ : Type}

/-! ### Every chunk is in one place -/

/-- Every chunk read is in the queue once or in the hands of one worker. -/
structure Accounted (s : Tcp θ) : Prop where
  text : ∀ e, (e ∈ s.pushed ∨ ∃ t, s.Holds t e) →
    ∃ chunk, (s.chunks e.fd)[e.index]? = some chunk ∧ e.text = strip chunk
  nodup : ∀ fd, (s.order fd).Nodup
  held : ∀ t e, s.Holds t e → e.index ∉ s.order e.fd
  apart : ∀ t t' e e', s.Holds t e → s.Holds t' e' → e.fd = e'.fd → e.index = e'.index → t = t'
  all : ∀ fd k, k < (s.chunks fd).length →
    k ∈ s.order fd ∨ ∃ t e, s.Holds t e ∧ e.fd = fd ∧ e.index = k

theorem mem_order {s : Tcp θ} {fd k : Nat} :
    k ∈ s.order fd ↔ ∃ e ∈ s.pushed, e.fd = fd ∧ e.index = k := by
  simp only [order, List.mem_map, List.mem_filter, decide_eq_true_eq, and_assoc]

theorem accounted_start : Accounted (start : Tcp θ) where
  text := by
    rintro e (he | ⟨t, pollfds, i, ht⟩)
    · exact absurd he List.not_mem_nil
    · cases ht
  nodup := fun _ => List.nodup_nil
  held := fun t e ⟨_, _, ht⟩ => nomatch ht
  apart := fun t t' e e' ⟨_, _, ht⟩ => nomatch ht
  all := fun _ _ hk => absurd hk (Nat.not_lt_zero _)

/-- A step that reads and pushes nothing. -/
theorem Accounted.frame {s s' : Tcp θ} (h : Accounted s) (hp : s'.pushed = s.pushed)
    (hc : ∀ fd, s'.chunks fd = s.chunks fd) (hh : ∀ t e, s'.Holds t e ↔ s.Holds t e) :
    Accounted s' := by
  have ho : ∀ fd, s'.order fd = s.order fd := fun fd => by rw [order, order, hp]
  constructor
  · intro e he
    rw [hc]
    exact h.text e (he.imp (fun he => hp ▸ he) fun ⟨t, ht⟩ => ⟨t, (hh t e).mp ht⟩)
  · exact fun fd => ho fd ▸ h.nodup fd
  · exact fun t e ht => ho e.fd ▸ h.held t e ((hh t e).mp ht)
  · exact fun t t' e e' ht ht' => h.apart t t' e e' ((hh t e).mp ht) ((hh t' e').mp ht')
  · intro fd k hk
    rw [hc] at hk
    rw [ho]
    exact (h.all fd k hk).imp_right fun ⟨t, e, ht, he⟩ => ⟨t, e, (hh t e).mpr ht, he⟩

/-- A chunk that is pushed or held was read. -/
theorem Accounted.index_lt {s : Tcp θ} (h : Accounted s) {e : Entry}
    (he : e ∈ s.pushed ∨ ∃ t, s.Holds t e) : e.index < (s.chunks e.fd).length := by
  obtain ⟨chunk, hchunk, _⟩ := h.text e he
  exact (List.getElem?_eq_some_iff.mp hchunk).1

theorem Accounted.lt_of_mem_order {s : Tcp θ} (h : Accounted s) {fd k : Nat}
    (hk : k ∈ s.order fd) : k < (s.chunks fd).length := by
  obtain ⟨e, he, rfl, rfl⟩ := mem_order.mp hk
  exact h.index_lt (Or.inl he)

/-- What is read off the connection of a descriptor after one connection has changed. -/
theorem getD_setConn {α : Type*} (f : Conn → α) (empty : α) (s : Tcp θ) (fd : Nat) (conn : Conn)
    (fd' : Nat) :
    (((s.setConn fd conn).conns fd').map f).getD empty =
      if fd' = fd then f conn else ((s.conns fd').map f).getD empty := by
  unfold setConn
  by_cases h : fd' = fd
  · subst h
    simp only [Function.update_self, Option.map_some, Option.getD_some, ite_true]
  · simp only [Function.update_of_ne h, h, ite_false]

theorem chunks_setConn (s : Tcp θ) (fd : Nat) (conn : Conn) (fd' : Nat) :
    (s.setConn fd conn).chunks fd' = if fd' = fd then conn.chunks else s.chunks fd' :=
  s.getD_setConn Conn.chunks [] fd conn fd'

theorem chunks_eq {s : Tcp θ} {fd : Nat} {conn : Conn} (h : s.conns fd = some conn) :
    s.chunks fd = conn.chunks := by
  rw [chunks, h, Option.map_some, Option.getD_some]

/-- A connection whose chunks stay what they are. -/
theorem chunks_setConn_same {s : Tcp θ} {fd : Nat} {conn : Conn} (h : conn.chunks = s.chunks fd)
    (fd' : Nat) : (s.setConn fd conn).chunks fd' = s.chunks fd' := by
  rw [chunks_setConn]
  split
  · rename_i he
    rw [h, he]
  · rfl

variable [DecidableEq θ]

/-! ### Moving one worker -/

theorem holds_goto {s : Tcp θ} {t u : θ} {place : Place} {e : Entry} :
    (s.goto t place).Holds u e ↔
      (u = t ∧ ∃ pollfds i, place = .push pollfds i e) ∨ (u ≠ t ∧ s.Holds u e) := by
  unfold Holds goto
  by_cases hu : u = t
  · subst hu
    simp only [Function.update_self, true_and, ne_eq, not_true_eq_false, false_and, or_false]
  · simp only [Function.update_of_ne hu, hu, false_and, ne_eq, not_false_eq_true, true_and,
      false_or]

/-- A worker that goes from one place to another with nothing in its hands. -/
theorem holds_goto_idle {s : Tcp θ} {t : θ} {place : Place}
    (hfrom : ∀ pollfds i e, s.workers t ≠ .push pollfds i e)
    (hto : ∀ pollfds i e, place ≠ .push pollfds i e) (u : θ) (e : Entry) :
    (s.goto t place).Holds u e ↔ s.Holds u e := by
  rw [holds_goto]
  constructor
  · rintro (⟨_, pollfds, i, he⟩ | ⟨_, hu⟩)
    · exact absurd he (hto pollfds i e)
    · exact hu
  · rintro ⟨pollfds, i, hu⟩
    refine Or.inr ⟨?_, pollfds, i, hu⟩
    rintro rfl
    exact hfrom pollfds i e hu

/-! ### The two steps of a chunk -/

theorem Accounted.read {s : Tcp θ} (h : Accounted s) {t : θ} {pollfds : List PollFd} {i fd : Nat}
    {conn : Conn} (ht : s.workers t = .read pollfds i fd) (hc : s.conns fd = some conn)
    (chunk : List UInt8) :
    Accounted ((s.setConn fd (conn.afterRead chunk)).goto t
      (.push pollfds i ⟨fd, conn.chunks.length, strip chunk⟩)) := by
  have hlen : conn.chunks.length = (s.chunks fd).length := by rw [chunks_eq hc]
  have hchunks : ∀ fd', ((s.setConn fd (conn.afterRead chunk)).goto t
      (.push pollfds i ⟨fd, conn.chunks.length, strip chunk⟩)).chunks fd' =
        s.chunks fd' ++ if fd' = fd then [chunk] else [] := by
    intro fd'
    apply (chunks_setConn s fd (conn.afterRead chunk) fd').trans
    split
    · rename_i he
      rw [he, chunks_eq hc]
      rfl
    · exact (List.append_nil _).symm
  have hholds : ∀ u e, ((s.setConn fd (conn.afterRead chunk)).goto t
      (.push pollfds i ⟨fd, conn.chunks.length, strip chunk⟩)).Holds u e ↔
        (u = t ∧ e = ⟨fd, conn.chunks.length, strip chunk⟩) ∨ (u ≠ t ∧ s.Holds u e) := by
    intro u e
    rw [holds_goto]
    refine or_congr_left (and_congr_right fun _ => ⟨?_, fun he => ⟨pollfds, i, he ▸ rfl⟩⟩)
    rintro ⟨_, _, he⟩
    exact (Place.push.inj he).2.2.symm
  constructor
  · intro e he
    rw [hchunks]
    have hold : (e ∈ s.pushed ∨ ∃ u, s.Holds u e) ∨ e = ⟨fd, conn.chunks.length, strip chunk⟩ := by
      rcases he with he | ⟨u, hu⟩
      · exact Or.inl (Or.inl he)
      · rcases (hholds u e).mp hu with ⟨_, he⟩ | ⟨_, hu⟩
        · exact Or.inr he
        · exact Or.inl (Or.inr ⟨u, hu⟩)
    rcases hold with hold | rfl
    · obtain ⟨c, hc', htext⟩ := h.text e hold
      exact ⟨c, (List.getElem?_append_left (h.index_lt hold)).trans hc', htext⟩
    · refine ⟨chunk, ?_, rfl⟩
      simp only [ite_true, hlen, List.getElem?_concat_length]
  · exact h.nodup
  · intro u e hu hmem
    rcases (hholds u e).mp hu with ⟨_, rfl⟩ | ⟨_, hu⟩
    · exact Nat.lt_irrefl _ (hlen ▸ h.lt_of_mem_order hmem)
    · exact h.held u e hu hmem
  · intro u u' e e' hu hu' hfd hindex
    rcases (hholds u e).mp hu with ⟨hut, he⟩ | ⟨_, hold⟩
    · rcases (hholds u' e').mp hu' with ⟨hut', _⟩ | ⟨_, hold'⟩
      · exact hut.trans hut'.symm
      · have hlt := h.index_lt (Or.inr ⟨u', hold'⟩)
        rw [← hfd, ← hindex, he, ← hlen] at hlt
        exact absurd hlt (Nat.lt_irrefl _)
    · rcases (hholds u' e').mp hu' with ⟨_, he'⟩ | ⟨_, hold'⟩
      · have hlt := h.index_lt (Or.inr ⟨u, hold⟩)
        rw [hfd, hindex, he', ← hlen] at hlt
        exact absurd hlt (Nat.lt_irrefl _)
      · exact h.apart u u' e e' hold hold' hfd hindex
  · intro fd' k hk
    rw [hchunks, List.length_append] at hk
    by_cases hold : k < (s.chunks fd').length
    · refine (h.all fd' k hold).imp_right fun ⟨u, e, hu, he⟩ => ⟨u, e, (hholds u e).mpr ?_, he⟩
      refine Or.inr ⟨?_, hu⟩
      rintro rfl
      obtain ⟨_, _, hu⟩ := hu
      rw [ht] at hu
      cases hu
    · refine Or.inr ⟨t, ⟨fd, conn.chunks.length, strip chunk⟩,
        (hholds _ _).mpr (Or.inl ⟨rfl, rfl⟩), ?_⟩
      split at hk
      · rename_i he
        subst he
        rw [List.length_singleton] at hk
        exact ⟨rfl, by dsimp only; omega⟩
      · exact absurd hk hold

theorem order_push {s : Tcp θ} {t : θ} {e : Entry} {place : Place} (fd : Nat) :
    ({ s with pushed := s.pushed ++ [e] }.goto t place).order fd =
      s.order fd ++ if e.fd = fd then [e.index] else [] := by
  unfold order goto
  dsimp only
  rw [List.filter_append, List.map_append, List.filter_singleton]
  by_cases h : e.fd = fd
  · simp only [h, decide_true, if_true, List.map_cons, List.map_nil, cond_true]
  · simp only [h, decide_false, if_false, List.map_nil, cond_false]

theorem Accounted.push {s : Tcp θ} (h : Accounted s) {t : θ} {pollfds : List PollFd} {i : Nat}
    {e : Entry} (ht : s.workers t = .push pollfds i e) :
    Accounted ({ s with pushed := s.pushed ++ [e] }.goto t (.scan pollfds (i + 1))) := by
  have hheld : s.Holds t e := ⟨pollfds, i, ht⟩
  have hholds : ∀ u e', ({ s with pushed := s.pushed ++ [e] }.goto t
      (.scan pollfds (i + 1))).Holds u e' ↔ u ≠ t ∧ s.Holds u e' := by
    intro u e'
    rw [holds_goto]
    constructor
    · rintro (⟨_, _, _, he⟩ | hu)
      · cases he
      · exact hu
    · exact Or.inr
  constructor
  · intro e' he'
    apply h.text e'
    rcases he' with hm | ⟨u, hu⟩
    · rcases List.mem_append.mp hm with hm | hm
      · exact Or.inl hm
      · exact Or.inr ⟨t, List.mem_singleton.mp hm ▸ hheld⟩
    · exact Or.inr ⟨u, ((hholds u e').mp hu).2⟩
  · intro fd
    rw [order_push]
    split
    · rename_i he
      subst he
      apply List.Nodup.append (h.nodup e.fd) (List.nodup_singleton _)
      rw [List.disjoint_singleton]
      exact h.held t e hheld
    · rw [List.append_nil]
      exact h.nodup fd
  · intro u e' hu
    obtain ⟨hne, hu⟩ := (hholds u e').mp hu
    rw [order_push, List.mem_append, not_or]
    refine ⟨h.held u e' hu, fun hm => ?_⟩
    split at hm
    · rename_i hfd
      exact hne (h.apart u t e' e hu hheld hfd.symm (List.mem_singleton.mp hm))
    · exact absurd hm List.not_mem_nil
  · intro u u' e₁ e₂ hu hu'
    exact h.apart u u' e₁ e₂ ((hholds u e₁).mp hu).2 ((hholds u' e₂).mp hu').2
  · intro fd k hk
    rw [order_push, List.mem_append]
    rcases h.all fd k hk with hm | ⟨u, e', hu, hfd, hindex⟩
    · exact Or.inl (Or.inl hm)
    · by_cases hut : u = t
      · subst hut
        obtain ⟨_, _, hu⟩ := hu
        obtain rfl := (Place.push.inj (ht.symm.trans hu)).2.2
        rw [if_pos hfd]
        exact Or.inl (Or.inr (List.mem_singleton.mpr hindex.symm))
      · exact Or.inr ⟨u, e', (hholds u e').mpr ⟨hut, hu⟩, hfd, hindex⟩

/-- Every step keeps every chunk in one place. -/
theorem Accounted.step {s s' : Tcp θ} {a : Act θ} (h : Accounted s) (hs : Step s a s') :
    Accounted s' := by
  cases hs with
  | peerSend hc _ | peerClose hc =>
    exact h.frame rfl (chunks_setConn_same (chunks_eq hc).symm) fun _ _ => Iff.rfl
  | accept ht hfd =>
    refine h.frame rfl (chunks_setConn_same ?_)
      (holds_goto_idle (fun _ _ _ he => nomatch ht.symm.trans he) nofun)
    rw [chunks, hfd]
    rfl
  | acceptNone ht | fill ht | pollFailed ht | pollTimeout ht | pollReady ht | remove ht | serve ht
    | skip ht | leave ht | readEnd ht =>
    exact h.frame rfl (fun _ => rfl)
      (holds_goto_idle (fun _ _ _ he => nomatch ht.symm.trans he) nofun)
  | read ht hc => exact h.read ht hc _
  | push ht => exact h.push ht

theorem run_accounted {acts : List (Act θ)} {s : Tcp θ} (hrun : run step start acts = some s) :
    Accounted s :=
  run_invariant (fun _ _ _ h hs => h.step (step_cases hs)) accounted_start hrun

/-! ### The size of a read -/

theorem readChunk_length {conn : Conn} {result : ReadResult} {chunk : List UInt8}
    (h : readChunk conn result = some (some chunk)) : chunk.length ≤ MSG_MAX_SIZE := by
  cases result with
  | bytes n =>
    simp only [readChunk] at h
    split at h
    · rename_i hn
      cases h
      exact (List.length_take_le n _).trans hn.2.1
    · contradiction
  | eof =>
    simp only [readChunk] at h
    split at h <;> cases h
  | failed =>
    cases h
    exact Nat.zero_le _

/-- A step reads at most one more chunk from a connection, and that one fits into the buffer. -/
theorem Step.chunks {s s' : Tcp θ} {a : Act θ} (h : Step s a s') (fd : Nat) :
    s'.chunks fd = s.chunks fd ∨
      ∃ chunk, chunk.length ≤ MSG_MAX_SIZE ∧ s'.chunks fd = s.chunks fd ++ [chunk] := by
  cases h with
  | peerSend hc _ | peerClose hc =>
    refine Or.inl (chunks_setConn_same ?_ fd)
    exact (chunks_eq hc).symm
  | accept ht hfd =>
    refine Or.inl (chunks_setConn_same ?_ fd)
    rw [Tcp.chunks, hfd]
    rfl
  | @read t pollfds i fd' conn result chunk ht hc hr =>
    have hchunks := chunks_setConn s fd' (conn.afterRead chunk) fd
    by_cases he : fd = fd'
    · subst he
      rw [if_pos rfl] at hchunks
      exact Or.inr ⟨chunk, readChunk_length hr, (chunks_eq hc).symm ▸ hchunks⟩
    · rw [if_neg he] at hchunks
      exact Or.inl hchunks
  | acceptNone | fill | pollFailed | pollTimeout | pollReady | remove | serve | skip | leave
    | readEnd | push => exact Or.inl rfl

theorem run_chunks_length {acts : List (Act θ)} {s : Tcp θ}
    (hrun : run step start acts = some s) (fd : Nat) :
    ∀ chunk ∈ s.chunks fd, chunk.length ≤ MSG_MAX_SIZE := by
  refine run_invariant (I := fun s : Tcp θ => ∀ chunk ∈ s.chunks fd,
    chunk.length ≤ MSG_MAX_SIZE) ?_ (fun _ h => absurd h List.not_mem_nil) hrun
  intro u a v hu h chunk hchunk
  rcases (step_cases h).chunks fd with he | ⟨new, hlen, he⟩
  · exact hu chunk (he ▸ hchunk)
  · rw [he] at hchunk
    rcases List.mem_append.mp hchunk with hold | hnew
    · exact hu chunk hold
    · exact List.mem_singleton.mp hnew ▸ hlen

/-! ### Overtaking -/

/-- At some moment of the run two workers hold the chunks `j` and `k` of connection `fd`. -/
def Overlap (acts : List (Act θ)) (fd j k : Nat) : Prop :=
  ∃ before after u t t' e e', acts = before ++ after ∧ run step start before = some u ∧ t ≠ t' ∧
    u.Holds t e ∧ e.fd = fd ∧ e.index = j ∧ u.Holds t' e' ∧ e'.fd = fd ∧ e'.index = k

theorem Overlap.concat {acts : List (Act θ)} {fd j k : Nat} (h : Overlap acts fd j k)
    (a : Act θ) : Overlap (acts ++ [a]) fd j k := by
  obtain ⟨before, after, u, t, t', e, e', rfl, hrest⟩ := h
  exact ⟨before, after ++ [a], u, t, t', e, e', List.append_assoc .., hrest⟩

/-- A chunk is in the queue behind every earlier chunk of its connection, or the two were held
at once. -/
def InOrder (acts : List (Act θ)) (s : Tcp θ) : Prop :=
  ∀ fd j k, j < k → k ∈ s.order fd → [j, k].Sublist (s.order fd) ∨ Overlap acts fd j k

theorem InOrder.step {acts : List (Act θ)} {s s' : Tcp θ} {a : Act θ} (h : InOrder acts s)
    (hrun : run step start acts = some s) (hs : Step s a s') : InOrder (acts ++ [a]) s' := by
  have hA := run_accounted hrun
  intro fd j k hjk hk
  cases hs with
  | @push t pollfds i e ht =>
    rw [order_push] at hk ⊢
    rcases List.mem_append.mp hk with hk | hk
    · rcases h fd j k hjk hk with hsub | hover
      · exact Or.inl (hsub.trans (List.sublist_append_left _ _))
      · exact Or.inr (hover.concat _)
    · -- the chunk that is pushed now
      split at hk
      · rename_i hfd
        obtain rfl := List.mem_singleton.mp hk
        have hheld : s.Holds t e := ⟨pollfds, i, ht⟩
        have hj : j < (s.chunks fd).length :=
          Nat.lt_trans hjk (hfd ▸ hA.index_lt (Or.inr ⟨t, hheld⟩))
        rcases hA.all fd j hj with hm | ⟨u, e', hu, hfd', hindex⟩
        · rw [if_pos hfd]
          exact Or.inl ((List.singleton_sublist.mpr hm).append (List.Sublist.refl _))
        · refine Or.inr ⟨acts, [.push t], s, u, t, e', e, rfl, hrun, ?_, hu, hfd', hindex,
            hheld, hfd, rfl⟩
          rintro rfl
          obtain ⟨_, _, hu⟩ := hu
          obtain rfl := (Place.push.inj (ht.symm.trans hu)).2.2
          exact Nat.lt_irrefl _ (hindex ▸ hjk)
      · exact absurd hk List.not_mem_nil
  | peerSend | peerClose | acceptNone | accept | fill | pollFailed | pollTimeout | pollReady
    | remove | serve | skip | leave | readEnd | read =>
    exact (h fd j k hjk hk).imp_right fun hover => hover.concat _

theorem run_inOrder {acts : List (Act θ)} {s : Tcp θ} (hrun : run step start acts = some s) :
    InOrder acts s :=
  run_history (I := fun acts s => InOrder acts s) (fun _ _ _ _ hk => absurd hk List.not_mem_nil)
    (fun _ _ _ _ hu hI hs => hI.step hu (step_cases hs)) hrun

omit [DecidableEq θ] in
/-- In a list without repetition two elements stand in one order only. -/
theorem not_sublist_both {l : List Nat} (hl : l.Nodup) {a b : Nat} (hab : [a, b].Sublist l)
    (hba : [b, a].Sublist l) : False := by
  induction l with
  | nil => cases hab
  | cons x l ih =>
    obtain ⟨hx, hl⟩ := List.nodup_cons.mp hl
    cases hab with
    | cons _ hab =>
      cases hba with
      | cons _ hba => exact ih hl hab hba
      | cons_cons _ _ => exact hx (hab.mem (List.mem_cons_of_mem _ (List.mem_singleton_self _)))
    | cons_cons _ hb =>
      cases hba with
      | cons _ hba => exact hx (hba.mem (List.mem_cons_of_mem _ (List.mem_singleton_self _)))
      | cons_cons _ _ => exact hx (hb.mem (List.mem_singleton_self _))

omit [DecidableEq θ] in
/-- The queue holds the stripped images of the chunks it names. -/
theorem Accounted.messages_eq {s : Tcp θ} (h : Accounted s) (fd : Nat) :
    s.messages fd = (s.order fd).map fun k => strip ((s.chunks fd).getD k []) := by
  rw [messages, order, List.map_map]
  apply List.map_congr_left
  intro e he
  obtain ⟨hpushed, hfd⟩ := List.mem_filter.mp he
  obtain ⟨chunk, hchunk, htext⟩ := h.text e (Or.inl hpushed)
  rw [decide_eq_true_eq] at hfd
  subst hfd
  rw [htext, Function.comp_apply, List.getD_eq_getElem?_getD, hchunk, Option.getD_some]

/-- Without a second worker nothing is overtaken. -/
theorem InOrder.pairwise {acts : List (Act θ)} {s : Tcp θ} (h : InOrder acts s)
    (hA : Accounted s) (hsingle : ∀ t t' : θ, t = t') (fd : Nat) :
    (s.order fd).Pairwise (· < ·) := by
  rw [List.pairwise_iff_forall_sublist]
  intro a b hab
  have hne : a ≠ b := by
    rintro rfl
    exact List.nodup_iff_sublist.mp (hA.nodup fd) a hab
  rcases Nat.lt_or_gt_of_ne hne with hlt | hgt
  · exact hlt
  · exfalso
    rcases h fd b a hgt (hab.mem (List.mem_cons_self ..)) with hba | hover
    · exact not_sublist_both (hA.nodup fd) hab hba
    · obtain ⟨_, _, _, t, t', _, _, _, _, hne', _⟩ := hover
      exact hne' (hsingle t t')

/-- The messages of one connection. They are the stripped images of chunks read from it, each
at most once; a chunk is pushed after every chunk that was read before it, unless two
workers held both at once; and with a single worker they are in the order of the stream. -/
theorem messages_in_order {acts : List (Act θ)} {s : Tcp θ}
    (hrun : run step start acts = some s) (fd : Nat) :
    s.messages fd = (s.order fd).map (fun k => strip ((s.chunks fd).getD k [])) ∧
      (s.order fd).Nodup ∧ (∀ k ∈ s.order fd, k < (s.chunks fd).length) ∧
      (∀ j k, j < k → k ∈ s.order fd → [j, k].Sublist (s.order fd) ∨ Overlap acts fd j k) ∧
      ((∀ t t' : θ, t = t') → (s.order fd).Pairwise (· < ·)) := by
  have hA := run_accounted hrun
  have hO := run_inOrder hrun
  exact ⟨hA.messages_eq fd, hA.nodup fd, fun _ => hA.lt_of_mem_order, hO fd,
    fun hsingle => hO.pairwise hA hsingle fd⟩

/-- One worker, two chunks of one connection. -/
theorem messages_in_order_single :
    ∃ s, run step (start : Tcp Unit)
        [.accept () (some 4), .peerSend 4 [97, 0], .fill (), .poll () (.ready [POLLIN]), .scan (),
          .read () (.bytes 2), .push (), .scan (), .accept () none, .peerSend 4 [98], .fill (),
          .poll () (.ready [POLLIN]), .scan (), .read () (.bytes 1), .push ()] = some s ∧
      (s.order 4).Pairwise (· < ·) ∧ s.messages 4 = [[97], [98]] := by
  obtain ⟨s, hrun, hmessages⟩ : ∃ s, run step (start : Tcp Unit)
      [.accept () (some 4), .peerSend 4 [97, 0], .fill (), .poll () (.ready [POLLIN]), .scan (),
        .read () (.bytes 2), .push (), .scan (), .accept () none, .peerSend 4 [98], .fill (),
        .poll () (.ready [POLLIN]), .scan (), .read () (.bytes 1), .push ()] = some s ∧
      s.messages 4 = [[97], [98]] := ⟨_, rfl, by decide⟩
  exact ⟨s, hrun, (messages_in_order hrun 4).2.2.2.2 fun _ _ => rfl, hmessages⟩

/-- Two workers: the chunk that was read second is pushed first. -/
theorem later_chunk_first :
    ∃ s, run step (start : Tcp Bool)
        [.accept true (some 4), .accept false none, .peerSend 4 [97], .fill true,
          .poll true (.ready [POLLIN]), .scan true, .read true (.bytes 1), .peerSend 4 [98],
          .fill false, .poll false (.ready [POLLIN]), .scan false, .read false (.bytes 1),
          .push false, .push true] = some s ∧
      s.chunks 4 = [[97], [98]] ∧ s.messages 4 = [[98], [97]] :=
  ⟨_, rfl, by decide, by decide⟩

end DataPipeline.Tcp
