import DataPipeline.Broadcast.Pops
import DataPipeline.Core.SharedLog

/-!
# The manager refines a shared log

What a manager is for, without its queues and locks: the feeders are the writers of a log
that the consumers read. An input queue is published when its copy begins, since from then
on some consumer may get it; what a reader may then not see is what the copy has not
brought to it yet.
-/

namespace DataPipeline.Pipe

open Machine
open Function (update update_self update_of_ne)

variable {θ T : Type} [DecidableEq θ] {popId : θ → String}

/-- What can be seen of a step: an accepted push, with the number of the feeder's queue, and a
call of `pop` that returns, with the number of the consumer's queue. -/
def shows (popId : θ → String) (s : Pipe θ T) (a : Act θ T) :
    List (SharedLog.Event Nat Nat T) :=
  match a with
  | .push data pushId =>
    ((s.manager.inQueuesIds.lookup pushId).map fun id => .wrote id data).toList
  | a => (s.returns popId a).flatMap fun c =>
    ((s.manager.outQueuesIds.lookup (popId c.thread)).map fun id => .got id c.appended).toList

/-- The input queue that is being copied. -/
def flight (s : Pipe θ T) : List T :=
  match s.sweep with
  | .copying _ i _ => s.waiting i
  | _ => []

/-- A state of the log that stands for a state of the manager. -/
structure Follows (s : Pipe θ T) (l : SharedLog Nat Nat T) : Prop where
  log : ∃ log, Sent s log ∧ l.log.map Prod.snd = log ++ s.flight ∧
    (s.Copying → l.settled = log.length)
  pending : ∀ i, l.pending i = if s.sweep.Holds i then [] else s.waiting i
  position : ∀ j, l.position j = (s.handed j).length

omit [DecidableEq θ] in
theorem follows_start {dm : DataManager T} (h : dm.Registered) :
    Follows (start (θ := θ) dm) SharedLog.start where
  log := ⟨[], sent_start h, rfl, fun ⟨_, hi⟩ => hi.elim⟩
  pending := fun i => (h.1.contents i).symm
  position := fun _ => rfl

omit [DecidableEq θ] in
/-- A step that moves no message. -/
theorem Follows.frame {s s' : Pipe θ T} {l : SharedLog Nat Nat T} (h : Follows s l)
    {log : List T} (hS : Sent s' log) (hlog : l.log.map Prod.snd = log ++ s'.flight)
    (hset : s'.Copying → l.settled = log.length)
    (hheld : ∀ i, s'.sweep.Holds i ↔ s.sweep.Holds i)
    (hin : s'.manager.inQueues = s.manager.inQueues) (hhanded : s'.handed = s.handed) :
    Follows s' l where
  log := ⟨log, hS, hlog, hset⟩
  pending := fun i => by
    rw [h.pending i, waiting, waiting, hin]
    exact if_congr (hheld i).symm rfl rfl
  position := fun j => by rw [h.position j, hhanded]

omit [DecidableEq θ] in
/-- A destination of the copy in progress has all of it or nothing. -/
theorem inFlight_cases (s : Pipe θ T) (j : Nat) :
    s.inFlight j = s.flight ∨ (s.inFlight j = [] ∧ s.Copying) := by
  unfold inFlight flight
  cases hw : s.sweep with
  | copying _ i enableCopy =>
    by_cases hj : j ∈ enableCopy
    · exact Or.inr ⟨if_pos hj, i, by rw [hw]; exact rfl⟩
    · exact Or.inl (if_neg hj)
  | idle | visit | nonEmpty => exact Or.inl rfl

omit [DecidableEq θ] in
/-- What is in a consumer's queue is what the log lets its reader read next. -/
theorem Follows.unread {s : Pipe θ T} {l : SharedLog Nat Nat T} (h : Follows s l) {j : Nat}
    (hj : j < s.manager.outQueues.length) :
    (l.position j + (contents s.manager.outQueues j).length = l.log.length ∨
        l.position j + (contents s.manager.outQueues j).length = l.settled) ∧
      ((l.log.drop (l.position j)).take (contents s.manager.outQueues j).length).map Prod.snd =
        contents s.manager.outQueues j := by
  obtain ⟨log, hS, hlog, hset⟩ := h.log
  have hsent : s.handed j ++ contents s.manager.outQueues j = log ++ s.inFlight j := hS j hj
  have hlen := congrArg List.length hsent
  have htotal := congrArg List.length hlog
  rw [List.length_append] at hlen
  rw [List.length_map, List.length_append] at htotal
  have hprefix : ∃ rest, l.log.map Prod.snd =
      s.handed j ++ (contents s.manager.outQueues j ++ rest) := by
    rcases s.inFlight_cases j with he | ⟨he, _⟩
    · exact ⟨[], by rw [hlog, ← he, ← hsent, List.append_nil]⟩
    · rw [he, List.append_nil] at hsent
      exact ⟨s.flight, by rw [hlog, ← hsent, List.append_assoc]⟩
  constructor
  · rw [h.position j]
    rcases s.inFlight_cases j with he | ⟨he, hc⟩
    · rw [he, List.length_append] at hlen
      exact Or.inl (by omega)
    · rw [he, List.append_nil] at hlen
      exact Or.inr (by rw [hset hc]; omega)
  · obtain ⟨rest, hrest⟩ := hprefix
    rw [List.map_take, List.map_drop, hrest, h.position j, List.drop_left, List.take_left]

omit [DecidableEq θ] in
/-- A read of all that is in a consumer's queue. -/
theorem Follows.read {s : Pipe θ T} {l : SharedLog Nat Nat T} (h : Follows s l) {j : Nat}
    (hj : j < s.manager.outQueues.length) :
    run SharedLog.step l [.read j (contents s.manager.outQueues j).length] =
        some { l with
          position := update l.position j
            (l.position j + (contents s.manager.outQueues j).length) } ∧
      observe SharedLog.step SharedLog.shows l [.read j (contents s.manager.outQueues j).length] =
        [.got j (contents s.manager.outQueues j)] := by
  obtain ⟨hn, hread⟩ := h.unread hj
  constructor
  · simp only [run_cons, run_nil, SharedLog.step, if_pos hn, Option.bind_some]
  · simp only [observe, SharedLog.shows, SharedLog.step, if_pos hn, Option.map_some,
      Option.getD_some, List.append_nil, hread]

/-! ### One step of the manager -/

/-- Every step of the manager is matched by steps of the log that show the same. -/
theorem Follows.step {s s' : Pipe θ T} {l : SharedLog Nat Nat T} {a : Act θ T} (h : Follows s l)
    (hw : Wired popId s) (hnext : next popId s a = some s') :
    ∃ bs l', run SharedLog.step l bs = some l' ∧ Follows s' l' ∧
      observe SharedLog.step SharedLog.shows l bs = shows popId s a := by
  obtain ⟨log, hS, hlog, hset⟩ := h.log
  have hstep := next_cases hnext
  have hsent := hS.step hw hstep
  cases hstep with
  | pushUnknown hl =>
    refine ⟨[], l, rfl, h, ?_⟩
    rw [shows, hl]
    rfl
  | @push data pushId id q hl hfree hq =>
    have hlt := (List.getElem?_eq_some_iff.mp hq).1
    simp only [joined, List.append_nil] at hsent
    refine ⟨[.write id data], _, rfl, ⟨⟨log, hsent, ?_, hset⟩, fun i => ?_, h.position⟩, ?_⟩
    · rw [hlog]
      unfold flight
      cases hsw : s.sweep with
      | copying _ i _ =>
        have hne : id ≠ i := fun he => hfree (by rw [hsw]; exact he.symm)
        simp only [waiting, contents_set hlt, if_neg hne]
      | idle | visit | nonEmpty => rfl
    · simp only [waiting, contents_set hlt]
      by_cases hi : i = id
      · subst hi
        rw [update_self, h.pending i, if_neg hfree, if_neg hfree, if_pos rfl, waiting,
          contents_eq hq, Q.queue_push]
      · rw [update_of_ne hi, h.pending i, if_neg (Ne.symm hi)]
        rfl
    · rw [shows, hl]
      rfl
  | @popFail t hc hnone =>
    simp only [joined, List.append_nil] at hsent
    have hfollows : Follows (s.ret t false) l :=
      h.frame hsent hlog hset (fun _ => Iff.rfl) rfl rfl
    cases hl : s.manager.outQueuesIds.lookup (popId t) with
    | none =>
      refine ⟨[], l, rfl, hfollows, ?_⟩
      simp [shows, returns_popFail hnext, hl]
      rfl
    | some j =>
      have hj := hw.belowOut _ j hl
      obtain ⟨hrun, hshown⟩ := h.read hj
      rw [hnone j hl, List.length_nil, Nat.add_zero, Function.update_eq_self] at hrun
      rw [hnone j hl, List.length_nil] at hshown
      refine ⟨_, l, hrun, hfollows, ?_⟩
      rw [hshown]
      simp [shows, returns_popFail hnext, hl]
  | popFound hc hl hq hne =>
    simp only [joined, List.append_nil] at hsent
    refine ⟨[], l, rfl, h.frame hsent hlog hset (fun _ => Iff.rfl) rfl rfl, ?_⟩
    rw [shows, returns_popFound hnext]
    · rfl
    · intro _ _ he
      cases he
  | @popMove t id q hc hq =>
    simp only [joined, List.append_nil] at hsent
    have hlt := (List.getElem?_eq_some_iff.mp hq).1
    have hl := hw.calls t id hc
    obtain ⟨hrun, hshown⟩ := h.read hlt
    rw [contents_eq hq] at hrun hshown
    refine ⟨_, _, hrun, ⟨⟨log, hsent, hlog, hset⟩, h.pending, fun j => ?_⟩, ?_⟩
    · by_cases hj : j = id
      · subst hj
        simp only [ret, update_self, List.length_append, h.position j]
      · simp only [ret, update_of_ne hj, h.position j]
    · rw [hshown]
      simp [shows, returns_popMove hc hq, hl]
  | passMap hsw =>
    simp only [joined, hsw, List.append_nil] at hsent
    exact ⟨[], l, rfl, h, rfl⟩
  | passBegin hsw | passEnd hsw | visitFound hsw | visitSkip hsw =>
    simp only [joined, hsw, List.append_nil] at hsent
    refine ⟨[], l, rfl, h.frame hsent ?_ ?_ ?_ rfl rfl, rfl⟩
    · rw [hlog]
      simp only [flight, hsw]
    · rintro ⟨i, hi⟩
      exact hi.elim
    · intro i
      rw [hsw]
      exact Iff.rfl
  | @copyBegin broadCastList i hsw =>
    simp only [joined, hsw, List.append_nil] at hsent
    have hflight : s.flight = [] := by simp only [flight, hsw]
    have hpending : ∀ k, l.pending k = s.waiting k := fun k => by
      rw [h.pending k, hsw]
      exact if_neg id
    rw [hflight, List.append_nil] at hlog
    refine ⟨[.publish i], _, rfl, ⟨⟨log, hsent, ?_, fun _ => ?_⟩, fun k => ?_, h.position⟩, rfl⟩
    · simp only [List.map_append, hlog, List.map_map, Function.comp_def, List.map_id', flight,
        hpending]
      rfl
    · rw [← hlog, List.length_map]
    · dsimp only
      by_cases hk : k = i
      · subst hk
        rw [update_self]
        exact (if_pos rfl).symm
      · rw [update_of_ne hk, hpending]
        exact (if_neg (Ne.symm hk)).symm
  | @copyTo broadCastList i id enableCopy it other hsw hi hid =>
    simp only [joined, hsw, List.append_nil] at hsent
    refine ⟨[], l, rfl, h.frame hsent ?_ (fun _ => hset ⟨i, by rw [hsw]; exact rfl⟩) ?_ rfl rfl,
      rfl⟩
    · rw [hlog]
      simp only [flight, hsw, waiting]
    · intro k
      rw [hsw]
      exact Iff.rfl
  | @copyEnd broadCastList i it hsw hi =>
    have hlt := (List.getElem?_eq_some_iff.mp hi).1
    simp only [joined, hsw] at hsent
    refine ⟨[], l, rfl, ⟨⟨_, hsent, ?_, ?_⟩, fun k => ?_, h.position⟩, rfl⟩
    · rw [hlog]
      simp only [flight, hsw, List.append_nil]
    · rintro ⟨k, hk⟩
      exact hk.elim
    · rw [h.pending k, hsw]
      simp only [waiting, contents_set hlt]
      by_cases hk : i = k
      · subst hk
        rw [if_pos rfl, ite_self]
        exact if_pos rfl
      · rw [if_neg hk]
        exact (if_neg hk).trans (if_neg id).symm

/-! ### Whole runs -/

theorem refines_of_registered {dm : DataManager T} (h : dm.Registered) :
    Refines (next popId) (shows popId) (start dm) SharedLog.step SharedLog.shows
      SharedLog.start := by
  refine refines_of_simulation (R := Follows) (follows_start h) ?_
  intro acts s a s' l hs hF hnext
  exact hF.step (run_wired h hs) hnext

/-- The manager, with any number of threads that push and pop in any interleaving with the
broadcasts, refines a shared log: whatever its pushes and the returns of its pops show could
have been shown by the log. -/
theorem refines_sharedLog {conf : DataManagerConf} {regs : List (DataManager.Op T)}
    (hregs : ∀ op ∈ regs, op.Registers) {dm : DataManager T}
    (hdm : run DataManager.step (.new conf) regs = some dm) :
    Refines (next popId) (shows popId) (start dm) SharedLog.step SharedLog.shows
      SharedLog.start :=
  refines_of_registered (DataManager.registered_of_run hregs hdm)

/-- A feeder and a consumer that two threads pop for. -/
theorem refines_sharedLog_two_threads :
    Refines (next fun _ : Bool => "c") (shows fun _ => "c")
      (start (T := Nat)
        (((DataManager.new ⟨"dm", 8, 8, .BROADCAST⟩).setFeeder "f").1.setConsumer "c").1)
      SharedLog.step SharedLog.shows SharedLog.start := by
  have hregs : ∀ op ∈ [.setFeeder "f", .setConsumer "c"],
      DataManager.Op.Registers (T := Nat) op := by
    simp [DataManager.Op.Registers]
  exact refines_sharedLog hregs rfl

/-- In every run one log explains what was seen: each consumer has got the beginning of it, and
each feeder's part of it is the beginning of what was pushed for the feeder. -/
theorem seen_explained {conf : DataManagerConf} {regs : List (DataManager.Op T)}
    (hregs : ∀ op ∈ regs, op.Registers) {dm : DataManager T}
    (hdm : run DataManager.step (.new conf) regs = some dm) {acts : List (Act θ T)}
    {s : Pipe θ T} (hrun : run (next popId) (start dm) acts = some s) :
    SharedLog.Explained (observe (next popId) (shows popId) (start dm) acts) :=
  (refines_of_registered (DataManager.registered_of_run hregs hdm)).shown
    (fun _ _ h => SharedLog.explained_of_run h) hrun

/-- The same text from two feeders, half of it popped. -/
theorem seen_explained_same_text :
    SharedLog.Explained (observe (next id) (shows id) (start (T := Nat)
        ((((DataManager.new ⟨"dm", 8, 8, .BROADCAST⟩).setFeeder "f").1.setFeeder "g").1.setConsumer
          "c").1)
      (.push 7 "f" :: List.replicate 6 .sweep ++ [.popTest "c", .push 7 "g", .popMove "c"])) := by
  have hregs : ∀ op ∈ [.setFeeder "f", .setFeeder "g", .setConsumer "c"],
      DataManager.Op.Registers (T := Nat) op := by
    simp [DataManager.Op.Registers]
  exact seen_explained hregs rfl rfl

end DataPipeline.Pipe
