import DataPipeline.Framework.Served

/-!
# The order in which the jobs start

The calling thread queues the job of the manager and those of the output nodes before the
`runJobs` thread exists, and that thread queues the input nodes in turn. The queue of the
pool is first in, first out. So however many threads there are and however they interleave,
the jobs start in one order, and the input nodes are served round by round.
-/

namespace DataPipeline.Control

open Machine

variable {plan : Plan} {uninitialised : Bool} {acts : List Act} {c c' : Control}

/-! ### Jobs are taken in the order of the queue -/

/-- The job that a thread of the pool takes in a step. -/
def taken (c : Control) : Act → List Job
  | .threadLoop i =>
    if c.pool.At i .awake ∧ c.pool.shouldTerminate = false then c.pool.jobs.take 1 else []
  | _ => []

/-- All jobs that were started in a run, in order. -/
def startedIn (plan : Plan) (uninitialised : Bool) (acts : List Act) : List Job :=
  observe (step plan) taken (start plan uninitialised) acts

theorem queued_caller {woken : Option Nat} {ins : Instr} {rest : List Instr}
    (hc : c.caller = ins :: rest) : queued c (.caller woken) = ins.pushed := by
  simp only [queued, hc, List.take_succ_cons, List.take_zero, List.flatMap_cons, List.flatMap_nil,
    List.append_nil]

theorem queued_main {woken : Option Nat} {ins : Instr} {todo : List Instr}
    (hm : c.main = .round (ins :: todo)) : queued c (.main woken) = ins.pushed := by
  simp only [queued, hm, List.take_succ_cons, List.take_zero, List.flatMap_cons, List.flatMap_nil,
    List.append_nil]

/-- What is queued goes to the end, and what is taken was at the front. -/
theorem Step.taken {a : Act} (h : Step plan c a c') :
    taken c a ++ c'.pool.jobs = c.pool.jobs ++ queued c a := by
  cases h with
  | caller hc hd =>
    have hjobs := exec_jobs hd
    rwa [queued_caller hc]
  | main hm hd =>
    have hjobs := exec_jobs hd
    rwa [queued_main hm]
  | mainTest hm | mainRound hm =>
    simp only [Control.taken, queued, hm, List.take_nil, List.flatMap_nil, List.append_nil,
      List.nil_append]
  | @threadLoop i pool hp =>
    obtain ⟨hi, ⟨hterm, rfl⟩ | ⟨hup, hnil, rfl⟩ | ⟨job, jobs, hup, hj, rfl⟩⟩ :=
      Pool.threadLoop_cases hp
    · simp only [Control.taken, queued, hterm, Bool.true_eq_false, and_false, ite_false,
        List.append_nil, List.nil_append, Pool.goto]
    · simp only [Control.taken, queued, hi, hup, and_self, ite_true, hnil, List.take_nil,
        List.append_nil, Pool.goto]
    · simp only [Control.taken, queued, hi, hup, and_self, ite_true, hj, List.take_succ_cons,
        List.take_zero, List.append_nil, List.singleton_append, Pool.goto]
  | spurious hp =>
    obtain ⟨_, rfl⟩ := Pool.wake_eq_some hp
    exact (List.append_nil _).symm
  | work => exact (List.append_nil _).symm

/-- What was started and what waits is what was queued. -/
theorem run_taken (hrun : run (step plan) (start plan uninitialised) acts = some c) :
    startedIn plan uninitialised acts ++ c.pool.jobs = queuedIn plan uninitialised acts := by
  refine run_history (I := fun acts c =>
    startedIn plan uninitialised acts ++ c.pool.jobs = queuedIn plan uninitialised acts) rfl ?_ hrun
  intro acts u a v hu hI h
  rw [startedIn, queuedIn, observe_concat _ hu, observe_concat _ hu, List.append_assoc,
    (step_cases h).taken, ← List.append_assoc]
  exact congrArg (· ++ _) hI

/-! ### The calling thread first, then round by round -/

/-- What `run()` queues comes before what the rounds queue. -/
structure CallerFirst (plan : Plan) (log : List Job) (c : Control) : Prop where
  caller : (log.filter fun job => !isInput job) ++ c.caller.flatMap Instr.pushed =
    .dmRun :: plan.jobs .output
  split : log = (log.filter fun job => !isInput job) ++ log.filter isInput
  notYet : c.main = .notStarted → log.filter isInput = []

theorem callerFirst_start (plan : Plan) (uninitialised : Bool) :
    CallerFirst plan [] (start plan uninitialised) :=
  ⟨pushed_caller plan, rfl, fun _ => rfl⟩

/-- Jobs of one kind come in. -/
theorem filter_append_of_forall {α : Type} {p : α → Bool} {l new : List α} {b : Bool}
    (h : ∀ x ∈ new, p x = b) :
    (l ++ new).filter p = l.filter p ++ if b = true then new else [] := by
  rw [List.filter_append]
  cases b with
  | true => rw [if_pos rfl, List.filter_eq_self.mpr h]
  | false =>
    have hnone : new.filter p = [] := List.filter_eq_nil_iff.mpr fun x hx => by
      rw [h x hx]
      exact Bool.false_ne_true
    rw [if_neg Bool.false_ne_true, hnone]

theorem CallerFirst.step {log : List Job} {a : Act} (hF : CallerFirst plan log c)
    (hR : Rounds plan log c) (hP : Programs plan c) (hQ : QueuedFirst c) (h : Step plan c a c') :
    CallerFirst plan (log ++ queued c a) c' := by
  cases h with
  | @caller woken ins rest d hc hd =>
    have hcaller := hF.caller
    rw [hc, List.flatMap_cons, ← List.append_assoc] at hcaller
    have hkind : ∀ job ∈ ins.pushed, isInput job = false := fun job hj =>
      hR.caller job (by rw [hc, List.flatMap_cons]; exact List.mem_append_left _ hj)
    have hother : ∀ job ∈ ins.pushed, (!isInput job) = true := fun job hj => by
      rw [hkind job hj]
      rfl
    rw [queued_caller hc]
    refine ⟨?_, ?_, fun hm => ?_⟩
    · rw [filter_append_of_forall hother]
      exact hcaller
    · rw [filter_append_of_forall hother, filter_append_of_forall hkind, if_pos rfl,
        if_neg Bool.false_ne_true, List.append_nil]
      -- nothing comes after what the calling thread queues
      rcases List.eq_nil_or_concat ins.pushed with hnil | ⟨_, job, he⟩
      · rw [hnil, List.append_nil, List.append_nil]
        exact hF.split
      · have hnot : c.main = .notStarted := hQ.resolve_right fun hnone => by
          rw [hc, List.flatMap_cons, he] at hnone
          simp at hnone
        have hsplit := hF.split
        rw [hF.notYet hnot, List.append_nil] at hsplit ⊢
        rw [← hsplit]
    · rw [filter_append_of_forall hkind, if_neg Bool.false_ne_true, List.append_nil]
      refine hF.notYet ?_
      rcases exec_main hd with he | ⟨_, hnot, _⟩
      · exact he ▸ hm
      · exact hnot
  | @main woken ins todo d hm hd =>
    have hsub : ∀ job ∈ ins.pushed, job ∈ plan.jobs .input := fun job hj => by
      rw [← pushed_proxyRun]
      exact List.mem_flatMap.mpr ⟨ins, (hP.main _ hm).mem List.mem_cons_self, hj⟩
    have hkind : ∀ job ∈ ins.pushed, isInput job = true := fun job hj =>
      (isInput_jobs (hsub job hj)).mpr rfl
    have hother : ∀ job ∈ ins.pushed, (!isInput job) = false := fun job hj => by
      rw [hkind job hj]
      rfl
    rw [queued_main hm]
    refine ⟨?_, ?_, by intro he; cases he⟩
    · rw [filter_append_of_forall hother, if_neg Bool.false_ne_true, List.append_nil]
      dsimp only
      rw [exec_caller hd]
      exact hF.caller
    · rw [filter_append_of_forall hother, filter_append_of_forall hkind, if_pos rfl,
        if_neg Bool.false_ne_true, List.append_nil, ← List.append_assoc, ← hF.split]
  | mainTest hm =>
    simp only [queued, hm, List.append_nil]
    refine ⟨hF.caller, hF.split, fun hnot => ?_⟩
    dsimp only at hnot
    split at hnot <;> cases hnot
  | mainRound hm =>
    simp only [queued, hm, List.take_nil, List.flatMap_nil, List.append_nil]
    exact ⟨hF.caller, hF.split, by intro he; cases he⟩
  | threadLoop | spurious | work =>
    simp only [queued, List.append_nil]
    exact ⟨hF.caller, hF.split, hF.notYet⟩

theorem run_callerFirst (hrun : run (step plan) (start plan uninitialised) acts = some c) :
    CallerFirst plan (queuedIn plan uninitialised acts) c ∧ QueuedFirst c := by
  refine run_history (I := fun acts c =>
    CallerFirst plan (queuedIn plan uninitialised acts) c ∧ QueuedFirst c)
    ⟨callerFirst_start plan uninitialised, Or.inl rfl⟩ ?_ hrun
  rintro acts u a v hu ⟨hF, hQ⟩ h
  rw [queuedIn, observe_concat _ hu]
  have hP := run_programs hu
  exact ⟨hF.step (run_rounds hu) hP hQ (step_cases h), hQ.step hP (step_cases h)⟩

/-- What is queued is the beginning of one list. -/
theorem queued_prefix (hrun : run (step plan) (start plan uninitialised) acts = some c) :
    ∃ r, queuedIn plan uninitialised acts <+:
      (.dmRun :: plan.jobs .output) ++ (List.replicate r (plan.jobs .input)).flatten := by
  obtain ⟨hF, hQ⟩ := run_callerFirst hrun
  rcases hQ with hnot | hnil
  · refine ⟨0, ?_⟩
    rw [hF.split, hF.notYet hnot, List.append_nil, ← hF.caller, List.append_assoc]
    exact List.prefix_append _ _
  · have hcaller := hF.caller
    rw [hnil, List.append_nil] at hcaller
    obtain ⟨r, part, hlog, hpart⟩ := (run_rounds hrun).rounds
    have hbegun : part <+: plan.jobs .input := by
      split at hpart
      · exact ⟨_, hpart⟩
      · exact hpart ▸ List.nil_prefix
    refine ⟨r + 1, ?_⟩
    rw [hF.split, hcaller, hlog, List.replicate_succ', List.flatten_append,
      List.flatten_singleton]
    exact (List.prefix_append_right_inj _).mpr ((List.prefix_append_right_inj _).mpr hbegun)

/-- The beginning of some rounds is whole rounds and a part of one. -/
theorem prefix_rounds {α : Type} {js l : List α} {r : Nat}
    (h : l <+: (List.replicate r js).flatten) :
    ∃ q part rest, l = (List.replicate q js).flatten ++ part ∧ part ++ rest = js := by
  induction r generalizing l with
  | zero =>
    obtain rfl : l = [] := List.prefix_nil.mp h
    exact ⟨0, [], js, rfl, rfl⟩
  | succ r ih =>
    rw [List.replicate_succ, List.flatten_cons] at h
    rcases List.prefix_or_prefix_of_prefix h (List.prefix_append js _) with hl | ⟨l', rfl⟩
    · obtain ⟨rest, he⟩ := hl
      exact ⟨0, l, rest, rfl, he⟩
    · obtain ⟨q, part, rest, rfl, he⟩ := ih ((List.prefix_append_right_inj js).mp h)
      refine ⟨q + 1, part, rest, ?_, he⟩
      rw [List.replicate_succ, List.flatten_cons, List.append_assoc]

/-- The jobs start in one order: first the manager's, then those of the output nodes in the
order of their proxy, then the input nodes round by round. So of two input nodes the earlier one
has been started as often as the later one, or once more. That holds in every run, for any number
of threads. -/
theorem start_order (hrun : run (step plan) (start plan uninitialised) acts = some c) :
    (∃ r, startedIn plan uninitialised acts <+:
      (.dmRun :: plan.jobs .output) ++ (List.replicate r (plan.jobs .input)).flatten) ∧
    ∀ j k, j ≤ k → k < plan.inNodes.length →
      (startedIn plan uninitialised acts).count (.nodeRun .input k) ≤
          (startedIn plan uninitialised acts).count (.nodeRun .input j) ∧
        (startedIn plan uninitialised acts).count (.nodeRun .input j) ≤
          (startedIn plan uninitialised acts).count (.nodeRun .input k) + 1 := by
  obtain ⟨r, hqueued⟩ := queued_prefix hrun
  have hstarted : startedIn plan uninitialised acts <+: _ :=
    (run_taken hrun ▸ List.prefix_append _ _ : _ <+: queuedIn plan uninitialised acts).trans hqueued
  refine ⟨⟨r, hstarted⟩, fun j k hjk hk => ?_⟩
  have hinputs := hstarted.filter isInput
  have hfirst : (.dmRun :: plan.jobs .output).filter isInput = [] :=
    List.filter_eq_nil_iff.mpr fun job hjob => by rw [isInput_pushed hjob]; exact nofun
  have hrounds : (List.replicate r (plan.jobs .input)).flatten.filter isInput =
      (List.replicate r (plan.jobs .input)).flatten := by
    rw [List.filter_eq_self]
    intro job hjob
    obtain ⟨js, hjs, hmem⟩ := List.mem_flatten.mp hjob
    exact (isInput_jobs (List.eq_of_mem_replicate hjs ▸ hmem)).mpr rfl
  rw [List.filter_append, hfirst, hrounds, List.nil_append] at hinputs
  obtain ⟨q, part, rest, hlog, hpart⟩ := prefix_rounds hinputs
  -- the state of a framework that has begun the same round
  have hR : Rounds plan (startedIn plan uninitialised acts)
      { c with caller := [], main := .round (rest.map .push) } :=
    ⟨fun _ hm => absurd hm List.not_mem_nil, q, part, hlog, by
      simpa only [List.flatMap_map, Instr.pushed, List.flatMap_singleton'] using hpart⟩
  exact hR.even hjk hk

/-- Two servers and a consumer on two threads. -/
def twoServers : Plan :=
  ⟨2, [⟨.TCPS, 50000, "TcpServer1"⟩, ⟨.TCPS, 50001, "TcpServer2"⟩], [⟨.CONSUMER, 50000, "Out1"⟩]⟩

/-- The consumer fails to open its file, and its thread serves a round and a half. -/
def roundAndHalf : List Act :=
  List.replicate 8 (.caller none) ++ List.replicate 12 (.main none) ++
    [.threadLoop 0, .threadLoop 1, .work 1 true, .work 1 false, .threadLoop 1, .work 1 true,
      .threadLoop 1, .work 1 true, .threadLoop 1]

/-- The first server has been started twice and the second one once. -/
theorem start_order_two_servers :
    ∃ c, run (step twoServers) (start twoServers false) roundAndHalf = some c ∧
      (startedIn twoServers false roundAndHalf).count (.nodeRun .input 0) = 2 ∧
      (startedIn twoServers false roundAndHalf).count (.nodeRun .input 0) ≤
        (startedIn twoServers false roundAndHalf).count (.nodeRun .input 1) + 1 :=
  ⟨_, rfl, by decide, ((start_order rfl).2 0 1 (by decide) (by decide)).2⟩

end DataPipeline.Control
