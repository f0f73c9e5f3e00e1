import DataPipeline.Broadcast.Order
import DataPipeline.Framework.Control
import DataPipeline.Topology.Config

/-!
# The framework with its data

The threads of a framework together with the queues they work on and the files the
consumers write. A pool thread inside a job is at the same time a thread of the pipe: the
manager's job sweeps, a consumer and a client pop. What is free in the machine of the
threads is now determined by the queues, only opening a file may fail. Any thread may push
at any time.
-/

namespace DataPipeline

open Function (update)
open Machine

/-- A message with its feeder. `early` is history: `stop()` had not begun when it was pushed. -/
structure Msg where
  feeder : String
  text : String
  early : Bool
  deriving DecidableEq, Repr

/-- The manager that `parseConf` leaves, for messages with their history. -/
def World.data (w : World) : Option (DataManager Msg) :=
  w.manager.map (DataManager.map fun text => ⟨"", text, false⟩)

/-- The name a job is queued with; a node pushes and pops under it. -/
def Plan.name (plan : Plan) : Job → String
  | .dmRun => "dm_run"
  | .nodeRun side k => ((plan.nodes side)[k]?.map ProxyNode.name).getD ""

/-- A pool thread inside a job. -/
abbrev Runner := Job × Nat

/-- The name a runner pops for. -/
def Plan.popId (plan : Plan) (r : Runner) : String := plan.name r.1

/-- A framework with its data. -/
structure System where
  control : Control
  pipe : Pipe Runner Msg
  /-- What a runner has popped and not yet written or sent. -/
  rest : Runner → List Msg
  /-- The lines of each consumer's file since it was last opened. -/
  files : String → List Msg
  /-- History: what `DataManager::push` has accepted, in order. -/
  accepted : List Msg

namespace System

/-- Before `run()`, with a manager. -/
def start (plan : Plan) (uninitialised : Bool) (dm : DataManager Msg) : System where
  control := .start plan uninitialised
  pipe := .start dm
  rest := fun _ => []
  files := fun _ => []
  accepted := []

/-- A step of a thread of the framework, or a `push` by any thread. -/
inductive Act where
  | control (a : Control.Act)
  | push (text pushId : String)
  deriving DecidableEq, Repr

/-- `Q::empty` inside `DataManager::pop`. `outcome`: there are messages. -/
def popTest (plan : Plan) (s : System) (r : Runner) (outcome : Bool) : Option System := do
  let pipe ← Pipe.next plan.popId s.pipe (.popTest r)
  if outcome = decide (pipe.calls r ≠ .idle) then some { s with pipe } else none

/-- `Q::move` inside `DataManager::pop`, which appends to the vector of the runner. -/
def popMove (plan : Plan) (s : System) (r : Runner) : Option System := do
  let pipe ← Pipe.next plan.popId s.pipe (.popMove r)
  let appended := (pipe.data r).drop (s.pipe.data r).length
  some { s with pipe, rest := update s.rest r (s.rest r ++ appended) }

/-- A pass of the manager. `outcome`: it goes on. -/
def dmEffect (s : System) (outcome : Bool) : Pc → Option System
  | .body => do
    let pipe ← s.pipe.sweepNext
    if outcome = decide (pipe.sweep ≠ .idle) then some { s with pipe } else none
  | _ => some s

/-- `Consumer::run`. Its vector belongs to the node: to pop while another thread iterates
over it is undefined behaviour. -/
def consumerEffect (plan : Plan) (s : System) (r : Runner) (outcome : Bool) : Pc → Option System
  | .opening =>
    some (if outcome then { s with files := update s.files (plan.name r.1) [] } else s)
  | .body => s.popTest plan r outcome
  | .move =>
    if .running ⟨r.1, .write⟩ ∈ s.control.pool.threads then none else s.popMove plan r
  | .write =>
    match s.rest r, outcome with
    | it :: rest, true =>
      let name := plan.name r.1
      some { s with
        files := update s.files name (s.files name ++ [it])
        rest := update s.rest r rest }
    | [], false => some s
    | _, _ => none
  | _ => some s

/-- `UdpClient::run`. -/
def clientEffect (plan : Plan) (s : System) (r : Runner) (outcome : Bool) : Pc → Option System
  | .enter => s.popTest plan r outcome
  | .move => s.popMove plan r
  | .write =>
    match s.rest r, outcome with
    | _ :: rest, true => some { s with rest := update s.rest r rest }
    | [], false => some s
    | _, _ => none
  | _ => some s

/-- What the step of pool thread `i` inside job `t` does to the data, if the data let it turn
out so. A server only pushes, which any thread may do at any time, and its pass returns at some
later step or, where a `read` waits for ever, at none. -/
def effect (plan : Plan) (s : System) (i : Nat) (t : Task) (outcome : Bool) : Option System :=
  match t.job with
  | .dmRun => s.dmEffect outcome t.pc
  | .nodeRun _ _ =>
    match plan.type t.job with
    | some .CONSUMER => s.consumerEffect plan (t.job, i) outcome t.pc
    | some .UDPTX => s.clientEffect plan (t.job, i) outcome t.pc
    | _ => some s

/-- The framework as a machine. -/
def step (plan : Plan) : Machine System Act
  | s, .push text pushId => do
    let m : Msg := ⟨pushId, text, decide (.lower ∈ s.control.caller)⟩
    let pipe ← Pipe.next plan.popId s.pipe (.push m pushId)
    let accepted :=
      if pushId ∈ s.pipe.manager.inQueuesIds then s.accepted ++ [m] else s.accepted
    some { s with pipe, accepted }
  | s, .control (.work i outcome) =>
    match s.control.pool.threads[i]? with
    | some (.running t) =>
      (s.effect plan i t outcome).map fun d =>
        { d with control := s.control.work plan i t outcome }
    | _ => none
  | s, .control a => (Control.step plan s.control a).map fun c => { s with control := c }

/-! ### What one step can do -/

/-- The node of a runner pops. -/
def Pops (plan : Plan) (job : Job) : Prop :=
  plan.type job = some .CONSUMER ∨ plan.type job = some .UDPTX

/-- What a step of a job does to the data, one constructor for each kind. -/
inductive Effect (plan : Plan) (s : System) (i : Nat) (t : Task) : Bool → System → Prop where
  | sweep {outcome pipe} (hjob : t.job = .dmRun)
      (h : Pipe.next plan.popId s.pipe .sweep = some pipe) :
      Effect plan s i t outcome { s with pipe }
  | opened (ht : plan.type t.job = some .CONSUMER) (hpc : t.pc = .opening) :
      Effect plan s i t true { s with files := update s.files (plan.name t.job) [] }
  | tested {outcome pipe} (ht : Pops plan t.job)
      (hpc : plan.type t.job = some .CONSUMER → t.pc = .body)
      (h : Pipe.next plan.popId s.pipe (.popTest (t.job, i)) = some pipe) :
      Effect plan s i t outcome { s with pipe }
  | moved {outcome pipe} (ht : Pops plan t.job) (hpc : t.pc = .move)
      (h : Pipe.next plan.popId s.pipe (.popMove (t.job, i)) = some pipe) :
      Effect plan s i t outcome
        { s with
          pipe
          rest := update s.rest (t.job, i) (s.rest (t.job, i) ++
            (pipe.data (t.job, i)).drop (s.pipe.data (t.job, i)).length) }
  | wrote {it rest} (ht : plan.type t.job = some .CONSUMER) (hpc : t.pc = .write)
      (hr : s.rest (t.job, i) = it :: rest) :
      Effect plan s i t true
        { s with
          files := update s.files (plan.name t.job) (s.files (plan.name t.job) ++ [it])
          rest := update s.rest (t.job, i) rest }
  | sent {it rest} (ht : plan.type t.job = some .UDPTX) (hpc : t.pc = .write)
      (hr : s.rest (t.job, i) = it :: rest) :
      Effect plan s i t true { s with rest := update s.rest (t.job, i) rest }
  | nothing {outcome} (hpc : plan.type t.job = some .CONSUMER → t.pc = .enter ∨ t.pc = .test ∨
        (outcome = false ∧ (t.pc = .opening ∨ (t.pc = .write ∧ s.rest (t.job, i) = [])))) :
      Effect plan s i t outcome s

/-- The steps of the machine, one constructor for each kind. -/
inductive Step (plan : Plan) (s : System) : Act → System → Prop where
  | push {text pushId pipe} (h : Pipe.next plan.popId s.pipe
        (.push ⟨pushId, text, decide (.lower ∈ s.control.caller)⟩ pushId) = some pipe) :
      Step plan s (.push text pushId)
        { s with
          pipe
          accepted := if pushId ∈ s.pipe.manager.inQueuesIds
            then s.accepted ++ [⟨pushId, text, decide (.lower ∈ s.control.caller)⟩]
            else s.accepted }
  | work {i outcome t d} (ht : s.control.pool.At i (.running t))
      (he : Effect plan s i t outcome d) :
      Step plan s (.control (.work i outcome))
        { d with control := s.control.work plan i t outcome }
  | control {a c} (ha : ∀ i outcome, a ≠ .work i outcome) (h : Control.Step plan s.control a c) :
      Step plan s (.control a) { s with control := c }

theorem popTest_eq_some {plan : Plan} {s d : System} {r : Runner} {outcome : Bool}
    (h : s.popTest plan r outcome = some d) :
    ∃ pipe, Pipe.next plan.popId s.pipe (.popTest r) = some pipe ∧ d = { s with pipe } := by
  obtain ⟨pipe, hpipe, h⟩ := Option.bind_eq_some_iff.mp h
  split at h
  · exact ⟨pipe, hpipe, (Option.some.inj h).symm⟩
  · contradiction

theorem popMove_eq_some {plan : Plan} {s d : System} {r : Runner}
    (h : s.popMove plan r = some d) :
    ∃ pipe, Pipe.next plan.popId s.pipe (.popMove r) = some pipe ∧
      d = { s with
        pipe
        rest := update s.rest r (s.rest r ++ (pipe.data r).drop (s.pipe.data r).length) } := by
  obtain ⟨pipe, hpipe, h⟩ := Option.bind_eq_some_iff.mp h
  exact ⟨pipe, hpipe, (Option.some.inj h).symm⟩

theorem dmEffect_cases {plan : Plan} {s d : System} {i : Nat} {t : Task} {outcome : Bool}
    (hjob : t.job = .dmRun) (h : s.dmEffect outcome t.pc = some d) :
    Effect plan s i t outcome d := by
  unfold dmEffect at h
  split at h
  · obtain ⟨pipe, hpipe, h⟩ := Option.bind_eq_some_iff.mp h
    split at h
    · cases h
      exact Effect.sweep hjob hpipe
    · contradiction
  · cases h
    apply Effect.nothing
    intro ht
    rw [hjob] at ht
    cases ht

theorem consumerEffect_cases {plan : Plan} {s d : System} {i : Nat} {t : Task} {outcome : Bool}
    (ht : plan.type t.job = some .CONSUMER)
    (h : s.consumerEffect plan (t.job, i) outcome t.pc = some d) :
    Effect plan s i t outcome d := by
  cases hpc : t.pc <;> simp only [consumerEffect, hpc] at h
  case enter =>
    cases h
    exact Effect.nothing fun _ => Or.inl hpc
  case opening =>
    cases outcome <;> cases h
    · exact Effect.nothing fun _ => Or.inr (Or.inr ⟨rfl, Or.inl hpc⟩)
    · exact Effect.opened ht hpc
  case test =>
    cases h
    exact Effect.nothing fun _ => Or.inr (Or.inl hpc)
  case body =>
    obtain ⟨pipe, hpipe, rfl⟩ := popTest_eq_some h
    exact Effect.tested (Or.inl ht) (fun _ => hpc) hpipe
  case move =>
    split at h
    · contradiction
    · obtain ⟨pipe, hpipe, rfl⟩ := popMove_eq_some h
      exact Effect.moved (Or.inl ht) hpc hpipe
  case write =>
    split at h
    · rename_i hr
      cases h
      exact Effect.wrote ht hpc hr
    · rename_i hr
      cases h
      exact Effect.nothing fun _ => Or.inr (Or.inr ⟨rfl, Or.inr ⟨hpc, hr⟩⟩)
    · contradiction

theorem clientEffect_cases {plan : Plan} {s d : System} {i : Nat} {t : Task} {outcome : Bool}
    (ht : plan.type t.job = some .UDPTX)
    (h : s.clientEffect plan (t.job, i) outcome t.pc = some d) :
    Effect plan s i t outcome d := by
  have hno : plan.type t.job ≠ some .CONSUMER := by
    rw [ht]
    exact nofun
  cases hpc : t.pc <;> simp only [clientEffect, hpc] at h
  case enter =>
    obtain ⟨pipe, hpipe, rfl⟩ := popTest_eq_some h
    exact Effect.tested (Or.inr ht) (fun hc => absurd hc hno) hpipe
  case move =>
    obtain ⟨pipe, hpipe, rfl⟩ := popMove_eq_some h
    exact Effect.moved (Or.inr ht) hpc hpipe
  case write =>
    split at h
    · rename_i hr
      cases h
      exact Effect.sent ht hpc hr
    · cases h
      exact Effect.nothing fun hc => absurd hc hno
    · contradiction
  all_goals
    cases h
    exact Effect.nothing fun hc => absurd hc hno

theorem effect_cases {plan : Plan} {s d : System} {i : Nat} {t : Task} {outcome : Bool}
    (h : s.effect plan i t outcome = some d) : Effect plan s i t outcome d := by
  unfold effect at h
  split at h
  · rename_i hjob
    exact dmEffect_cases hjob h
  · split at h
    · rename_i ht
      exact consumerEffect_cases ht h
    · rename_i ht
      exact clientEffect_cases ht h
    · rename_i hno _
      cases h
      exact Effect.nothing fun hc => absurd hc hno

/-- Every step of the machine is one of the branches. -/
theorem step_cases {plan : Plan} {s s' : System} {a : Act} (h : step plan s a = some s') :
    Step plan s a s' := by
  unfold step at h
  split at h
  · obtain ⟨pipe, hpipe, h⟩ := Option.bind_eq_some_iff.mp h
    cases h
    exact Step.push hpipe
  · split at h
    · rename_i ht
      obtain ⟨d, hd, rfl⟩ := Option.map_eq_some_iff.mp h
      exact Step.work ht (effect_cases hd)
    · contradiction
  · rename_i a hno
    obtain ⟨c, hc, rfl⟩ := Option.map_eq_some_iff.mp h
    exact Step.control (fun i outcome he => hno i outcome he) (Control.step_cases hc)

/-! ### The two machines it is made of -/

theorem Effect.same {plan : Plan} {s d : System} {i : Nat} {t : Task} {outcome : Bool}
    (h : Effect plan s i t outcome d) : d.control = s.control ∧ d.accepted = s.accepted := by
  cases h <;> exact ⟨rfl, rfl⟩

/-- Seen from the threads, a step is one of theirs or nothing. -/
theorem Step.threads {plan : Plan} {s s' : System} {a : Act} (h : Step plan s a s') :
    s'.control = s.control ∨ ∃ a', Control.Step plan s.control a' s'.control := by
  cases h with
  | push => exact Or.inl rfl
  | work ht => exact Or.inr ⟨_, Control.Step.work ht⟩
  | control _ h => exact Or.inr ⟨_, h⟩

/-- Seen from the queues, an effect is a step of theirs that pushes nothing, or nothing. -/
theorem Effect.pipe {plan : Plan} {s d : System} {i : Nat} {t : Task} {outcome : Bool}
    (h : Effect plan s i t outcome d) :
    d.pipe = s.pipe ∨ ∃ b, Pipe.next plan.popId s.pipe b = some d.pipe ∧
      (∀ f, Pipe.pushOf f b = none) ∧ Pipe.FromFeeder Msg.feeder b := by
  cases h with
  | sweep _ h | tested _ _ h | moved _ _ h => exact Or.inr ⟨_, h, fun _ => rfl, trivial⟩
  | opened | wrote | sent | nothing => exact Or.inl rfl

/-- The queues have made a run whose pushes are what was accepted. -/
structure Piped (plan : Plan) (dm : DataManager Msg) (s : System)
    (acts : List (Pipe.Act Runner Msg)) : Prop where
  run : run (Pipe.next plan.popId) (.start dm) acts = some s.pipe
  source : ∀ a ∈ acts, Pipe.FromFeeder Msg.feeder a
  accepted : ∀ f ∈ dm.inQueuesIds,
    Pipe.completed f acts = s.accepted.filter fun m => m.feeder = f
  known : ∀ m ∈ s.accepted, m.feeder ∈ dm.inQueuesIds

theorem piped_start (plan : Plan) (uninitialised : Bool) (dm : DataManager Msg) :
    Piped plan dm (start plan uninitialised dm) [] where
  run := rfl
  source := fun _ h => absurd h List.not_mem_nil
  accepted := fun _ _ => rfl
  known := fun _ h => absurd h List.not_mem_nil

theorem Piped.step {plan : Plan} {dm : DataManager Msg} {s s' : System}
    {acts : List (Pipe.Act Runner Msg)} {a : Act} (hp : Piped plan dm s acts)
    (h : Step plan s a s') : ∃ acts', Piped plan dm s' acts' := by
  cases h with
  | @push text pushId pipe h =>
    have hids := (Pipe.run_ids hp.run).1
    have hrun := run_concat_eq_some.mpr ⟨s.pipe, hp.run, h⟩
    refine ⟨_, hrun, ?_, fun f hf => ?_, ?_⟩
    · intro b hb
      rcases List.mem_append.mp hb with hb | hb
      · exact hp.source b hb
      · rw [List.mem_singleton.mp hb]
        exact rfl
    · rw [Pipe.completed_concat, hp.accepted f hf, hids, Pipe.pushOf]
      by_cases he : pushId = f
      · subst he
        simp [hf]
      · rw [if_neg he, Option.toList_none, List.append_nil]
        split
        · simp [he]
        · rfl
    · intro m hm
      rw [hids] at hm
      dsimp only at hm
      split at hm
      · rename_i hmem
        rcases List.mem_append.mp hm with hm | hm
        · exact hp.known m hm
        · exact (List.mem_singleton.mp hm) ▸ hmem
      · exact hp.known m hm
  | @work i outcome t d ht he =>
    have haccepted := he.same.2
    rcases he.pipe with hpipe | ⟨b, hb, hpush, hsrc⟩
    · refine ⟨acts, ?_, hp.source, ?_, ?_⟩
      · exact hp.run.trans (congrArg some hpipe.symm)
      · exact haccepted.symm ▸ hp.accepted
      · exact haccepted.symm ▸ hp.known
    · have hrun := run_concat_eq_some.mpr ⟨s.pipe, hp.run, hb⟩
      refine ⟨acts ++ [b], hrun, ?_, fun f hf => ?_, ?_⟩
      · intro b' hb'
        rcases List.mem_append.mp hb' with hb' | hb'
        · exact hp.source b' hb'
        · exact (List.mem_singleton.mp hb') ▸ hsrc
      · rw [Pipe.completed_concat_of_none (hpush f)]
        exact haccepted.symm ▸ hp.accepted f hf
      · exact haccepted.symm ▸ hp.known
  | control => exact ⟨acts, hp.run, hp.source, hp.accepted, hp.known⟩

end System

end DataPipeline
