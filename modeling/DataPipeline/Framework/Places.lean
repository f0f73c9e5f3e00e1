import DataPipeline.Core.Refinement
import DataPipeline.Framework.Once
import DataPipeline.Framework.System

/-!
# Where a job stands and what it has in hand

What a step of a job does to the data goes together with where the job continues. So a
runner is inside `pop` exactly while its thread stands before `Q::move`, and it has popped
messages in hand only while its thread writes them.
-/

namespace DataPipeline.System

open Machine
open Function (update update_self update_of_ne)

/-- A step of job `t` in pool thread `i`: where it goes on and what it leaves, one constructor
for each kind. `isRunning` is the flag of the job's object. -/
inductive Worked (plan : Plan) (s : System) (i : Nat) (isRunning : Bool) :
    Task → Option Pc → System → Prop where
  | begins {job pc'} (hsets : plan.sets job = true)
      (hpc : pc' = some .body ∨ pc' = some .opening) :
      Worked plan s i isRunning ⟨job, .enter⟩ pc' s
  | swept {pipe} (h : Pipe.next plan.popId s.pipe .sweep = some pipe) (hne : pipe.sweep ≠ .idle) :
      Worked plan s i isRunning ⟨.dmRun, .body⟩ (some .body) { s with pipe }
  | passed {pipe} (h : Pipe.next plan.popId s.pipe .sweep = some pipe)
      (he : pipe.sweep = .idle) :
      Worked plan s i isRunning ⟨.dmRun, .body⟩ (some .test) { s with pipe }
  | goesOn {job} (hsets : plan.sets job = true) (hup : isRunning = true) :
      Worked plan s i isRunning ⟨job, .test⟩ (some .body) s
  | opened {job} (hsets : plan.sets job = true) (files : String → List Msg) :
      Worked plan s i isRunning ⟨job, .opening⟩ (some .test) { s with files }
  | found {job pc pipe} (hp : Pops plan job) (hpc : pc = .body ∨ pc = .enter)
      (h : Pipe.next plan.popId s.pipe (.popTest (job, i)) = some pipe)
      (hne : pipe.calls (job, i) ≠ .idle) :
      Worked plan s i isRunning ⟨job, pc⟩ (some .move) { s with pipe }
  | foundNothing {job pc pc' pipe} (hp : Pops plan job)
      (hpc : pc = .body ∧ pc' = some .test ∨ pc = .enter ∧ pc' = none)
      (h : Pipe.next plan.popId s.pipe (.popTest (job, i)) = some pipe)
      (he : pipe.calls (job, i) = .idle) :
      Worked plan s i isRunning ⟨job, pc⟩ pc' { s with pipe }
  | moved {job pipe} (hp : Pops plan job)
      (h : Pipe.next plan.popId s.pipe (.popMove (job, i)) = some pipe) :
      Worked plan s i isRunning ⟨job, .move⟩ (some .write)
        { s with
          pipe
          rest := update s.rest (job, i) (s.rest (job, i) ++
            (pipe.data (job, i)).drop (s.pipe.data (job, i)).length) }
  | handled {job it rest} (hp : Pops plan job) (hr : s.rest (job, i) = it :: rest)
      (files : String → List Msg) :
      Worked plan s i isRunning ⟨job, .write⟩ (some .write)
        { s with files, rest := update s.rest (job, i) rest }
  | finished {job pc'} (hp : Pops plan job) (hr : s.rest (job, i) = [])
      (hpc : pc' = some .test ∨ pc' = none) : Worked plan s i isRunning ⟨job, .write⟩ pc' s
  | leaves {job pc} (h : Pops plan job → pc ≠ .move ∧ pc ≠ .write) :
      Worked plan s i isRunning ⟨job, pc⟩ none s

theorem popTest_cases {plan : Plan} {s d : System} {r : Runner} {outcome : Bool}
    (h : s.popTest plan r outcome = some d) :
    ∃ pipe, Pipe.next plan.popId s.pipe (.popTest r) = some pipe ∧ d = { s with pipe } ∧
      outcome = decide (pipe.calls r ≠ .idle) := by
  obtain ⟨pipe, hpipe, h⟩ := Option.bind_eq_some_iff.mp h
  split at h
  · rename_i he
    exact ⟨pipe, hpipe, (Option.some.inj h).symm, he⟩
  · contradiction

theorem worked_manager {plan : Plan} {s d : System} {i : Nat} {pc : Pc} {isRunning outcome : Bool}
    (h : s.dmEffect outcome pc = some d) :
    Worked plan s i isRunning ⟨.dmRun, pc⟩ (dmNext isRunning outcome pc) d := by
  have hleaves : ∀ pc, Worked plan s i isRunning ⟨.dmRun, pc⟩ none s := fun pc =>
    Worked.leaves fun hp => by rcases hp with hp | hp <;> cases hp
  cases pc with
  | enter =>
    cases h
    exact Worked.begins rfl (Or.inl rfl)
  | body =>
    obtain ⟨pipe, hpipe, h⟩ := Option.bind_eq_some_iff.mp h
    split at h
    · rename_i he
      cases h
      by_cases hidle : pipe.sweep = .idle
      · rw [he, decide_eq_false (not_not.mpr hidle)]
        exact Worked.passed hpipe hidle
      · rw [he, decide_eq_true hidle]
        exact Worked.swept hpipe hidle
    · contradiction
  | test =>
    cases h
    cases isRunning
    · exact hleaves .test
    · exact Worked.goesOn rfl rfl
  | opening | move | write =>
    cases h
    exact hleaves _

theorem worked_consumer {plan : Plan} {s d : System} {i : Nat} {job : Job} {pc : Pc}
    {isRunning outcome : Bool} (hc : plan.type job = some .CONSUMER)
    (h : s.consumerEffect plan (job, i) outcome pc = some d) :
    Worked plan s i isRunning ⟨job, pc⟩ (consumerNext isRunning outcome pc) d := by
  have hp : Pops plan job := Or.inl hc
  have hsets : plan.sets job = true := by
    rw [Plan.sets, hc]
    exact Bool.or_true _
  cases pc with
  | enter =>
    cases h
    exact Worked.begins hsets (Or.inr rfl)
  | opening =>
    cases outcome <;> cases h
    · exact Worked.leaves fun _ => ⟨nofun, nofun⟩
    · exact Worked.opened hsets _
  | test =>
    cases h
    cases isRunning
    · exact Worked.leaves fun _ => ⟨nofun, nofun⟩
    · exact Worked.goesOn hsets rfl
  | body =>
    obtain ⟨pipe, hpipe, rfl, rfl⟩ := popTest_cases h
    by_cases hidle : pipe.calls (job, i) = .idle
    · rw [decide_eq_false (not_not.mpr hidle)]
      exact Worked.foundNothing hp (Or.inl ⟨rfl, rfl⟩) hpipe hidle
    · rw [decide_eq_true hidle]
      exact Worked.found hp (Or.inl rfl) hpipe hidle
  | move =>
    simp only [consumerEffect] at h
    split at h
    · contradiction
    · obtain ⟨pipe, hpipe, rfl⟩ := popMove_eq_some h
      exact Worked.moved hp hpipe
  | write =>
    simp only [consumerEffect] at h
    split at h
    · rename_i hr
      cases h
      exact Worked.handled hp hr _
    · rename_i hr
      cases h
      exact Worked.finished hp hr (Or.inl rfl)
    · contradiction

theorem worked_client {plan : Plan} {s d : System} {i : Nat} {job : Job} {pc : Pc}
    {isRunning outcome : Bool} (hc : plan.type job = some .UDPTX)
    (h : s.clientEffect plan (job, i) outcome pc = some d) :
    Worked plan s i isRunning ⟨job, pc⟩ (clientNext outcome pc) d := by
  have hp : Pops plan job := Or.inr hc
  cases pc with
  | enter =>
    obtain ⟨pipe, hpipe, rfl, rfl⟩ := popTest_cases h
    by_cases hidle : pipe.calls (job, i) = .idle
    · rw [decide_eq_false (not_not.mpr hidle)]
      exact Worked.foundNothing hp (Or.inr ⟨rfl, rfl⟩) hpipe hidle
    · rw [decide_eq_true hidle]
      exact Worked.found hp (Or.inr rfl) hpipe hidle
  | move =>
    obtain ⟨pipe, hpipe, rfl⟩ := popMove_eq_some h
    exact Worked.moved hp hpipe
  | write =>
    simp only [clientEffect] at h
    split at h
    · rename_i hr
      cases h
      exact Worked.handled hp hr _
    · rename_i hr
      cases h
      exact Worked.finished hp hr (Or.inr rfl)
    · contradiction
  | opening | test | body =>
    cases h
    exact Worked.leaves fun _ => by decide

/-- Every step of a job is one of the kinds. -/
theorem worked_of_effect {plan : Plan} {s d : System} {i : Nat} {t : Task} {outcome : Bool}
    (h : s.effect plan i t outcome = some d) (isRunning : Bool) :
    Worked plan s i isRunning t (plan.next isRunning outcome t) d := by
  obtain ⟨job, pc⟩ := t
  cases job with
  | dmRun => exact worked_manager h
  | nodeRun side k =>
    by_cases hc : plan.type (.nodeRun side k) = some .CONSUMER
    · simp only [effect, hc] at h
      simp only [Plan.next, hc]
      exact worked_consumer hc h
    by_cases hu : plan.type (.nodeRun side k) = some .UDPTX
    · simp only [effect, hu] at h
      simp only [Plan.next, hu]
      exact worked_client hu h
    have hstays : s.effect plan i ⟨.nodeRun side k, pc⟩ outcome = some s := by
      unfold effect
      dsimp only
      split <;> first | contradiction | rfl
    have hreturns : plan.next isRunning outcome ⟨.nodeRun side k, pc⟩ = none := by
      unfold Plan.next
      dsimp only
      split <;> first | contradiction | rfl
    obtain rfl := Option.some.inj (hstays.symm.trans h)
    rw [hreturns]
    exact Worked.leaves fun hp => absurd hp (not_or.mpr ⟨hc, hu⟩)

/-! ### Inside `pop` and with messages in hand -/

/-- A step of the queues moves one thread at most within `pop`. -/
theorem next_calls {plan : Plan} {p p' : Pipe Runner Msg} {a : Pipe.Act Runner Msg}
    (h : Pipe.next plan.popId p a = some p') (r : Runner) :
    p'.calls r = p.calls r ∨ a = .popTest r ∨ (a = .popMove r ∧ p'.calls r = .idle) := by
  cases Pipe.next_cases h with
  | pushUnknown | push | passBegin | passMap | passEnd | visitFound | visitSkip | copyBegin
    | copyTo | copyEnd => exact Or.inl rfl
  | @popFail t =>
    by_cases he : r = t
    · exact Or.inr (Or.inl (he ▸ rfl))
    · exact Or.inl (update_of_ne he ..)
  | @popFound t =>
    by_cases he : r = t
    · exact Or.inr (Or.inl (he ▸ rfl))
    · exact Or.inl (update_of_ne he ..)
  | @popMove t =>
    by_cases he : r = t
    · subst he
      exact Or.inr (Or.inr ⟨rfl, update_self ..⟩)
    · exact Or.inl (update_of_ne he ..)

theorem sweep_calls {plan : Plan} {p p' : Pipe Runner Msg}
    (h : Pipe.next plan.popId p .sweep = some p') (r : Runner) : p'.calls r = p.calls r := by
  rcases next_calls h r with he | he | ⟨he, _⟩
  · exact he
  · cases he
  · cases he

/-- Where each runner stands is where its thread stands. -/
structure Tidy (plan : Plan) (s : System) : Prop where
  calls : ∀ job i, s.pipe.calls (job, i) ≠ .idle ↔ s.control.pool.At i (.running ⟨job, .move⟩)
  rest : ∀ job i, s.rest (job, i) ≠ [] → s.control.pool.At i (.running ⟨job, .write⟩)
  pops : ∀ job i pc, s.control.pool.At i (.running ⟨job, pc⟩) → pc = .move ∨ pc = .write →
    Pops plan job

theorem tidy_start (plan : Plan) (uninitialised : Bool) (dm : DataManager Msg) :
    Tidy plan (start plan uninitialised dm) where
  calls := fun _ _ => iff_of_false (fun h => h rfl) nofun
  rest := fun _ _ h => absurd rfl h
  pops := fun _ _ _ h => nomatch h

/-- What a step of a job does to its own runner and to no other one. -/
structure Worked.Own (plan : Plan) (s d : System) (i : Nat) (t : Task) (pc' : Option Pc) :
    Prop where
  callsOther : ∀ r, r ≠ (t.job, i) → d.pipe.calls r = s.pipe.calls r
  calls : d.pipe.calls (t.job, i) ≠ .idle ↔ pc' = some .move
  restOther : ∀ r, r ≠ (t.job, i) → d.rest r = s.rest r
  rest : d.rest (t.job, i) ≠ [] → pc' = some .write
  pops : pc' = some .move ∨ pc' = some .write → Pops plan t.job

theorem Worked.own {plan : Plan} {s d : System} {i : Nat} {isRunning : Bool} {t : Task}
    {pc' : Option Pc} (h : Worked plan s i isRunning t pc' d) (hT : Tidy plan s)
    (ht : s.control.pool.At i (.running t)) : Own plan s d i t pc' := by
  have hidle : t.pc ≠ .move → s.pipe.calls (t.job, i) = .idle := by
    intro hpc
    by_contra hc
    have he := Option.some.inj (((hT.calls t.job i).mp hc).symm.trans ht)
    exact hpc (congrArg Task.pc (Worker.running.inj he)).symm
  have hempty : t.pc ≠ .write → s.rest (t.job, i) = [] := by
    intro hpc
    by_contra hr
    have he := Option.some.inj ((hT.rest t.job i hr).symm.trans ht)
    exact hpc (congrArg Task.pc (Worker.running.inj he)).symm
  have hother : ∀ {pipe a}, Pipe.next plan.popId s.pipe a = some pipe →
      (∀ r, a = .popTest r ∨ a = .popMove r → r = (t.job, i)) →
      ∀ r, r ≠ (t.job, i) → pipe.calls r = s.pipe.calls r := by
    intro pipe a ha hr r hne
    rcases next_calls ha r with he | he | ⟨he, _⟩
    · exact he
    · exact absurd (hr r (Or.inl he)) hne
    · exact absurd (hr r (Or.inr he)) hne
  have hstays : ∀ {pc'' : Option Pc}, t.pc ≠ .move → pc'' ≠ some .move →
      (s.pipe.calls (t.job, i) ≠ .idle ↔ pc'' = some .move) :=
    fun hpc hne => iff_of_false (fun h => h (hidle hpc)) hne
  cases h with
  | begins _ hpc =>
    refine ⟨fun _ _ => rfl, hstays nofun ?_, fun _ _ => rfl, fun h => absurd (hempty nofun) h, ?_⟩
    · rcases hpc with rfl | rfl <;> exact nofun
    · rcases hpc with rfl | rfl <;> rintro (h | h) <;> cases h
  | swept h | passed h =>
    have hsame := sweep_calls h
    refine ⟨fun r _ => hsame r, ?_, fun _ _ => rfl, fun h => absurd (hempty nofun) h,
      by rintro (h | h) <;> cases h⟩
    rw [hsame]
    exact hstays nofun nofun
  | goesOn | opened =>
    exact ⟨fun _ _ => rfl, hstays nofun nofun, fun _ _ => rfl,
      fun h => absurd (hempty nofun) h, by rintro (h | h) <;> cases h⟩
  | found hp hpc h hne =>
    refine ⟨hother h (by rintro r (h | h) <;> cases h; rfl), iff_of_true hne rfl, fun _ _ => rfl,
      fun h => absurd (hempty ?_) h, fun _ => hp⟩
    rcases hpc with rfl | rfl <;> exact nofun
  | foundNothing hp hpc h he =>
    refine ⟨hother h (by rintro r (h | h) <;> cases h; rfl),
      iff_of_false (fun hc => hc he) ?_, fun _ _ => rfl, fun h => absurd (hempty ?_) h,
      fun _ => hp⟩
    · rcases hpc with ⟨rfl, rfl⟩ | ⟨rfl, rfl⟩ <;> exact nofun
    · rcases hpc with ⟨rfl, rfl⟩ | ⟨rfl, rfl⟩ <;> exact nofun
  | @moved job pipe hp h =>
    refine ⟨hother h (by rintro r (h | h) <;> cases h; rfl), ?_,
      fun r hne => update_of_ne hne .., fun _ => rfl, fun _ => hp⟩
    refine iff_of_false (fun hc => hc ?_) nofun
    rcases next_calls h (job, i) with he | he | ⟨_, he⟩
    · cases Pipe.next_cases h with
      | popMove => exact update_self ..
    · cases he
    · exact he
  | handled hp hr =>
    exact ⟨fun _ _ => rfl, hstays nofun nofun, fun r hne => update_of_ne hne .., fun _ => rfl,
      fun _ => hp⟩
  | finished hp hr hpc =>
    refine ⟨fun _ _ => rfl, hstays nofun ?_, fun _ _ => rfl, fun h => absurd hr h, fun _ => hp⟩
    rcases hpc with rfl | rfl <;> exact nofun
  | @leaves job pc h =>
    have hpc : pc ≠ .move := fun he => (h (hT.pops job i pc ht (Or.inl he))).1 he
    have hpc' : pc ≠ .write := fun he => (h (hT.pops job i pc ht (Or.inr he))).2 he
    exact ⟨fun _ _ => rfl, hstays hpc nofun, fun _ _ => rfl, fun h => absurd (hempty hpc') h,
      by rintro (h | h) <;> cases h⟩

/-- After a step of its own a thread is where the job continues, every other thread is where it
was. -/
theorem at_work {plan : Plan} {c : Control} {i k : Nat} {t : Task} {outcome : Bool}
    (ht : c.pool.At i (.running t)) (job : Job) (pc : Pc) :
    (c.work plan i t outcome).pool.At k (.running ⟨job, pc⟩) ↔
      (k = i ∧ job = t.job ∧ plan.next (c.flags t.job) outcome t = some pc) ∨
        (k ≠ i ∧ c.pool.At k (.running ⟨job, pc⟩)) := by
  constructor
  · intro h
    rcases Control.running_work h with ⟨hk, hn, hjob⟩ | hk
    · exact Or.inl ⟨hk, hjob, hn⟩
    · exact Or.inr hk
  · rintro (⟨rfl, rfl, hn⟩ | ⟨hk, hold⟩)
    · have hself := Pool.at_goto_self ht (.running ⟨t.job, pc⟩)
      rw [Control.work, hn]
      exact hself
    · exact Pool.at_goto_of_ne hk _ hold

theorem Tidy.work {plan : Plan} {s d : System} {i : Nat} {t : Task} {outcome : Bool}
    (hT : Tidy plan s) (ht : s.control.pool.At i (.running t))
    (he : s.effect plan i t outcome = some d) :
    Tidy plan { d with control := s.control.work plan i t outcome } := by
  have hown := (worked_of_effect he (s.control.flags t.job)).own hT ht
  have hother : ∀ {job k} pc, (job, k) ≠ (t.job, i) → pc ≠ .enter →
      (s.control.pool.At k (.running ⟨job, pc⟩) ↔
        (s.control.work plan i t outcome).pool.At k (.running ⟨job, pc⟩)) := by
    intro job k pc hne hpc
    rw [at_work ht]
    by_cases hk : k = i
    · subst hk
      have hjob : job ≠ t.job := fun h => hne (h ▸ rfl)
      refine iff_of_false (fun h => hjob ?_) ?_
      · exact congrArg Task.job (Worker.running.inj (Option.some.inj (h.symm.trans ht)))
      · rintro (⟨_, h, _⟩ | ⟨h, _⟩)
        · exact hjob h
        · exact h rfl
    · exact ⟨fun h => Or.inr ⟨hk, h⟩, fun h => h.elim (fun h => absurd h.1 hk) And.right⟩
  have hself : ∀ pc, plan.next (s.control.flags t.job) outcome t = some pc →
      (s.control.work plan i t outcome).pool.At i (.running ⟨t.job, pc⟩) := fun pc hn =>
    (at_work ht t.job pc).mpr (Or.inl ⟨rfl, rfl, hn⟩)
  refine ⟨fun job k => ?_, fun job k hr => ?_, fun job k pc hk hpc => ?_⟩
  · dsimp only
    by_cases hr : (job, k) = (t.job, i)
    · cases hr
      rw [hown.calls, at_work ht]
      exact ⟨fun h => Or.inl ⟨rfl, rfl, h⟩,
        fun h => h.elim (fun h => h.2.2) fun h => absurd rfl h.1⟩
    · rw [hown.callsOther _ hr, hT.calls]
      exact hother .move hr nofun
  · dsimp only at hr ⊢
    by_cases he : (job, k) = (t.job, i)
    · cases he
      exact hself _ (hown.rest hr)
    · rw [hown.restOther _ he] at hr
      exact (hother .write he nofun).mp (hT.rest job k hr)
  · rcases (at_work ht job pc).mp hk with ⟨rfl, rfl, hn⟩ | ⟨_, hold⟩
    · rw [hn] at hown
      exact hown.pops (hpc.imp (congrArg some) (congrArg some))
    · exact hT.pops job k pc hold hpc

theorem Tidy.control {plan : Plan} {s : System} {c : Control} {a : Control.Act}
    (hT : Tidy plan s) (ha : ∀ i outcome, a ≠ .work i outcome)
    (h : Control.Step plan s.control a c) : Tidy plan { s with control := c } := by
  have hat : ∀ {job i} pc, pc ≠ .enter →
      (s.control.pool.At i (.running ⟨job, pc⟩) ↔ c.pool.At i (.running ⟨job, pc⟩)) :=
    fun _ hpc => ⟨h.keeps ha, fun hi => (h.running ha hi).resolve_right fun he => hpc he.1⟩
  refine ⟨fun job i => (hT.calls job i).trans (hat .move nofun), fun job i hr =>
    (hat .write nofun).mp (hT.rest job i hr), fun job i pc hi hpc =>
      hT.pops job i pc ?_ hpc⟩
  refine (hat pc ?_).mpr hi
  rcases hpc with rfl | rfl <;> exact nofun

theorem Tidy.step {plan : Plan} {s s' : System} {a : Act} (hT : Tidy plan s)
    (h : step plan s a = some s') : Tidy plan s' := by
  unfold System.step at h
  split at h
  · obtain ⟨pipe, hpipe, h⟩ := Option.bind_eq_some_iff.mp h
    cases h
    refine ⟨fun job i => ?_, hT.rest, hT.pops⟩
    rcases next_calls hpipe (job, i) with he | he | ⟨he, _⟩
    · dsimp only
      rw [he]
      exact hT.calls job i
    · cases he
    · cases he
  · split at h
    · rename_i ht
      obtain ⟨d, hd, rfl⟩ := Option.map_eq_some_iff.mp h
      exact hT.work ht hd
    · contradiction
  · rename_i a hno
    obtain ⟨c, hc, rfl⟩ := Option.map_eq_some_iff.mp h
    exact hT.control (fun i outcome he => hno i outcome he) (Control.step_cases hc)

theorem run_tidy {plan : Plan} {uninitialised : Bool} {dm : DataManager Msg} {acts : List Act}
    {s : System} (hrun : run (step plan) (start plan uninitialised dm) acts = some s) :
    Tidy plan s :=
  run_invariant (fun _ _ _ hT h => hT.step h) (tidy_start plan uninitialised dm) hrun

/-! ### The two machines along a run -/

/-- The step of the threads in a step of the framework. -/
def controlActs (_ : System) : Act → List Control.Act
  | .control a => [a]
  | .push .. => []

theorem step_control {plan : Plan} {s s' : System} {a : Act} (h : step plan s a = some s') :
    run (Control.step plan) s.control (controlActs s a) = some s'.control := by
  unfold System.step at h
  split at h
  · obtain ⟨pipe, hpipe, h⟩ := Option.bind_eq_some_iff.mp h
    cases h
    rfl
  · split at h
    · rename_i ht
      obtain ⟨d, hd, rfl⟩ := Option.map_eq_some_iff.mp h
      simp only [controlActs, run_cons, Control.step, ht, Option.bind_some, run_nil]
    · contradiction
  · obtain ⟨c, hc, rfl⟩ := Option.map_eq_some_iff.mp h
    simp only [controlActs, run_cons, hc, Option.bind_some, run_nil]

/-- Seen from the threads, a run is one of theirs. -/
theorem run_control {plan : Plan} {uninitialised : Bool} {dm : DataManager Msg} {acts : List Act}
    {s : System} (hrun : run (step plan) (start plan uninitialised dm) acts = some s) :
    run (Control.step plan) (.start plan uninitialised)
      (observe (step plan) controlActs (start plan uninitialised dm) acts) = some s.control :=
  run_part (f := System.control) (fun _ _ _ _ _ h => step_control h) hrun

/-- Seen from the queues, a run is one of theirs. -/
theorem run_piped {plan : Plan} {uninitialised : Bool} {dm : DataManager Msg} {acts : List Act}
    {s : System} (hrun : run (step plan) (start plan uninitialised dm) acts = some s) :
    ∃ pipeActs, Piped plan dm s pipeActs := by
  refine run_invariant (I := fun s => ∃ pipeActs, Piped plan dm s pipeActs) ?_
    ⟨[], piped_start plan uninitialised dm⟩ hrun
  rintro u a v ⟨pipeActs, hp⟩ h
  exact hp.step (step_cases h)

end DataPipeline.System
