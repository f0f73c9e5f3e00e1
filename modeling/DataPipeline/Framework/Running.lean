import DataPipeline.Framework.Once
import DataPipeline.Framework.Stop

/-!
# Until `stop()` begins

Before `stop()` no thread of the pool has terminated, every thread that `run()` has created
is there, and no flag has been cleared. So a job that loops on its flag stays in its loop;
only a consumer that cannot open its file returns.
-/

namespace DataPipeline

open Machine

/-- The instructions of `run()` and of `runJobs`. -/
def Instr.early : Instr → Bool
  | .spawn | .raise | .push _ | .notify | .startMain => true
  | _ => false

namespace Control

/-- `stop()` has not begun. -/
def BeforeStop (plan : Plan) (c : Control) : Prop := plan.stop <:+ c.caller

theorem BeforeStop.of_step {plan : Plan} {c c' : Control} {a : Act} (hb : BeforeStop plan c')
    (h : Step plan c a c') : BeforeStop plan c := by
  unfold BeforeStop at hb ⊢
  rcases h.caller_eq with he | ⟨woken, ins, _, hc⟩
  · exact he ▸ hb
  · exact hc ▸ hb.trans (List.suffix_cons ins _)

/-- What has not begun at the end of a run had not begun before. -/
theorem BeforeStop.of_run {plan : Plan} {u c : Control} {acts : List Act} (hb : BeforeStop plan c)
    (hrun : run (step plan) u acts = some c) : BeforeStop plan u := by
  induction acts generalizing u with
  | nil => exact Option.some.inj hrun ▸ hb
  | cons a acts ih =>
    obtain ⟨v, hv, hrest⟩ := Option.bind_eq_some_iff.mp hrun
    exact (ih hrest).of_step (step_cases hv)

theorem early_of_mem_run {plan : Plan} {ins : Instr} (h : ins ∈ plan.run) : ins.early = true := by
  rcases mem_run h with rfl | rfl | rfl | rfl | ⟨_, rfl⟩ <;> rfl

/-- What the calling thread executes before `stop()` is an instruction of `run()`. -/
theorem early_of_caller {plan : Plan} {c : Control} (hP : Programs plan c) {ins : Instr}
    {rest : List Instr} (hc : c.caller = ins :: rest) (hb : plan.stop <:+ rest) :
    ins.early = true := by
  obtain ⟨todo, rfl⟩ := hb
  obtain ⟨executed, hprogram⟩ := hc ▸ hP.caller
  rw [← List.cons_append, ← List.append_assoc] at hprogram
  have hrun : executed ++ ins :: todo = plan.run := List.append_cancel_right hprogram
  exact early_of_mem_run (hrun ▸ List.mem_append_right _ (List.mem_cons_self ..))

theorem early_of_main {plan : Plan} {c : Control} (hP : Programs plan c) {ins : Instr}
    {todo : List Instr} (hm : c.main = .round (ins :: todo)) : ins.early = true := by
  rcases mem_proxyRun ((hP.main _ hm).mem (List.mem_cons_self ..)) with rfl | ⟨_, rfl⟩ <;> rfl

/-- The invariant rule for what holds until `stop()` begins. -/
theorem run_beforeStop {plan : Plan} {uninitialised : Bool} {I : Control → Prop}
    (hstart : I (start plan uninitialised))
    (hstep : ∀ c a c', Programs plan c → BeforeStop plan c' → I c → Step plan c a c' → I c')
    {acts : List Act} {c : Control}
    (hrun : run (step plan) (start plan uninitialised) acts = some c) (hb : BeforeStop plan c) :
    I c := by
  have h := run_invariant (I := fun c => Programs plan c ∧ (BeforeStop plan c → I c))
    (fun c a c' hI h => ⟨hI.1.step (step_cases h), fun hb' =>
      hstep c a c' hI.1 hb' (hI.2 (hb'.of_step (step_cases h))) (step_cases h)⟩)
    ⟨programs_start plan uninitialised, fun _ => hstart⟩ hrun
  exact h.2 hb

/-! ### While the framework's flag is up -/

/-- A suffix that has what a part begins with goes back to there. -/
theorem cons_suffix_of_mem {α : Type} {x : α} {l a b : List α} (h : l <:+ a ++ x :: b)
    (hx : x ∈ l) (hb : x ∉ b) : x :: b <:+ l := by
  rcases List.suffix_or_suffix_of_suffix h (List.suffix_append a (x :: b)) with h | h
  · rcases List.suffix_cons_iff.mp h with rfl | h
    · exact List.suffix_refl _
    · exact absurd (h.mem hx) hb
  · exact h

/-- A suffix that does not have what a part begins with comes after it. -/
theorem suffix_of_not_mem {α : Type} {x : α} {l a b : List α} (h : l <:+ a ++ x :: b)
    (hx : x ∉ l) : l <:+ b := by
  rcases List.suffix_or_suffix_of_suffix h (List.suffix_append a (x :: b)) with h | h
  · rcases List.suffix_cons_iff.mp h with rfl | h
    · exact absurd (List.mem_cons_self ..) hx
    · exact h
  · exact absurd (h.mem (List.mem_cons_self ..)) hx

/-- The framework's flag is lowered when `stop()` begins. -/
theorem beforeStop_of_isRunning {plan : Plan} {c : Control} (hP : Programs plan c)
    (hL : Lowered c) (h : c.isRunning = true) : BeforeStop plan c := by
  obtain ⟨tail, hstop, htail⟩ := stop_eq plan
  have hlower : .lower ∈ c.caller := hL.resolve_right (Bool.not_eq_false _ ▸ h)
  have htail : .lower ∉ tail := fun hm => Bool.false_ne_true (htail _ hm)
  unfold BeforeStop
  rw [hstop]
  exact cons_suffix_of_mem (hstop ▸ hP.caller) hlower htail

theorem not_mem_afterRaise (plan : Plan) {ins : Instr} (h : ins = .spawn ∨ ins = .raise) :
    ins ∉ afterRaise plan := by
  obtain ⟨tail, hstop, htail⟩ := stop_eq plan
  unfold afterRaise
  rw [hstop]
  intro hm
  rcases List.mem_append.mp hm with hm | hm
  · obtain ⟨job, _, hmem⟩ := List.mem_flatMap.mp hm
    simp only [queueJob, List.mem_cons, List.not_mem_nil, or_false] at hmem
    rcases h with rfl | rfl <;> rcases hmem with he | he <;> cases he
  · rcases List.mem_cons.mp hm with he | hm
    · rcases h with rfl | rfl <;> cases he
    rcases List.mem_cons.mp hm with he | hm
    · rcases h with rfl | rfl <;> cases he
    have hlate := htail _ hm
    rcases h with rfl | rfl <;> cases hlate

/-- The flag is up only after `run()` has raised it. -/
def RaisedOnce (c : Control) : Prop := c.isRunning = true → .raise ∉ c.caller

theorem RaisedOnce.step {plan : Plan} {c c' : Control} {a : Act} (hR : RaisedOnce c)
    (hP : Programs plan c) (h : Step plan c a c') : RaisedOnce c' := by
  cases h with
  | @caller woken ins rest d hc hd =>
    intro hup hm
    by_cases hraise : ins = .raise
    · subst hraise
      have hsuf := hP.caller
      rw [hc, program_eq] at hsuf
      have hspawn : Instr.raise ∉ List.replicate plan.nproc Instr.spawn := fun hm => by
        cases List.eq_of_mem_replicate hm
      rcases List.suffix_cons_iff.mp (suffix_of_cons_suffix hspawn hsuf) with he | hrest
      · exact not_mem_afterRaise plan (Or.inr rfl) ((List.cons.inj he).2 ▸ hm)
      · exact not_mem_afterRaise plan (Or.inr rfl)
          (hrest.mem (List.mem_cons_of_mem _ hm))
    · rw [exec_isRunning hd, if_neg hraise] at hup
      split at hup
      · contradiction
      · exact hR hup (hc ▸ List.mem_cons_of_mem _ hm)
  | @main woken ins todo d hm hd =>
    have hins : ins ∈ plan.proxyRun .input := (hP.main _ hm).mem (List.mem_cons_self ..)
    unfold RaisedOnce
    rw [exec_isRunning hd, exec_caller hd]
    rcases mem_proxyRun hins with rfl | ⟨_, rfl⟩ <;> exact hR
  | mainTest | mainRound | threadLoop | spurious | work => exact hR

theorem run_raisedOnce {plan : Plan} {uninitialised : Bool} {acts : List Act} {c : Control}
    (hrun : run (step plan) (start plan uninitialised) acts = some c) : RaisedOnce c := by
  have h := run_invariant (I := fun c => Programs plan c ∧ RaisedOnce c)
    (fun _ _ _ hI h => ⟨hI.1.step (step_cases h), hI.2.step hI.1 (step_cases h)⟩)
    ⟨programs_start plan uninitialised, nofun⟩ hrun
  exact h.2

/-- While the flag is up all threads have been created. -/
theorem count_spawn_of_isRunning {plan : Plan} {c : Control} (hP : Programs plan c)
    (hR : RaisedOnce c) (h : c.isRunning = true) : c.caller.count .spawn = 0 := by
  have hsuf := suffix_of_not_mem (program_eq plan ▸ hP.caller) (hR h)
  exact List.count_eq_zero.mpr fun hm => not_mem_afterRaise plan (Or.inl rfl) (hsuf.mem hm)

/-! ### The threads of the pool -/

/-- An early instruction leaves the flags of the objects and the pool's own flag as they are. -/
theorem exec_flags {c d : Control} {woken : Option Nat} {ins : Instr} (hins : ins.early = true)
    (h : c.exec woken ins = some d) :
    d.flags = c.flags ∧ d.pool.shouldTerminate = c.pool.shouldTerminate := by
  cases exec_cases h with
  | spawn | raise | push | notifyNobody | notify | startMain => exact ⟨rfl, rfl⟩
  | lower | clear | joinMain | terminate | notifyAll | joinAll => cases hins

/-- An early instruction creates a thread or wakes one. -/
theorem exec_early_threads {c d : Control} {woken : Option Nat} {ins : Instr}
    (hins : ins.early = true) (h : c.exec woken ins = some d) :
    d.pool.threads.length = c.pool.threads.length + [ins].count .spawn ∧
      ∀ t ∈ d.pool.threads, t ∈ c.pool.threads ∨ t = .awake := by
  cases exec_cases h with
  | spawn =>
    exact ⟨List.length_append, fun t ht =>
      (List.mem_append.mp ht).imp_right fun ht => List.mem_singleton.mp ht⟩
  | notify => exact ⟨List.length_set, fun t ht => List.mem_or_eq_of_mem_set ht⟩
  | raise | push | notifyNobody | startMain => exact ⟨rfl, fun t ht => Or.inl ht⟩
  | lower | clear | joinMain | terminate | notifyAll | joinAll => cases hins

/-- No thread of the pool has terminated, and those `run()` has created are there. -/
structure Alive (plan : Plan) (c : Control) : Prop where
  notTerminating : c.pool.shouldTerminate = false
  noneTerminated : .terminated ∉ c.pool.threads
  threads : c.pool.threads.length + c.caller.count .spawn = plan.nproc

theorem Alive.goto {plan : Plan} {c : Control} (hA : Alive plan c) {jobs : List Job} {i : Nat}
    {t : Worker Task} (ht : t ≠ .terminated) (flags : Job → Bool) :
    Alive plan { c with pool := { c.pool with jobs }.goto i t, flags } where
  notTerminating := hA.notTerminating
  noneTerminated := fun hm =>
    (List.mem_or_eq_of_mem_set hm).elim hA.noneTerminated fun he => ht he.symm
  threads := by
    rw [← hA.threads]
    exact congrArg (· + _) List.length_set

theorem Alive.step {plan : Plan} {c c' : Control} {a : Act} (hA : Alive plan c)
    (hP : Programs plan c) (hb : BeforeStop plan c') (h : Step plan c a c') : Alive plan c' := by
  have hkeep : ∀ {d : Control}, (∀ t ∈ d.pool.threads, t ∈ c.pool.threads ∨ t = .awake) →
      .terminated ∉ d.pool.threads := fun hd hm =>
    (hd _ hm).elim hA.noneTerminated nofun
  cases h with
  | @caller woken ins rest d hc hd =>
    have hins := early_of_caller hP hc hb
    obtain ⟨hlength, hthreads⟩ := exec_early_threads hins hd
    refine ⟨(exec_flags hins hd).2.trans hA.notTerminating, hkeep hthreads, ?_⟩
    have hold := hA.threads
    rw [hc, count_cons_eq] at hold
    dsimp only
    omega
  | @main woken ins todo d hm hd =>
    have hins := early_of_main hP hm
    obtain ⟨hlength, hthreads⟩ := exec_early_threads hins hd
    refine ⟨(exec_flags hins hd).2.trans hA.notTerminating, hkeep hthreads, ?_⟩
    have hspawn : [ins].count .spawn = 0 := by
      rcases mem_proxyRun ((hP.main _ hm).mem (List.mem_cons_self ..)) with rfl | ⟨_, rfl⟩ <;> rfl
    rw [hspawn] at hlength
    dsimp only
    rw [exec_caller hd, hlength]
    exact hA.threads
  | mainTest | mainRound => exact ⟨hA.notTerminating, hA.noneTerminated, hA.threads⟩
  | threadLoop hp =>
    obtain ⟨_, ⟨hterm, rfl⟩ | ⟨_, _, rfl⟩ | ⟨job, jobs, _, _, rfl⟩⟩ := Pool.threadLoop_cases hp
    · rw [hA.notTerminating] at hterm
      contradiction
    · exact hA.goto (t := .parked) nofun _
    · exact hA.goto (t := .running ⟨job, .enter⟩) nofun _
  | spurious hp =>
    obtain ⟨_, rfl⟩ := Pool.wake_eq_some hp
    exact hA.goto (t := .awake) nofun _
  | work ht =>
    refine hA.goto ?_ _
    split <;> exact nofun

theorem run_alive {plan : Plan} {uninitialised : Bool} {acts : List Act} {c : Control}
    (hrun : run (step plan) (start plan uninitialised) acts = some c) (hb : BeforeStop plan c) :
    Alive plan c := by
  refine run_beforeStop ?_ (fun _ _ _ hP hb hA h => hA.step hP hb h) hrun hb
  exact ⟨rfl, List.not_mem_nil, (Nat.zero_add _).trans (count_spawn_program plan)⟩

/-! ### The flags -/

/-- What loops on a flag finds it set once it is past its first instruction. -/
structure Raised (plan : Plan) (c : Control) : Prop where
  flag : ∀ i t, c.pool.At i (.running t) → plan.sets t.job = true → t.pc ≠ .enter →
    c.flags t.job = true
  manager : ∀ i pc, c.pool.At i (.running ⟨.dmRun, pc⟩) → pc = .enter ∨ pc = .body ∨ pc = .test

/-- A step after which the threads execute what they executed, or begin a job. -/
theorem Raised.frame {plan : Plan} {c c' : Control} (hR : Raised plan c)
    (hflags : c'.flags = c.flags)
    (hrunning : ∀ i t, c'.pool.At i (.running t) → c.pool.At i (.running t) ∨ t.pc = .enter) :
    Raised plan c' where
  flag := fun i t ht hsets hpc =>
    hflags ▸ hR.flag i t ((hrunning i t ht).resolve_right hpc) hsets hpc
  manager := fun i pc ht => (hrunning i _ ht).elim (hR.manager i pc) Or.inl

theorem Raised.work {plan : Plan} {c : Control} (hR : Raised plan c) {i : Nat} {t : Task}
    (ht : c.pool.At i (.running t)) (outcome : Bool) :
    Raised plan (c.work plan i t outcome) := by
  have hkeep : ∀ job, c.flags job = true → (c.work plan i t outcome).flags job = true := by
    intro job hjob
    unfold Control.work
    dsimp only
    split
    · by_cases he : job = t.job
      · exact he ▸ Function.update_self ..
      · rw [Function.update_of_ne he, hjob]
    · exact hjob
  constructor
  · intro k t' hk hsets hpc
    rcases running_work hk with ⟨_, _, hjob⟩ | ⟨_, hk⟩
    · rw [hjob] at hsets ⊢
      by_cases henter : t.pc = .enter
      · unfold Control.work
        dsimp only
        rw [if_pos ⟨henter, hsets⟩]
        exact Function.update_self ..
      · exact hkeep _ (hR.flag i t ht hsets henter)
    · exact hkeep _ (hR.flag k t' hk hsets hpc)
  · intro k pc hk
    rcases running_work hk with ⟨_, hn, hjob⟩ | ⟨_, hk⟩
    · obtain ⟨job, pc'⟩ := t
      obtain rfl : Job.dmRun = job := hjob
      have hn : dmNext (c.flags .dmRun) outcome pc' = some pc := hn
      rcases hR.manager i pc' ht with rfl | rfl | rfl
      · exact Or.inr (Or.inl (Option.some.inj hn).symm)
      · have he := Option.some.inj hn
        cases outcome
        · exact Or.inr (Or.inr he.symm)
        · exact Or.inr (Or.inl he.symm)
      · obtain ⟨_, he⟩ := Option.ite_none_right_eq_some.mp hn
        exact Or.inr (Or.inl (Option.some.inj he).symm)
    · exact hR.manager k pc hk

theorem Raised.step {plan : Plan} {c c' : Control} {a : Act} (hR : Raised plan c)
    (hP : Programs plan c) (hb : BeforeStop plan c') (h : Step plan c a c') : Raised plan c' := by
  have hbegin : (∀ i outcome, a ≠ .work i outcome) → ∀ i t, c'.pool.At i (.running t) →
      c.pool.At i (.running t) ∨ t.pc = .enter := fun ha i t ht =>
    (h.running ha ht).imp_right And.left
  cases h with
  | @caller woken ins rest d hc hd =>
    exact hR.frame (exec_flags (early_of_caller hP hc hb) hd).1 (hbegin nofun)
  | @main woken ins todo d hm hd =>
    exact hR.frame (exec_flags (early_of_main hP hm) hd).1 (hbegin nofun)
  | mainTest | mainRound | threadLoop | spurious => exact hR.frame rfl (hbegin nofun)
  | work ht => exact hR.work ht _

theorem raised_start (plan : Plan) (uninitialised : Bool) :
    Raised plan (start plan uninitialised) where
  flag := fun _ _ ht => (nomatch ht)
  manager := fun _ _ ht => (nomatch ht)

theorem run_raised {plan : Plan} {uninitialised : Bool} {acts : List Act} {c : Control}
    (hrun : run (step plan) (start plan uninitialised) acts = some c) (hb : BeforeStop plan c) :
    Raised plan c :=
  run_beforeStop (raised_start plan uninitialised) (fun _ _ _ hP hb hR h => hR.step hP hb h) hrun hb

/-! ### What returns -/

/-- A consumer that runs in `job` finds that it cannot open its file. -/
def FailsToOpen (job : Job) (c : Control) (a : Act) : Prop :=
  ∃ i, a = .work i false ∧ c.pool.At i (.running ⟨job, .opening⟩)

/-- Of the jobs that loop on a flag, only consumers that cannot open their files return. -/
theorem Raised.failsToOpen {plan : Plan} {c : Control} (hR : Raised plan c) {a : Act} {job : Job}
    (hsets : plan.sets job = true) (h : job ∈ returned plan c a) :
    plan.type job = some .CONSUMER ∧ FailsToOpen job c a := by
  unfold returned at h
  split at h
  · rename_i i outcome
    split at h
    · rename_i t ht
      obtain ⟨hn, hmem⟩ := List.mem_ite_nil_right.mp h
      obtain rfl := List.mem_singleton.mp hmem
      obtain ⟨job, pc⟩ := t
      have hflag : pc ≠ .enter → c.flags job = true := hR.flag i _ ht hsets
      cases job with
      | dmRun =>
        have hn : dmNext (c.flags .dmRun) outcome pc = none := hn
        rcases hR.manager i pc ht with rfl | rfl | rfl
        · cases hn
        · cases hn
        · rw [hflag nofun] at hn
          cases hn
      | nodeRun side k =>
        have htype : plan.type (.nodeRun side k) = some .CONSUMER := by
          simpa [Plan.sets] using hsets
        simp only [Plan.next, htype] at hn
        refine ⟨htype, i, ?_⟩
        cases pc with
        | opening =>
          cases outcome with
          | false => exact ⟨rfl, ht⟩
          | true => cases hn
        | test =>
          rw [hflag nofun] at hn
          cases hn
        | enter | body | move | write => cases hn
    · exact absurd h List.not_mem_nil
  · exact absurd h List.not_mem_nil

end Control

end DataPipeline
