import DataPipeline.Framework.Once
import DataPipeline.Framework.System
import DataPipeline.Topology.Wiring

/-!
# What is written when `stop()` has returned

`stop()` clears all flags and waits for the jobs, not for the messages. What a consumer
has popped is in its file or in its hands, and its hands are empty when it leaves its loop.
So its file has everything exactly if nothing was left for it in the queues then, and
nothing adds to the file afterwards.
-/

namespace DataPipeline.System

open Machine
open Function (update)

/-- A job of the output proxy that is `run()` of a consumer, the only node with its name that
pops. -/
structure Alone (plan : Plan) (job : Job) : Prop where
  consumer : plan.type job = some .CONSUMER
  output : Control.isInput job = false
  unique : ∀ job', Pops plan job' → plan.name job' = plan.name job → job' = job

/-- What the file and the vector of a consumer hold while pool thread `i` is at a place. -/
def Writes (plan : Plan) (job : Job) (j : Nat) (s : System) (i : Nat) : Pc → Prop
  | .enter | .opening => s.pipe.handed j = [] ∧ s.rest (job, i) = []
  | .test | .body | .move =>
    s.files (plan.name job) = s.pipe.handed j ∧ s.rest (job, i) = []
  | .write => s.files (plan.name job) ++ s.rest (job, i) = s.pipe.handed j

/-- What was moved out of a consumer's queue is in its file or about to be written. -/
structure Written (plan : Plan) (job : Job) (j : Nat) (s : System) : Prop where
  running : ∀ i pc, s.control.pool.At i (.running ⟨job, pc⟩) → Writes plan job j s i pc
  unstarted : s.control.Unstarted job → s.pipe.handed j = [] ∧ ∀ i, s.rest (job, i) = []

theorem Writes.congr {plan : Plan} {job : Job} {j : Nat} {s d : System} {i : Nat} {pc : Pc}
    (h : Writes plan job j s i pc) (hf : d.files (plan.name job) = s.files (plan.name job))
    (hh : d.pipe.handed j = s.pipe.handed j) (hr : d.rest (job, i) = s.rest (job, i)) :
    Writes plan job j d i pc := by
  cases pc <;> simp only [Writes, hf, hh, hr] <;> exact h

/-- A consumer's job goes on as `Consumer::run` does. -/
theorem next_consumer {plan : Plan} {job : Job} (h : plan.type job = some .CONSUMER)
    (isRunning outcome : Bool) (pc : Pc) :
    plan.next isRunning outcome ⟨job, pc⟩ = consumerNext isRunning outcome pc := by
  cases job with
  | dmRun => cases h
  | nodeRun => simp only [Plan.next, h]

/-! ### Each step keeps what was popped and what was written together -/

/-- The steps of other jobs touch neither the file of a consumer nor its queue. -/
theorem Effect.frame {plan : Plan} {job : Job} {j : Nat} {s d : System} {i : Nat} {t : Task}
    {outcome : Bool} (h : Effect plan s i t outcome d) (hA : Alone plan job)
    (hw : Pipe.Wired plan.popId s.pipe)
    (hj : s.pipe.manager.outQueuesIds.lookup (plan.name job) = some j) (hne : t.job ≠ job) :
    d.files (plan.name job) = s.files (plan.name job) ∧ d.pipe.handed j = s.pipe.handed j ∧
      ∀ k, d.rest (job, k) = s.rest (job, k) := by
  have hname : Pops plan t.job → plan.name job ≠ plan.name t.job :=
    fun hp he => hne (hA.unique _ hp he.symm)
  have hrunner : ∀ k, (job, k) ≠ (t.job, i) := fun k he => hne (congrArg Prod.fst he).symm
  cases h with
  | sweep _ h | tested _ _ h =>
    exact ⟨rfl, (Pipe.next_cases h).handed hw (fun _ he => nomatch he), fun _ => rfl⟩
  | moved ht _ h =>
    refine ⟨rfl, (Pipe.next_cases h).handed hw fun r he hr => ?_, fun k => ?_⟩
    · cases he
      exact hname ht (hw.distinctOut _ _ j hj hr)
    · exact Function.update_of_ne (hrunner k) ..
  | opened ht =>
    exact ⟨Function.update_of_ne (hname (Or.inl ht)) .., rfl, fun _ => rfl⟩
  | wrote ht =>
    exact ⟨Function.update_of_ne (hname (Or.inl ht)) .., rfl,
      fun k => Function.update_of_ne (hrunner k) ..⟩
  | sent => exact ⟨rfl, rfl, fun k => Function.update_of_ne (hrunner k) ..⟩
  | nothing => exact ⟨rfl, rfl, fun _ => rfl⟩

/-- A step of the consumer itself, to its next place. -/
theorem Effect.writes {plan : Plan} {job : Job} {j : Nat} {s d : System} {i : Nat} {pc pc' : Pc}
    {isRunning outcome : Bool} (h : Effect plan s i ⟨job, pc⟩ outcome d)
    (hc : plan.type job = some .CONSUMER) (hw : Pipe.Wired plan.popId s.pipe)
    (hj : s.pipe.manager.outQueuesIds.lookup (plan.name job) = some j)
    (hold : Writes plan job j s i pc)
    (hn : plan.next isRunning outcome ⟨job, pc⟩ = some pc') : Writes plan job j d i pc' := by
  rw [next_consumer hc] at hn
  cases h with
  | sweep hjob =>
    obtain rfl : job = .dmRun := hjob
    cases hc
  | opened _ hpc =>
    obtain rfl : pc = .opening := hpc
    cases hn
    exact ⟨(Function.update_self ..).trans hold.1.symm, hold.2⟩
  | tested _ hpc h =>
    obtain rfl : pc = .body := hpc hc
    have hhanded := (Pipe.next_cases h).handed hw (j := j) fun _ he => nomatch he
    cases outcome <;> cases hn <;> exact ⟨hold.1.trans hhanded.symm, hold.2⟩
  | moved _ hpc h =>
    obtain rfl : pc = .move := hpc
    cases hn
    obtain ⟨moved, hhanded, hdata⟩ := (Pipe.next_cases h).popMoved hw hj
    simp only [Writes, Function.update_self, hdata, List.drop_left, hhanded, hold.2,
      List.nil_append, hold.1]
  | wrote _ hpc hr =>
    obtain rfl : pc = .write := hpc
    cases hn
    simp only [Writes] at hold hr ⊢
    rw [hr] at hold
    rw [Function.update_self, Function.update_self, List.append_assoc]
    exact hold
  | sent ht => cases hc.symm.trans ht
  | nothing hpc =>
    rcases hpc hc with he | he | ⟨rfl, he | ⟨he, hr⟩⟩
    · obtain rfl : pc = .enter := he
      cases hn
      exact hold
    · obtain rfl : pc = .test := he
      cases isRunning <;> cases hn
      exact hold
    · obtain rfl : pc = .opening := he
      cases hn
    · obtain rfl : pc = .write := he
      cases hn
      simp only [Writes] at hold hr ⊢
      rw [hr, List.append_nil] at hold
      exact ⟨hold, hr⟩

theorem Written.step {plan : Plan} {job : Job} {j : Nat} {s s' : System} {a : Act}
    (hW : Written plan job j s) (hA : Alone plan job) (hw : Pipe.Wired plan.popId s.pipe)
    (hj : s.pipe.manager.outQueuesIds.lookup (plan.name job) = some j)
    (hP : Control.Programs plan s.control) (hl : s.control.load job ≤ 1) (h : Step plan s a s') :
    Written plan job j s' := by
  cases h with
  | push h =>
    have hhanded := (Pipe.next_cases h).handed hw (j := j) fun _ he => nomatch he
    exact ⟨fun i pc hi => (hW.running i pc hi).congr rfl hhanded rfl,
      fun hu => ⟨hhanded.trans (hW.unstarted hu).1, (hW.unstarted hu).2⟩⟩
  | control ha h =>
    refine ⟨fun i pc hi => ?_, fun hu => hW.unstarted (h.unstarted hP hA.output hu)⟩
    rcases h.running ha hi with hi | ⟨he, hmem⟩
    · exact hW.running i pc hi
    · obtain rfl : pc = .enter := he
      exact ⟨(hW.unstarted (Or.inr hmem)).1, (hW.unstarted (Or.inr hmem)).2 i⟩
  | @work i outcome t d ht he =>
    have hstep : Control.Step plan s.control (.work i outcome)
        (s.control.work plan i t outcome) := .work ht
    by_cases hjob : t.job = job
    · obtain ⟨tjob, pc⟩ := t
      obtain rfl : tjob = job := hjob
      refine ⟨fun k pc' hk => ?_, fun hu => ?_⟩
      · rcases Control.running_work hk with ⟨rfl, hn, _⟩ | ⟨hne, hk⟩
        · exact (he.writes hA.consumer hw hj (hW.running k pc ht) hn).congr rfl rfl rfl
        · exact absurd (Control.eq_of_running hl ht hk) hne
      · exact absurd (hstep.unstarted hP hA.output hu) (Control.not_unstarted hl ht)
    · obtain ⟨hfiles, hhanded, hrest⟩ := he.frame hA hw hj hjob
      refine ⟨fun k pc hk => ?_, fun hu => ?_⟩
      · rcases Control.running_work hk with ⟨_, _, he⟩ | ⟨_, hk⟩
        · exact absurd he.symm hjob
        · exact (hW.running k pc hk).congr hfiles hhanded (hrest k)
      · have hold := hW.unstarted (hstep.unstarted hP hA.output hu)
        exact ⟨hhanded.trans hold.1, fun k => (hrest k).trans (hold.2 k)⟩

/-! ### A consumer that leaves when nothing is left for it -/

/-- A place of `Consumer::run` at which the file is open. -/
def opened : Pc → Bool
  | .enter | .opening => false
  | _ => true

/-- The thread executes the job and has its file open. -/
def hasOpened (job : Job) : Worker Task → Bool
  | .running t => t.job == job && opened t.pc
  | _ => false

/-- Nothing that was pushed before `stop()` began is in an input queue or in the queue of a
consumer. -/
def Drained (s : System) (name : String) : Prop :=
  (∀ q ∈ s.pipe.manager.inQueues, ∀ m ∈ q.queue, m.early = false) ∧
    ∀ j ∈ s.pipe.manager.outQueuesIds.lookup name,
      ∀ m ∈ contents s.pipe.manager.outQueues j, m.early = false

instance (s : System) (name : String) : Decidable (Drained s name) :=
  match h : s.pipe.manager.outQueuesIds.lookup name with
  | none => decidable_of_iff (∀ q ∈ s.pipe.manager.inQueues, ∀ m ∈ q.queue, m.early = false)
      ⟨fun hin => ⟨hin, fun _ hj => nomatch h.symm.trans hj⟩, fun hd => hd.1⟩
  | some j => decidable_of_iff ((∀ q ∈ s.pipe.manager.inQueues, ∀ m ∈ q.queue, m.early = false) ∧
        ∀ m ∈ contents s.pipe.manager.outQueues j, m.early = false)
      ⟨fun hin => ⟨hin.1, fun _ hj => Option.some.inj (h.symm.trans hj) ▸ hin.2⟩,
        fun hd => ⟨hd.1, hd.2 j h⟩⟩

/-- `stop()` begins when the consumers of the output proxy are running, their files open. -/
def StopsOpened (plan : Plan) (s : System) : Act → Prop
  | .control (.caller _) => s.control.caller.head? = some .lower →
      ∀ job ∈ plan.jobs .output, plan.type job = some .CONSUMER →
        s.control.pool.threads.any (hasOpened job) = true
  | _ => True

instance (plan : Plan) (s : System) (a : Act) : Decidable (StopsOpened plan s a) := by
  unfold StopsOpened
  split <;> infer_instance

/-- A consumer of the output proxy leaves its loop when nothing early is left for it. -/
def LeavesDrained (plan : Plan) (s : System) : Act → Prop
  | .control (.work i _) =>
    match s.control.pool.threads[i]? with
    | some (.running ⟨job, .test⟩) => job ∈ plan.jobs .output →
        plan.type job = some .CONSUMER → s.control.flags job = false → Drained s (plan.name job)
    | _ => True
  | _ => True

instance (plan : Plan) (s : System) (a : Act) : Decidable (LeavesDrained plan s a) := by
  unfold LeavesDrained
  split
  · split <;> infer_instance
  · infer_instance

/-- The file of a consumer has what was pushed before `stop()` began, as often as it was
accepted. -/
def Delivered (s : System) (name : String) : Prop :=
  ∀ m ∈ s.accepted, m.early = true → (s.files name).count m = s.accepted.count m

theorem delivered_of_drained {plan : Plan} {dm : DataManager Msg} (hdm : dm.Registered)
    {s : System} {acts : List (Pipe.Act Runner Msg)} (hp : Piped plan dm s acts) {name : String}
    {j : Nat} (hj : s.pipe.manager.outQueuesIds.lookup name = some j)
    (hfile : s.files name = s.pipe.handed j) (hd : Drained s name) : Delivered s name := by
  intro m hm hearly
  have hw := Pipe.run_wired hdm hp.run
  have hknown := hp.known m hm
  obtain ⟨i, hi⟩ := Slots.exists_lookup_of_mem hknown
  have hin : ∀ k, m ∉ s.pipe.waiting k := by
    intro k hk
    cases hq : s.pipe.manager.inQueues[k]? with
    | none =>
      rw [Pipe.waiting, contents_of_le (List.getElem?_eq_none_iff.mp hq)] at hk
      exact absurd hk List.not_mem_nil
    | some q =>
      rw [Pipe.waiting, contents_eq hq] at hk
      exact Bool.false_ne_true ((hd.1 q (List.mem_of_getElem? hq) m hk).symm.trans hearly)
  have hout : m ∉ contents s.pipe.manager.outQueues j := fun hk =>
    Bool.false_ne_true ((hd.2 j hj m hk).symm.trans hearly)
  have hi' : s.pipe.manager.inQueuesIds.lookup m.feeder = some i := by
    rw [(Pipe.run_ids hp.run).1, hi]
  have hcount := Pipe.handed_count hdm hp.source hp.run hi' (hw.belowOut name j hj) hin hout
  rw [hfile, hcount, hp.accepted m.feeder hknown]
  exact List.count_filter (p := fun m' : Msg => decide (m'.feeder = m.feeder)) (decide_eq_true rfl)

/-- Until `stop()` begins, or while the consumer has its file open, it may still write;
otherwise it is done. -/
def Ending (plan : Plan) (job : Job) (s : System) : Prop :=
  .lower ∈ s.control.caller ∨
    (∃ i pc, s.control.pool.At i (.running ⟨job, pc⟩) ∧ opened pc = true) ∨
    (.lower ∉ s.control.caller ∧ s.control.load job = 0 ∧ Delivered s (plan.name job))

/-- A consumer that has its file open goes on, or it leaves its loop. -/
theorem next_opened {plan : Plan} {job : Job} (hc : plan.type job = some .CONSUMER)
    (isRunning outcome : Bool) {pc : Pc} (hpc : opened pc = true) :
    (∃ pc', plan.next isRunning outcome ⟨job, pc⟩ = some pc' ∧ opened pc' = true) ∨
      (pc = .test ∧ isRunning = false ∧ plan.next isRunning outcome ⟨job, pc⟩ = none) := by
  rw [next_consumer hc]
  cases pc with
  | enter | opening => cases hpc
  | test =>
    cases isRunning
    · exact Or.inr ⟨rfl, rfl, rfl⟩
    · exact Or.inl ⟨.body, rfl, rfl⟩
  | body | write => cases outcome <;> exact Or.inl ⟨_, rfl, rfl⟩
  | move => exact Or.inl ⟨_, rfl, rfl⟩

/-- The test of the loop condition touches no data. -/
theorem Effect.test {plan : Plan} {job : Job} {s d : System} {i : Nat} {outcome : Bool}
    (h : Effect plan s i ⟨job, .test⟩ outcome d) (hc : plan.type job = some .CONSUMER) : d = s := by
  cases h with
  | sweep hjob =>
    obtain rfl : job = .dmRun := hjob
    cases hc
  | opened _ hpc | moved _ hpc | wrote _ hpc => cases hpc
  | tested _ hpc => cases hpc hc
  | sent ht => cases hc.symm.trans ht
  | nothing => rfl

/-- The consumer leaves its loop with nothing left for it. -/
theorem delivered_of_leaves {plan : Plan} {dm : DataManager Msg} (hdm : dm.Registered)
    {job : Job} {j : Nat} {s d : System} {acts : List (Pipe.Act Runner Msg)} {i : Nat}
    {outcome : Bool} (hA : Alone plan job) (hmem : job ∈ plan.jobs .output)
    (hp : Piped plan dm s acts) (hj : s.pipe.manager.outQueuesIds.lookup (plan.name job) = some j)
    (hW : Written plan job j s) (ht : s.control.pool.At i (.running ⟨job, .test⟩))
    (he : Effect plan s i ⟨job, .test⟩ outcome d) (hflag : s.control.flags job = false)
    (hleaves : LeavesDrained plan s (.control (.work i outcome))) :
    Delivered d (plan.name job) := by
  have ht' : s.control.pool.threads[i]? = some (.running ⟨job, .test⟩) := ht
  simp only [LeavesDrained, ht'] at hleaves
  rw [he.test hA.consumer]
  exact delivered_of_drained hdm hp hj (hW.running i .test ht).1
    (hleaves hmem hA.consumer hflag)

theorem Ending.push {plan : Plan} {job : Job} {s s' : System} (hE : Ending plan job s)
    {text pushId : String} (h : Step plan s (.push text pushId) s') : Ending plan job s' := by
  cases h with
  | push h =>
    refine hE.imp_right (Or.imp_right fun ⟨hlate, hl, hD⟩ => ⟨hlate, hl, fun m hm hearly => ?_⟩)
    dsimp only at hm ⊢
    rw [decide_eq_false hlate] at hm ⊢
    split at hm
    · rename_i hreg
      rw [if_pos hreg]
      rcases List.mem_append.mp hm with hm | hm
      · have hne : ⟨pushId, text, false⟩ ≠ m := by
          rintro rfl
          cases hearly
        rw [List.count_append, List.count_singleton, beq_false_of_ne hne, hD m hm hearly]
        rfl
      · rw [List.mem_singleton.mp hm] at hearly
        cases hearly
    · rename_i hreg
      rw [if_neg hreg]
      exact hD m hm hearly

theorem Ending.control {plan : Plan} {job : Job} {s : System} {c : Control} {a : Control.Act}
    (hE : Ending plan job s) (hA : Alone plan job) (hmem : job ∈ plan.jobs .output)
    (hP : Control.Programs plan s.control) (ha : ∀ i outcome, a ≠ .work i outcome)
    (h : Control.Step plan s.control a c) (hopened : StopsOpened plan s (.control a)) :
    Ending plan job { s with control := c } := by
  have hkeeps : (∃ i pc, s.control.pool.At i (.running ⟨job, pc⟩) ∧ opened pc = true) →
      ∃ i pc, c.pool.At i (.running ⟨job, pc⟩) ∧ opened pc = true :=
    fun ⟨i, pc, hi, hpc⟩ => ⟨i, pc, h.keeps ha hi, hpc⟩
  rcases hE with hlower | hopen | ⟨hlate, hl, hD⟩
  · rcases h.caller_eq with he | ⟨woken, ins, rfl, hcaller⟩
    · exact Or.inl (he.symm ▸ hlower)
    · rw [hcaller] at hlower
      rcases List.mem_cons.mp hlower with rfl | hlower
      · -- `stop()` begins, so the consumer has its file open
        have hany := hopened (by rw [hcaller]; rfl) job hmem hA.consumer
        obtain ⟨t, ht, hopen⟩ := List.any_eq_true.mp hany
        obtain ⟨i, hi⟩ := Pool.mem_threads_iff.mp ht
        cases t with
        | running t =>
          obtain ⟨tjob, pc⟩ := t
          obtain ⟨hjob, hpc⟩ := Bool.and_eq_true_iff.mp hopen
          obtain rfl : tjob = job := beq_iff_eq.mp hjob
          exact Or.inr (Or.inl (hkeeps ⟨i, pc, hi, hpc⟩))
        | awake | parked | terminated => cases hopen
      · exact Or.inl hlower
  · exact Or.inr (Or.inl (hkeeps hopen))
  · refine Or.inr (Or.inr ⟨fun hm => hlate ?_, ?_, hD⟩)
    · rcases h.caller_eq with he | ⟨woken, ins, rfl, hcaller⟩
      · exact he ▸ hm
      · rw [hcaller]
        exact List.mem_cons_of_mem _ hm
    · have := h.load hP hA.output
      dsimp only
      omega

theorem Ending.work {plan : Plan} {dm : DataManager Msg} (hdm : dm.Registered) {job : Job}
    {j : Nat} {s d : System} {acts : List (Pipe.Act Runner Msg)} {i : Nat} {t : Task}
    {outcome : Bool} (hE : Ending plan job s) (hA : Alone plan job)
    (hmem : job ∈ plan.jobs .output) (hP : Control.Programs plan s.control)
    (hl : s.control.load job ≤ 1) (hp : Piped plan dm s acts)
    (hj : s.pipe.manager.outQueuesIds.lookup (plan.name job) = some j)
    (hW : Written plan job j s) (ht : s.control.pool.At i (.running t))
    (he : Effect plan s i t outcome d)
    (hleaves : LeavesDrained plan s (.control (.work i outcome))) :
    Ending plan job { d with control := s.control.work plan i t outcome } := by
  have hstep : Control.Step plan s.control (.work i outcome)
      (s.control.work plan i t outcome) := .work ht
  have hload := hstep.load hP hA.output
  by_cases hlower : .lower ∈ s.control.caller
  · exact Or.inl hlower
  rcases hE with h | ⟨k, pc, hk, hpc⟩ | ⟨_, hzero, hD⟩
  · exact absurd h hlower
  · by_cases hne : k = i
    · subst hne
      obtain rfl := Worker.running.inj (Option.some.inj (ht.symm.trans hk))
      rcases next_opened hA.consumer (s.control.flags job) outcome hpc with
        ⟨pc', hn, hpc'⟩ | ⟨rfl, hflag, hn⟩
      · refine Or.inr (Or.inl ⟨k, pc', ?_, hpc'⟩)
        have hgoto := Pool.at_goto_self ht (.running ⟨job, pc'⟩)
        simp only [Control.work, hn]
        exact hgoto
      · have hD := delivered_of_leaves hdm hA hmem hp hj hW ht he hflag hleaves
        refine Or.inr (Or.inr ⟨hlower, ?_, hD⟩)
        have ht' : s.control.pool.threads[k]? = some (.running ⟨job, .test⟩) := ht
        simp only [Control.returned, ht', hn, ite_true, List.count_singleton_self] at hload
        dsimp only
        omega
    · exact Or.inr (Or.inl ⟨k, pc, Pool.at_goto_of_ne hne _ hk, hpc⟩)
  · have hne : t.job ≠ job := by
      obtain ⟨tjob, pc⟩ := t
      rintro rfl
      exact Control.not_running_of_load hzero i pc ht
    have hframe := he.frame hA (Pipe.run_wired hdm hp.run) hj hne
    refine Or.inr (Or.inr ⟨hlower, ?_, fun m hm hearly => ?_⟩)
    · dsimp only
      omega
    · dsimp only at hm ⊢
      rw [he.same.2] at hm ⊢
      rw [hframe.1]
      exact hD m hm hearly

/-! ### Runs -/

/-- What holds along every run that `stop()` ends well. -/
structure Inv (plan : Plan) (dm : DataManager Msg) (job : Job) (j : Nat) (s : System) : Prop where
  programs : Control.Programs plan s.control
  load : s.control.load job ≤ 1
  joined : Control.Joined s.control
  piped : ∃ acts, Piped plan dm s acts
  written : Written plan job j s
  ending : Ending plan job s

theorem inv_start {plan : Plan} (uninitialised : Bool) (dm : DataManager Msg) (k j : Nat) :
    Inv plan dm (.nodeRun .output k) j (start plan uninitialised dm) where
  programs := Control.programs_start plan uninitialised
  load := Control.load_start plan uninitialised _
  joined := fun _ => rfl
  piped := ⟨[], piped_start plan uninitialised dm⟩
  written := ⟨fun _ _ hi => (nomatch hi), fun _ => ⟨rfl, fun _ => rfl⟩⟩
  ending := Or.inl (List.mem_append_right _ (List.mem_cons_self ..))

theorem Inv.step {plan : Plan} {dm : DataManager Msg} (hdm : dm.Registered) {job : Job} {j : Nat}
    (hj : dm.outQueuesIds.lookup (plan.name job) = some j) (hA : Alone plan job)
    (hmem : job ∈ plan.jobs .output) {s s' : System} {a : Act} (hI : Inv plan dm job j s)
    (h : Step plan s a s') (hopened : StopsOpened plan s a) (hleaves : LeavesDrained plan s a) :
    Inv plan dm job j s' := by
  obtain ⟨acts, hp⟩ := hI.piped
  have hw := Pipe.run_wired hdm hp.run
  have hj' : s.pipe.manager.outQueuesIds.lookup (plan.name job) = some j := by
    rw [(Pipe.run_ids hp.run).2, hj]
  have hwritten := hI.written.step hA hw hj' hI.programs hI.load h
  have hpiped := hp.step h
  have hthreads : Control.Programs plan s'.control ∧ s'.control.load job ≤ 1 ∧
      Control.Joined s'.control := by
    rcases h.threads with he | ⟨b, hb⟩
    · rw [he]
      exact ⟨hI.programs, hI.load, hI.joined⟩
    · have := hb.load hI.programs hA.output
      have := hI.load
      exact ⟨hI.programs.step hb, by omega, hI.joined.step hI.programs hb⟩
  refine ⟨hthreads.1, hthreads.2.1, hthreads.2.2, hpiped, hwritten, ?_⟩
  cases h with
  | push h => exact hI.ending.push (Step.push h)
  | work ht he =>
    exact hI.ending.work hdm hA hmem hI.programs hI.load hp hj' hI.written ht he hleaves
  | control ha h => exact hI.ending.control hA hmem hI.programs ha h hopened

/-- When `stop()` has returned nothing executes any more. -/
theorem Inv.delivered {plan : Plan} {dm : DataManager Msg} {job : Job} {j : Nat} {s : System}
    (hI : Inv plan dm job j s) (hdone : s.control.caller = []) : Delivered s (plan.name job) := by
  rcases hI.ending with h | ⟨i, pc, hi, _⟩ | ⟨_, _, hD⟩
  · rw [hdone] at h
    exact absurd h List.not_mem_nil
  · have hmem := Pool.mem_threads_iff.mpr ⟨i, hi⟩
    rw [hI.joined hdone] at hmem
    exact absurd hmem List.not_mem_nil
  · exact hD

/-! ### Accepted topologies -/

/-- A node whose name no other popping node has. -/
theorem alone_of_count {plan : Plan} {k : Nat} {n : ProxyNode} (hn : plan.outNodes[k]? = some n)
    (hc : n.type = .CONSUMER)
    (hone : (namesOf ProxyType.pops (plan.outNodes ++ plan.inNodes)).count n.name = 1) :
    Alone plan (.nodeRun .output k) := by
  have hout : (plan.nodes .output)[k]? = some n := hn
  have hlt : k < plan.outNodes.length := (List.getElem?_eq_some_iff.mp hn).1
  have hcount : (plan.outNodes ++ plan.inNodes).countP
      (fun m => m.name == n.name && m.type.pops) ≤ 1 := by
    rw [namesOf, List.count_eq_countP, List.countP_map, List.countP_filter] at hone
    exact Nat.le_of_eq hone
  have hk : (plan.outNodes ++ plan.inNodes)[k]? = some n := by
    rw [List.getElem?_append_left hlt, hn]
  refine ⟨by simp only [Plan.type, hout, Option.map_some, hc], rfl, fun job' hp hname => ?_⟩
  have hself : (n.name == n.name && n.type.pops) = true := by
    rw [hc, beq_self_eq_true]
    rfl
  cases job' with
  | dmRun => rcases hp with hp | hp <;> cases hp
  | nodeRun side k' =>
    obtain ⟨m, hm, hmpops⟩ : ∃ m, (plan.nodes side)[k']? = some m ∧ m.type.pops = true := by
      rcases hp with hp | hp <;>
      · obtain ⟨m, hm, htype⟩ := Option.map_eq_some_iff.mp hp
        exact ⟨m, hm, by rw [htype]; rfl⟩
    have hmname : m.name = n.name := by
      simpa only [Plan.name, hm, hout, Option.map_some, Option.getD_some] using hname
    have hother : (m.name == n.name && m.type.pops) = true := by
      rw [hmname, hmpops, beq_self_eq_true]
      rfl
    cases side with
    | output =>
      have hm' : plan.outNodes[k']? = some m := hm
      have hk' : (plan.outNodes ++ plan.inNodes)[k']? = some m := by
        rw [List.getElem?_append_left (List.getElem?_eq_some_iff.mp hm').1, hm']
      rw [Control.eq_of_countP_le_one hcount hk' hk hother hself]
    | input =>
      have hk' : (plan.outNodes ++ plan.inNodes)[plan.outNodes.length + k']? = some m := by
        rw [List.getElem?_append_right (Nat.le_add_right ..), Nat.add_sub_cancel_left]
        exact hm
      have := Control.eq_of_countP_le_one hcount hk' hk hother hself
      omega

theorem fresh_map {T U : Type} (f : T → U) {ids : Slots String} {queues : List (Q T)}
    (h : DataManager.Fresh ids queues) : DataManager.Fresh ids (queues.map (Q.map f)) where
  size := h.size.trans (List.length_map _).symm
  distinct := h.distinct
  below := (List.length_map (Q.map f)).symm ▸ h.below
  empty := fun q hq => by
    obtain ⟨q', hq', rfl⟩ := List.mem_map.mp hq
    rw [Q.map, h.empty q' hq', List.map_nil]

/-- The manager of an accepted topology has seen registrations only. -/
theorem registered_data {env : Env} {tree : PTree} {w : World} {dm : DataManager Msg}
    (h : parseConf env (some tree) World.fresh = some (true, w)) (hdm : w.data = some dm) :
    dm.Registered := by
  obtain ⟨conf, _, _, _, _, hmanager⟩ := parseConf_eq_true h
  rw [World.data, hmanager, Option.map_some] at hdm
  obtain rfl := Option.some.inj hdm
  have hreg := (registryOf_foldl conf (w.nodes "out" ++ w.nodes "in")).registered
  exact ⟨fresh_map _ hreg.1, fresh_map _ hreg.2⟩

/-- The framework of an accepted topology whose consumers share their names with no other
popping node, in a run in which `stop()` begins when the consumers are running: if each
consumer leaves its loop only when nothing early is left for it in the queues, then when
`stop()` has returned every file has everything that was accepted before. -/
theorem stop_drains {env : Env} {tree : PTree} {w : World} {dm : DataManager Msg}
    (hparse : parseConf env (some tree) World.fresh = some (true, w)) (hdm : w.data = some dm)
    (hnames : ∀ n ∈ w.nodes "out", n.type = .CONSUMER →
      (namesOf ProxyType.pops (w.nodes "out" ++ w.nodes "in")).count n.name = 1)
    {uninitialised : Bool} {acts : List Act} {s : System}
    (hrun : run (step w.plan) (start w.plan uninitialised dm) acts = some s)
    (hopened : Meets (step w.plan) (StopsOpened w.plan) (start w.plan uninitialised dm) acts)
    (hleaves : Meets (step w.plan) (LeavesDrained w.plan) (start w.plan uninitialised dm) acts)
    (hdone : s.control.caller = []) :
    ∀ n ∈ w.nodes "out", n.type = .CONSUMER → n.name ∈ dm.outQueuesIds →
      ∀ m ∈ s.accepted, m.early = true → (s.files n.name).count m = s.accepted.count m := by
  intro n hn hc hmem
  obtain ⟨k, hk⟩ := List.mem_iff_getElem?.mp hn
  obtain ⟨j, hj⟩ := Slots.exists_lookup_of_mem hmem
  have hname : w.plan.name (.nodeRun .output k) = n.name := by
    have hk' : (w.plan.nodes .output)[k]? = some n := hk
    simp only [Plan.name, hk', Option.map_some, Option.getD_some]
  have hA : Alone w.plan (.nodeRun .output k) := alone_of_count hk hc (hnames n hn hc)
  have hjobs : Job.nodeRun .output k ∈ w.plan.jobs .output :=
    List.mem_map.mpr ⟨k, List.mem_range.mpr (List.getElem?_eq_some_iff.mp hk).1, rfl⟩
  have hI := run_invariant_of_meets (I := Inv w.plan dm (.nodeRun .output k) j)
    (C := fun s a => StopsOpened w.plan s a ∧ LeavesDrained w.plan s a)
    (fun s a s' hI hC h => hI.step (registered_data hparse hdm) (hname ▸ hj) hA hjobs
      (step_cases h) hC.1 hC.2)
    (inv_start uninitialised dm k j)
    (fun before a after u he hu => ⟨hopened before a after u he hu, hleaves before a after u he hu⟩)
    hrun
  exact hname ▸ hI.delivered hdone

/-- Steps of the framework's threads. -/
def threads (acts : List Control.Act) : List Act := acts.map Act.control

/-- `run()` on one server and one consumer, until the manager, the consumer with its file open
and the server are executed. -/
def started : List Act :=
  threads (List.replicate 10 (.caller none) ++
    [.threadLoop 0, .threadLoop 1, .work 0 true, .work 1 true, .work 1 true, .main none, .main none,
      .main none, .threadLoop 2])

/-- `stop()`, with nothing going on but what it waits for. -/
def stopped : List Act :=
  threads (List.replicate 4 (.caller none) ++
    [.work 0 true, .work 1 true, .work 2 true, .main none, .main none] ++
    List.replicate 3 (.caller none) ++
    [.threadLoop 0, .threadLoop 1, .threadLoop 2, .threadLoop 3, .caller none])

/-- The server's message is broadcast and written before `stop()` begins. -/
def pushedInTime : List Act :=
  started ++ [.push "a" "TcpServer1"] ++
    threads (List.replicate 5 (.work 0 true) ++ [.work 0 false] ++
      List.replicate 4 (.work 1 true) ++ [.work 1 false]) ++ stopped

/-- The server's message comes when the pass of the manager has gone past its queue. -/
def pushedBehindPass : List Act :=
  started ++ threads [.work 0 true, .work 0 true] ++ [.push "a" "TcpServer1"] ++
    threads [.work 0 false] ++ stopped

/-- The framework of one server and one consumer. -/
theorem oneToOne_system :
    ∃ w dm, parseConf .plain (some (oneToOne "CONSUMER")) World.fresh = some (true, w) ∧
      w.data = some dm ∧
      dm = (((DataManager.new ⟨"dm", 8, 8, .BROADCAST⟩).setFeeder "TcpServer1").1.setConsumer
        "Out1").1 ∧
      w.plan = ⟨4, [⟨.TCPS, 50000, "TcpServer1"⟩], [⟨.CONSUMER, 50000, "Out1"⟩]⟩ ∧
      w.nodes "in" = [⟨.TCPS, 50000, "TcpServer1"⟩] ∧
      w.nodes "out" = [⟨.CONSUMER, 50000, "Out1"⟩] := by
  obtain ⟨w, hparse, hpool, hmanager, hin, hout⟩ := oneToOne_built
  refine ⟨w, _, hparse, ?_, rfl, World.plan_eq hpool hin hout, hin, hout⟩
  rw [World.data, hmanager]
  rfl

/-- The message that was written in time is in the file. -/
theorem stop_drains_in_time :
    ∃ w dm s, parseConf .plain (some (oneToOne "CONSUMER")) World.fresh = some (true, w) ∧
      w.data = some dm ∧ run (step w.plan) (start w.plan false dm) pushedInTime = some s ∧
      (s.files "Out1").count ⟨"TcpServer1", "a", true⟩ = 1 := by
  obtain ⟨w, dm, hparse, hdm, hdm', hplan, hin, hout⟩ := oneToOne_system
  obtain ⟨s, hrun, hnames, hopened, hleaves, hdone, hn, hmem, hm, hone⟩ :
      ∃ s, run (step w.plan) (start w.plan false dm) pushedInTime = some s ∧
        (∀ n ∈ w.nodes "out", n.type = .CONSUMER →
          (namesOf ProxyType.pops (w.nodes "out" ++ w.nodes "in")).count n.name = 1) ∧
        Meets (step w.plan) (StopsOpened w.plan) (start w.plan false dm) pushedInTime ∧
        Meets (step w.plan) (LeavesDrained w.plan) (start w.plan false dm) pushedInTime ∧
        s.control.caller = [] ∧ ⟨.CONSUMER, 50000, "Out1"⟩ ∈ w.nodes "out" ∧
        "Out1" ∈ dm.outQueuesIds ∧ ⟨"TcpServer1", "a", true⟩ ∈ s.accepted ∧
        s.accepted.count ⟨"TcpServer1", "a", true⟩ = 1 := by
    rw [hdm', hplan, hin, hout]
    exact ⟨_, rfl, by decide, by decide, by decide, rfl, by decide, by decide, by decide,
      by decide⟩
  refine ⟨w, dm, s, hparse, hdm, hrun, ?_⟩
  exact (stop_drains hparse hdm hnames hrun hopened hleaves hdone ⟨.CONSUMER, 50000, "Out1"⟩ hn rfl
    hmem ⟨"TcpServer1", "a", true⟩ hm rfl).trans hone

/-- A message is left in the input queue: the consumer is running with its file open when
`stop()` begins, the message has been accepted, and `stop()` returns without it in the file. -/
theorem message_left_at_stop :
    ∃ w dm s, parseConf .plain (some (oneToOne "CONSUMER")) World.fresh = some (true, w) ∧
      w.data = some dm ∧ dm.mode = .BROADCAST ∧
      run (step w.plan) (start w.plan false dm) pushedBehindPass = some s ∧
      Meets (step w.plan) (StopsOpened w.plan) (start w.plan false dm) pushedBehindPass ∧
      s.control.caller = [] ∧ "Out1" ∈ dm.outQueuesIds ∧
      s.accepted = [⟨"TcpServer1", "a", true⟩] ∧ s.files "Out1" = [] := by
  obtain ⟨w, dm, hparse, hdm, hdm', hplan, -⟩ := oneToOne_system
  refine ⟨w, dm, ?_⟩
  rw [hdm', hplan]
  exact ⟨_, hparse, hdm' ▸ hdm, rfl, rfl, by decide, rfl, by decide, rfl, rfl⟩

end DataPipeline.System
