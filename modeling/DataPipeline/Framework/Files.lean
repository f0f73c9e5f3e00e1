import DataPipeline.Broadcast.Latency
import DataPipeline.Broadcast.Refinement
import DataPipeline.Framework.Drain
import DataPipeline.Framework.Places

/-!
# The files at any time

A consumer writes its file while everybody else goes on. Its file is always the beginning
of what was moved out of its queue, and that is the beginning of one list for all
consumers: what has been broadcast. So at any time no line of a file is lost, doubled or out
of order, and no two files contradict each other.
-/

namespace DataPipeline

open Machine

namespace Pipe

variable {θ T : Type} [DecidableEq θ] {popId : θ → String} {dm : DataManager T}
  {acts : List (Act θ T)} {s : Pipe θ T}

/-! ### One list for all consumers -/

/-- What has been broadcast, with the queue that is being copied. -/
def published (popId : θ → String) (dm : DataManager T) (acts : List (Act θ T)) (s : Pipe θ T) :
    List T :=
  sentLog popId dm acts ++ s.flight

theorem handed_prefix (hdm : dm.Registered) (hrun : run (next popId) (start dm) acts = some s)
    {j : Nat} (hj : j < s.manager.outQueues.length) :
    s.handed j <+: published popId dm acts s := by
  have hsent : s.handed j ++ contents s.manager.outQueues j =
      sentLog popId dm acts ++ s.inFlight j := run_sent hdm hrun j hj
  have hflight : s.inFlight j <+: s.flight := by
    rcases s.inFlight_cases j with he | ⟨he, _⟩
    · rw [he]
    · rw [he]
      exact List.nil_prefix
  calc s.handed j
    _ <+: sentLog popId dm acts ++ s.inFlight j := hsent ▸ List.prefix_append _ _
    _ <+: published popId dm acts s := (List.prefix_append_right_inj _).mpr hflight

/-- Only feeders with a queue are broadcast. -/
theorem published_known (hdm : dm.Registered) {src : T → String}
    (hsrc : ∀ a ∈ acts, FromFeeder src a) (hrun : run (next popId) (start dm) acts = some s) :
    ∀ m ∈ published popId dm acts s, src m ∈ dm.inQueuesIds := by
  have howned : ∀ {before u}, before <+: acts → run (next popId) (start dm) before = some u →
      ∀ i, ∀ m ∈ u.waiting i, src m ∈ dm.inQueuesIds := by
    intro before u hpre hu i m hm
    have hF := run_fifo hdm (fun a ha => hsrc a (hpre.subset ha)) hu
    have hlookup := hF.owned i m hm
    rw [(run_ids hu).1] at hlookup
    exact Slots.mem_of_lookup hlookup
  have hlog : ∀ m ∈ sentLog popId dm acts, src m ∈ dm.inQueuesIds := by
    refine forall_mem_observe.mpr ?_
    intro before a after u he hu m hm
    have hpre : before <+: acts := ⟨a :: after, he.symm⟩
    unfold joined at hm
    split at hm
    · split at hm
      · exact howned hpre hu _ m hm
      · exact absurd hm List.not_mem_nil
    · exact absurd hm List.not_mem_nil
  intro m hm
  rcases List.mem_append.mp hm with hm | hm
  · exact hlog m hm
  · unfold flight at hm
    split at hm
    · exact howned (List.prefix_refl acts) hrun _ m hm
    · exact absurd hm List.not_mem_nil

/-- Of each feeder the first of its messages have been broadcast. -/
theorem filter_published_prefix (hdm : dm.Registered) {src : T → String}
    (hsrc : ∀ a ∈ acts, FromFeeder src a) (hrun : run (next popId) (start dm) acts = some s)
    {f : String} (hf : f ∈ dm.inQueuesIds) :
    ((published popId dm acts s).filter fun m => src m = f) <+: completed f acts := by
  have hF := run_fifo hdm hsrc hrun
  obtain ⟨i, hi⟩ := Slots.exists_lookup_of_mem hf
  rw [← (run_ids hrun).1] at hi
  have hflight : (s.flight.filter fun m => src m = f) <+: s.waiting i := by
    unfold flight
    split
    · rename_i k _ _
      rw [hF.filter_waiting (run_wired hdm hrun).distinctIn hi k]
      split
      · rename_i he
        rw [he]
      · exact List.nil_prefix
    · exact List.nil_prefix
  rw [published, List.filter_append, ← hF.order f i hi]
  exact (List.prefix_append_right_inj _).mpr hflight

/-- Only a move appends to a vector. -/
theorem data_of_ne {s s' : Pipe θ T} {a : Act θ T} {t : θ} (h : next popId s a = some s')
    (ha : a ≠ .popMove t) : s'.data t = s.data t := by
  cases next_cases h with
  | pushUnknown | push | passBegin | passMap | passEnd | visitFound | visitSkip | copyBegin
    | copyTo | copyEnd | popFail | popFound => rfl
  | popMove => exact Function.update_of_ne (fun he => ha (congrArg Act.popMove he.symm)) ..

/-- In mode `MAP` nothing is ever broadcast. -/
theorem run_map (hmode : dm.mode = .MAP) (hrun : run (next popId) (start dm) acts = some s) :
    published popId dm acts s = [] := by
  have hidle : ∀ {before u}, run (next popId) (start dm) before = some u → u.sweep = .idle := by
    intro before u hu
    have h := run_invariant (I := fun u => u.sweep = .idle ∧ u.manager.mode = .MAP) ?_
      (s := start (θ := θ) dm) ⟨rfl, hmode⟩ hu
    · exact h.1
    rintro v a v' ⟨hsweep, hmap⟩ h
    have hstep := next_cases h
    refine ⟨?_, hstep.mode.trans hmap⟩
    cases hstep with
    | passBegin _ hm => exact absurd (hmap.symm.trans hm) nofun
    | passEnd => rfl
    | visitFound hw | visitSkip hw | copyBegin hw | copyTo hw | copyEnd hw =>
      cases hsweep.symm.trans hw
    | pushUnknown | push | popFail | popFound | popMove | passMap => exact hsweep
  have hlog : sentLog popId dm acts = [] := by
    refine List.eq_nil_iff_forall_not_mem.mpr (forall_mem_observe.mpr ?_)
    intro before a after u _ hu m hm
    unfold joined at hm
    rw [hidle hu] at hm
    split at hm <;> exact absurd hm List.not_mem_nil
  rw [published, hlog, flight, hidle hrun]
  rfl

/-- In mode `MAP` no `pop` gives a thread anything. -/
theorem run_map_data (hdm : dm.Registered) (hmode : dm.mode = .MAP)
    (hrun : run (next popId) (start dm) acts = some s) (t : θ) : s.data t = [] := by
  refine run_history (I := fun _ u => u.data t = []) rfl ?_ hrun
  intro before u a v hu hI h
  have hv := run_concat_eq_some.mpr ⟨u, hu, h⟩
  have hw := run_wired hdm hv
  by_cases ha : a = .popMove t
  · subst ha
    obtain ⟨j, hj⟩ : ∃ j, u.manager.outQueuesIds.lookup (popId t) = some j := by
      cases next_cases h with
      | popMove hc => exact ⟨_, (run_wired hdm hu).calls t _ hc⟩
    obtain ⟨moved, hhanded, hdata⟩ := (next_cases h).popMoved (run_wired hdm hu) hj
    have hlt : j < v.manager.outQueues.length := by
      refine hw.belowOut (popId t) j ?_
      rw [(run_ids hv).2, ← (run_ids hu).2]
      exact hj
    have hnone := handed_prefix hdm hv hlt
    rw [run_map hmode hv, List.prefix_nil, hhanded] at hnone
    rw [hdata, hI, (List.append_eq_nil_iff.mp hnone).2, List.append_nil]
  · exact (data_of_ne h ha).trans hI

end Pipe

namespace System

variable {plan : Plan} {dm : DataManager Msg} {uninitialised : Bool} {job : Job} {j : Nat}

/-! ### A file and what was moved out of the queue -/

/-- The file of a consumer has what was moved out of its queue first. -/
def Kept (plan : Plan) (job : Job) (j : Nat) (s : System) : Prop :=
  s.files (plan.name job) <+: s.pipe.handed j

theorem Kept.congr {s d : System} (hK : Kept plan job j s)
    (hf : d.files (plan.name job) = s.files (plan.name job))
    (hh : d.pipe.handed j = s.pipe.handed j) : Kept plan job j d := by
  simp only [Kept, hf, hh]
  exact hK

/-- A step of the consumer itself. -/
theorem Effect.kept {s d : System} {i : Nat} {pc : Pc} {outcome : Bool}
    (h : Effect plan s i ⟨job, pc⟩ outcome d) (hK : Kept plan job j s)
    (hw : Pipe.Wired plan.popId s.pipe)
    (hj : s.pipe.manager.outQueuesIds.lookup (plan.name job) = some j)
    (hold : Writes plan job j s i pc) : Kept plan job j d := by
  cases h with
  | sweep _ h | tested _ _ h =>
    exact hK.congr rfl ((Pipe.next_cases h).handed hw fun _ he => nomatch he)
  | opened =>
    simp only [Kept, Function.update_self]
    exact List.nil_prefix
  | moved _ _ h =>
    obtain ⟨moved, hhanded, _⟩ := (Pipe.next_cases h).popMoved hw hj
    refine hK.trans ?_
    rw [hhanded]
    exact List.prefix_append _ _
  | @wrote it rest _ hpc hr =>
    obtain rfl : pc = .write := hpc
    simp only [Writes] at hold hr
    simp only [Kept, Function.update_self]
    exact ⟨rest, by rw [← hold, hr, List.append_assoc, List.singleton_append]⟩
  | sent | nothing => exact hK

theorem Kept.step {s s' : System} {a : Act} (hK : Kept plan job j s) (hW : Written plan job j s)
    (hA : Alone plan job) (hw : Pipe.Wired plan.popId s.pipe)
    (hj : s.pipe.manager.outQueuesIds.lookup (plan.name job) = some j) (h : Step plan s a s') :
    Kept plan job j s' := by
  cases h with
  | push h => exact hK.congr rfl ((Pipe.next_cases h).handed hw fun _ he => nomatch he)
  | control => exact hK
  | @work i outcome t d ht he =>
    by_cases hjob : t.job = job
    · obtain ⟨_, pc⟩ := t
      obtain rfl : _ = job := hjob
      exact he.kept hK hw hj (hW.running i pc ht)
    · obtain ⟨hfiles, hhanded, _⟩ := he.frame hA hw hj hjob
      exact hK.congr hfiles hhanded

theorem run_kept (hdm : dm.Registered) (hA : Alone plan job)
    (hj : dm.outQueuesIds.lookup (plan.name job) = some j) {acts : List Act} {s : System}
    (hrun : run (step plan) (start plan uninitialised dm) acts = some s) : Kept plan job j s := by
  have h := run_history (I := fun _ s => Written plan job j s ∧ Kept plan job j s)
    (s := start plan uninitialised dm) (m := step plan)
    ⟨⟨fun _ _ hi => (nomatch hi), fun _ => ⟨rfl, fun _ => rfl⟩⟩, List.nil_prefix⟩ ?_ hrun
  · exact h.2
  rintro before u a v hu ⟨hW, hK⟩ h
  obtain ⟨pipeActs, hp⟩ := run_piped hu
  have hw := Pipe.run_wired hdm hp.run
  have hj' : u.pipe.manager.outQueuesIds.lookup (plan.name job) = some j := by
    rw [(Pipe.run_ids hp.run).2, hj]
  have hP := Control.run_programs (run_control hu)
  have hl := Control.run_load_le (run_control hu) hA.output
  exact ⟨hW.step hA hw hj' hP hl (step_cases h), hK.step hW hA hw hj' (step_cases h)⟩

/-- Of each feeder the first messages that were accepted have been broadcast. -/
theorem Piped.filter_published (hdm : dm.Registered) {s : System}
    {pipeActs : List (Pipe.Act Runner Msg)} (hp : Piped plan dm s pipeActs) (f : String) :
    ((Pipe.published plan.popId dm pipeActs s.pipe).filter fun m => m.feeder = f) <+:
      s.accepted.filter fun m => m.feeder = f := by
  by_cases hf : f ∈ dm.inQueuesIds
  · rw [← hp.accepted f hf]
    exact Pipe.filter_published_prefix hdm hp.source hp.run hf
  · have hnone : (Pipe.published plan.popId dm pipeActs s.pipe).filter
        (fun m => m.feeder = f) = [] := by
      rw [List.filter_eq_nil_iff]
      intro m hm he
      exact hf (of_decide_eq_true he ▸ Pipe.published_known hdm hp.source hp.run m hm)
    rw [hnone]
    exact List.nil_prefix

/-- The file of a consumer is the beginning of what has been broadcast. -/
theorem file_prefix (hdm : dm.Registered) (hA : Alone plan job)
    (hj : dm.outQueuesIds.lookup (plan.name job) = some j) {acts : List Act} {s : System}
    (hrun : run (step plan) (start plan uninitialised dm) acts = some s)
    {pipeActs : List (Pipe.Act Runner Msg)} (hp : Piped plan dm s pipeActs) :
    s.files (plan.name job) <+: Pipe.published plan.popId dm pipeActs s.pipe := by
  have hw := Pipe.run_wired hdm hp.run
  have hj' : s.pipe.manager.outQueuesIds.lookup (plan.name job) = some j := by
    rw [(Pipe.run_ids hp.run).2, hj]
  exact (run_kept hdm hA hj hrun).trans (Pipe.handed_prefix hdm hp.run (hw.belowOut _ j hj'))

/-! ### Accepted topologies -/

theorem consumes_iff {type : ProxyType} : type.consumes = true ↔ type = .CONSUMER := by
  cases type <;> decide

theorem mem_consumers {nodes : List ProxyNode} {name : String} :
    name ∈ namesOf ProxyType.consumes nodes ↔ ∃ n ∈ nodes, n.type = .CONSUMER ∧ n.name = name := by
  simp only [namesOf, List.mem_map, List.mem_filter, consumes_iff, and_assoc]

/-- A consumer of a world that has a queue and a file for itself: it shares its name with no other
node that pops. -/
structure OwnFile (w : World) (dm : DataManager Msg) (n : ProxyNode) : Prop where
  node : n ∈ w.nodes "out"
  consumer : n.type = .CONSUMER
  alone : (namesOf ProxyType.pops (w.nodes "out" ++ w.nodes "in")).count n.name = 1
  queue : n.name ∈ dm.outQueuesIds

/-- Its file is the beginning of what has been broadcast. -/
theorem OwnFile.broadcast {w : World} {n : ProxyNode} (h : OwnFile w dm n) (hdm : dm.Registered)
    {acts : List Act} {s : System}
    (hrun : run (step w.plan) (start w.plan uninitialised dm) acts = some s)
    {pipeActs : List (Pipe.Act Runner Msg)} (hp : Piped w.plan dm s pipeActs) :
    s.files n.name <+: Pipe.published w.plan.popId dm pipeActs s.pipe := by
  obtain ⟨k, hk⟩ := List.mem_iff_getElem?.mp h.node
  obtain ⟨j, hj⟩ := Slots.exists_lookup_of_mem h.queue
  have hk' : (w.plan.nodes .output)[k]? = some n := hk
  have hname : w.plan.name (.nodeRun .output k) = n.name := by
    simp only [Plan.name, hk', Option.map_some, Option.getD_some]
  have hA : Alone w.plan (.nodeRun .output k) := alone_of_count hk h.consumer h.alone
  exact hname ▸ file_prefix hdm hA (hname ▸ hj) hrun hp

/-- Of each feeder its file has the first messages that were accepted. -/
theorem OwnFile.filter_accepted {w : World} {n : ProxyNode} (h : OwnFile w dm n)
    (hdm : dm.Registered) {acts : List Act} {s : System}
    (hrun : run (step w.plan) (start w.plan uninitialised dm) acts = some s) (f : String) :
    ((s.files n.name).filter fun m => m.feeder = f) <+:
      s.accepted.filter fun m => m.feeder = f := by
  obtain ⟨pipeActs, hp⟩ := run_piped hrun
  exact ((h.broadcast hdm hrun hp).filter _).trans (hp.filter_published hdm f)

/-- One TCP server and two consumers, on four threads. -/
def oneToTwo : PTree :=
  .node "" [
    ("dataManager", .node "" [("name", .node "dm" []), ("threadCount", .node "4" []),
      ("mode", .node "broadcast" [])]),
    ("inProxy", .node "" [("", .node "" [("type", .node "TCP_Server" []),
      ("port", .node "50000" []), ("name", .node "TcpServer1" [])])]),
    ("outProxy", .node "" [("", .node "" [("type", .node "CONSUMER" []),
      ("port", .node "50000" []), ("name", .node "Out1" [])]),
      ("", .node "" [("type", .node "CONSUMER" []),
      ("port", .node "50000" []), ("name", .node "Out2" [])])])]

/-- The manager without queues. -/
def noQueues : DataManager String := .new ⟨"dm", 8, 8, .BROADCAST⟩

/-- The world in which `oneToTwo` is built up. -/
def oneToTwoWorld (dm : DataManager String) (inProxy outProxy : Option Proxy) : World where
  process := ⟨[some dm], some 0⟩
  framework :=
    { threadCount := 4, threadPool := some 4, dataManagerConf := ⟨"dm", 8, 8, .BROADCAST⟩,
      dataManager := some 0, inProxy, outProxy }

theorem Conf.bind_of_ok {α β : Type} {x : Conf α} {f : α → Conf β} {w w' : World} {a : α}
    (h : x w = some (.ok a, w')) : (x >>= f) w = f a w' := by
  change (x w).bind _ = _
  rw [h]
  rfl

theorem Conf.orThrow_of_ok {x : Conf Bool} {e : Thrown} {w w' : World}
    (h : x w = some (.ok true, w')) : x.orThrow e w = some (.ok (), w') :=
  (Conf.bind_of_ok h).trans rfl

/-- The parts of `parseConf` one after the other. -/
theorem parseConf_of_parts {env : Env} {tree : PTree} {u v z w : World}
    (hpool : instantiateThreadPool env tree World.fresh = some (.ok true, u))
    (hmanager : instantiateDataManager tree u = some (.ok true, v))
    (hout : instantiateProxy env tree "out" v = some (.ok true, z))
    (hin : instantiateProxy env tree "in" z = some (.ok true, w)) :
    parseConf env (some tree) World.fresh = some (true, w) := by
  have hbody : parseConfBody env (some tree) World.fresh = some (.ok (), w) :=
    calc parseConfBody env (some tree) World.fresh
      _ = _ := Conf.bind_of_ok rfl
      _ = _ := Conf.bind_of_ok hpool
      _ = _ := Conf.bind_of_ok (Conf.orThrow_of_ok hmanager)
      _ = _ := Conf.bind_of_ok (Conf.orThrow_of_ok hout)
      _ = _ := Conf.orThrow_of_ok hin
  rw [parseConf, hbody]
  rfl

theorem oneToTwo_built :
    parseConf .plain (some oneToTwo) World.fresh = some (true, oneToTwoWorld
      (((noQueues.setConsumer "Out1").1.setConsumer "Out2").1.setFeeder "TcpServer1").1
      (some ⟨some 0, [⟨.TCPS, 50000, "TcpServer1"⟩]⟩)
      (some ⟨some 0, [⟨.CONSUMER, 50000, "Out1"⟩, ⟨.CONSUMER, 50000, "Out2"⟩]⟩)) := by
  obtain ⟨u, hpool, hmanager⟩ : ∃ u,
      instantiateThreadPool .plain oneToTwo World.fresh = some (.ok true, u) ∧
        instantiateDataManager oneToTwo u =
          some (.ok true, oneToTwoWorld noQueues none none) := ⟨_, rfl, rfl⟩
  have hout : instantiateProxy .plain oneToTwo "out" (oneToTwoWorld noQueues none none) =
      some (.ok true, oneToTwoWorld ((noQueues.setConsumer "Out1").1.setConsumer "Out2").1 none
        (some ⟨some 0, [⟨.CONSUMER, 50000, "Out1"⟩, ⟨.CONSUMER, 50000, "Out2"⟩]⟩)) := rfl
  have hin : ∀ dm outProxy, instantiateProxy .plain oneToTwo "in" (oneToTwoWorld dm none outProxy) =
      some (.ok true, oneToTwoWorld (dm.setFeeder "TcpServer1").1
        (some ⟨some 0, [⟨.TCPS, 50000, "TcpServer1"⟩]⟩) outProxy) := fun _ _ => rfl
  exact parseConf_of_parts hpool hmanager hout (hin _ _)

/-- Both consumers are in their loops when a message comes; its copy has reached the first
consumer, which has written it, and not the second one. -/
def halfBroadcast : List Act :=
  threads (List.replicate 12 (.caller none) ++
    [.threadLoop 0, .threadLoop 1, .threadLoop 2, .work 0 true, .work 1 true, .work 1 true,
      .work 2 true, .work 2 true]) ++
    [.push "a" "TcpServer1"] ++ threads (List.replicate 4 (.work 0 true) ++
      List.replicate 4 (.work 1 true))

/-- The framework of one server and two consumers, half way through a broadcast. -/
theorem oneToTwo_system :
    ∃ (w : World) (dm : DataManager Msg) (s : System),
      parseConf .plain (some oneToTwo) World.fresh = some (true, w) ∧ w.data = some dm ∧
      OwnFile w dm ⟨.CONSUMER, 50000, "Out1"⟩ ∧ OwnFile w dm ⟨.CONSUMER, 50000, "Out2"⟩ ∧
      run (step w.plan) (start w.plan false dm) halfBroadcast = some s ∧
      s.files "Out1" = [⟨"TcpServer1", "a", true⟩] ∧ s.files "Out2" = [] :=
  ⟨_, _, _, oneToTwo_built, rfl, ⟨by decide, rfl, by decide, by decide⟩,
    ⟨by decide, rfl, by decide, by decide⟩, rfl, rfl, rfl⟩

/-- In every state of every run of an accepted topology, the file of a consumer has of each
feeder the first messages that `push` accepted from it, in their order and once each. -/
theorem files_in_order {env : Env} {tree : PTree} {w : World} {dm : DataManager Msg}
    (hparse : parseConf env (some tree) World.fresh = some (true, w)) (hdm : w.data = some dm)
    {n : ProxyNode} (hn : OwnFile w dm n) {acts : List Act} {s : System}
    (hrun : run (step w.plan) (start w.plan uninitialised dm) acts = some s) (f : String) :
    ((s.files n.name).filter fun m => m.feeder = f) <+:
      s.accepted.filter fun m => m.feeder = f :=
  hn.filter_accepted (registered_data hparse hdm) hrun f

/-- The second consumer has still to get the message. -/
theorem files_in_order_half_way :
    ∃ (w : World) (s : System),
      parseConf .plain (some oneToTwo) World.fresh = some (true, w) ∧
      ((s.files "Out2").filter fun m => m.feeder = "TcpServer1") <+:
        s.accepted.filter fun m => m.feeder = "TcpServer1" := by
  obtain ⟨w, dm, s, hparse, hdm, -, hn, hrun, -⟩ := oneToTwo_system
  exact ⟨w, s, hparse, files_in_order hparse hdm hn hrun "TcpServer1"⟩

/-- In every state of every run of an accepted topology, the files of two consumers agree: one
of them is the beginning of the other one. -/
theorem files_agree {env : Env} {tree : PTree} {w : World} {dm : DataManager Msg}
    (hparse : parseConf env (some tree) World.fresh = some (true, w)) (hdm : w.data = some dm)
    {n n' : ProxyNode} (hn : OwnFile w dm n) (hn' : OwnFile w dm n') {acts : List Act} {s : System}
    (hrun : run (step w.plan) (start w.plan uninitialised dm) acts = some s) :
    s.files n.name <+: s.files n'.name ∨ s.files n'.name <+: s.files n.name := by
  have hreg := registered_data hparse hdm
  obtain ⟨pipeActs, hp⟩ := run_piped hrun
  exact List.prefix_or_prefix_of_prefix (hn.broadcast hreg hrun hp) (hn'.broadcast hreg hrun hp)

/-- The first consumer is ahead. -/
theorem files_agree_half_way :
    ∃ (w : World) (s : System),
      parseConf .plain (some oneToTwo) World.fresh = some (true, w) ∧
      (s.files "Out1" <+: s.files "Out2" ∨ s.files "Out2" <+: s.files "Out1") := by
  obtain ⟨w, dm, s, hparse, hdm, hn, hn', hrun, -⟩ := oneToTwo_system
  exact ⟨w, s, hparse, files_agree hparse hdm hn hn' hrun⟩

/-! ### A topology in mode `map` -/

/-- Nobody has anything to write, and no file has a line. -/
structure Unwritten (s : System) : Prop where
  rest : ∀ r, s.rest r = []
  files : ∀ name, s.files name = []

/-- It stays so as long as no `pop` gives anything. -/
theorem Unwritten.step {s s' : System} {a : Act} (hU : Unwritten s) (h : Step plan s a s')
    (hdata : ∀ r, s'.pipe.data r = []) : Unwritten s' := by
  cases h with
  | push | control => exact ⟨hU.rest, hU.files⟩
  | @work i outcome t d ht he =>
    cases he with
    | sweep | tested | nothing => exact ⟨hU.rest, hU.files⟩
    | opened =>
      refine ⟨hU.rest, fun name => ?_⟩
      dsimp only
      rw [Function.update_apply, hU.files name, ite_self]
    | moved =>
      have hmoved := hdata (t.job, i)
      dsimp only at hmoved
      refine ⟨fun r => ?_, hU.files⟩
      dsimp only
      rw [hmoved, List.drop_nil, List.append_nil, Function.update_eq_self, hU.rest r]
    | wrote _ _ hr | sent _ _ hr => cases (hU.rest _).symm.trans hr

/-- In mode `map` nothing is delivered: in every state of every run all files are empty, and every
message that `push` accepted waits, in order, in the queue of its feeder. -/
theorem map_delivers_nothing {env : Env} {tree : PTree} {w : World} {dm : DataManager Msg}
    (hparse : parseConf env (some tree) World.fresh = some (true, w)) (hdm : w.data = some dm)
    (hmode : dm.mode = .MAP) {acts : List Act} {s : System}
    (hrun : run (step w.plan) (start w.plan uninitialised dm) acts = some s) :
    (∀ name, s.files name = []) ∧
      ∀ f i, dm.inQueuesIds.lookup f = some i →
        s.pipe.waiting i = s.accepted.filter fun m => m.feeder = f := by
  have hreg := registered_data hparse hdm
  constructor
  · refine (run_history (I := fun _ s => Unwritten s) ⟨fun _ => rfl, fun _ => rfl⟩ ?_ hrun).files
    intro before u a v hu hU h
    obtain ⟨pipeActs, hp⟩ := run_piped (run_concat_eq_some.mpr ⟨u, hu, h⟩)
    exact hU.step (step_cases h) (Pipe.run_map_data hreg hmode hp.run)
  · intro f i hf
    obtain ⟨pipeActs, hp⟩ := run_piped hrun
    have hnone := Pipe.run_map hmode hp.run
    rw [← hp.accepted f (Slots.mem_of_lookup hf)]
    rw [← (Pipe.run_ids hp.run).1] at hf
    have horder := (Pipe.run_fifo hreg hp.source hp.run).order f i hf
    rwa [(List.append_eq_nil_iff.mp hnone).1, List.filter_nil, List.nil_append] at horder

/-- One TCP server and a consumer, in mode `map`. -/
def mapped : PTree :=
  .node "" [
    ("dataManager", .node "" [("name", .node "dm" []), ("threadCount", .node "4" []),
      ("mode", .node "Map" [])]),
    ("inProxy", .node "" [("", .node "" [("type", .node "TCP_Server" []),
      ("port", .node "50000" []), ("name", .node "TcpServer1" [])])]),
    ("outProxy", .node "" [("", .node "" [("type", .node "CONSUMER" []),
      ("port", .node "50000" []), ("name", .node "Out1" [])])])]

/-- A message comes while the manager iterates and the consumer is in its loop. -/
theorem map_delivers_nothing_while_running :
    ∃ (w : World) (s : System), parseConf .plain (some mapped) World.fresh = some (true, w) ∧
      s.accepted = [⟨"TcpServer1", "a", true⟩] ∧ s.files "Out1" = [] := by
  obtain ⟨w, hparse, hpool, hmanager, hin, hout⟩ : ∃ w,
      parseConf .plain (some mapped) World.fresh = some (true, w) ∧
        w.framework.threadPool = some 4 ∧
        w.manager = some (((DataManager.new ⟨"dm", 8, 8, .MAP⟩).setFeeder
          "TcpServer1").1.setConsumer "Out1").1 ∧
        w.nodes "in" = [⟨.TCPS, 50000, "TcpServer1"⟩] ∧
        w.nodes "out" = [⟨.CONSUMER, 50000, "Out1"⟩] := ⟨_, rfl, rfl, rfl, rfl, rfl⟩
  obtain ⟨dm, hdata, hdm⟩ : ∃ dm : DataManager Msg, w.data = some dm ∧
      dm = (((DataManager.new ⟨"dm", 8, 8, .MAP⟩).setFeeder
        "TcpServer1").1.setConsumer "Out1").1 := by
    rw [World.data, hmanager]
    exact ⟨_, rfl, rfl⟩
  obtain ⟨s, hrun, haccepted⟩ : ∃ s, run (step w.plan) (start w.plan false dm)
        (started ++ [.push "a" "TcpServer1"] ++ threads [.work 0 false, .work 1 true]) = some s ∧
      s.accepted = [⟨"TcpServer1", "a", true⟩] := by
    rw [World.plan_eq hpool hin hout, hdm]
    exact ⟨_, rfl, rfl⟩
  exact ⟨w, s, hparse, haccepted,
    (map_delivers_nothing hparse hdata (by rw [hdm]; rfl) hrun).1 "Out1"⟩

end System

end DataPipeline
