import DataPipeline.Broadcast.Pops
import DataPipeline.Framework.Files
import Mathlib.Data.List.Flatten

/-!
# What leaves a UDP client

The framework may execute one client on several threads at once, each with a vector of its
own. What they hand to `sendto` is what they have popped, each thread in the order of the
broadcasts, and together no message more often than it was accepted. No constructor gives
a client a queue, so it sends something only under the name of a consumer.
-/

namespace DataPipeline

open Machine

/-! ### Entries with keys -/

section Keyed

variable {κ α : Type} [DecidableEq κ] [DecidableEq α]

/-- The values of one key. -/
def valuesOf (k : κ) (log : List (κ × α)) : List α := (log.filter fun e => e.1 = k).map Prod.snd

/-- The values of some keys. -/
def valuesIn (p : κ → Bool) (log : List (κ × α)) : List α := (log.filter fun e => p e.1).map Prod.snd

theorem count_eq_count_valuesOf (e : κ × α) (log : List (κ × α)) :
    log.count e = (valuesOf e.1 log).count e.2 := by
  induction log with
  | nil => rfl
  | cons x log ih =>
    rw [List.count_cons, ih, valuesOf, valuesOf]
    by_cases hk : x.1 = e.1
    · rw [List.filter_cons_of_pos (by simpa using hk), List.map_cons, List.count_cons]
      simp only [beq_iff_eq, Prod.ext_iff, hk, true_and]
    · rw [List.filter_cons_of_neg (by simpa using hk)]
      simp only [beq_iff_eq, Prod.ext_iff, hk, false_and, if_false, Nat.add_zero]

/-- What one log has of each key at most as often as another one, it has of all keys together at
most as often. -/
theorem valuesIn_subperm {log log' : List (κ × α)}
    (h : ∀ k, List.Subperm (valuesOf k log) (valuesOf k log')) (p : κ → Bool) :
    List.Subperm (valuesIn p log) (valuesIn p log') := by
  have hall : List.Subperm log log' := List.subperm_ext_iff.mpr fun e _ => by
    rw [count_eq_count_valuesOf, count_eq_count_valuesOf]
    exact (h e.1).count_le e.2
  obtain ⟨sub, hperm, hsub⟩ := hall.filter fun e => p e.1
  exact ⟨sub.map Prod.snd, hperm.map Prod.snd, hsub.map Prod.snd⟩

omit [DecidableEq α] in
theorem valuesOf_append (k : κ) (log log' : List (κ × α)) :
    valuesOf k (log ++ log') = valuesOf k log ++ valuesOf k log' := by
  rw [valuesOf, List.filter_append, List.map_append]
  rfl

end Keyed

namespace Pipe

variable {θ T : Type} [DecidableEq θ] {popId : θ → String}

/-! ### What the calls of `pop` have appended -/

/-- What the calls have appended, each message with the thread that has made the call. -/
def takenBy (log : List (Return θ T)) : List (θ × T) :=
  log.flatMap fun c => c.appended.map fun m => (c.thread, m)

omit [DecidableEq θ] in
theorem valuesIn_takenBy (p : θ → Bool) (log : List (Return θ T)) :
    valuesIn p (takenBy log) = (log.filter fun c => p c.thread).flatMap Return.appended := by
  induction log with
  | nil => rfl
  | cons c log ih =>
    have hone : valuesIn p (c.appended.map fun m => (c.thread, m)) =
        if p c.thread then c.appended else [] := by
      rw [valuesIn, List.filter_map, List.map_map]
      by_cases hp : p c.thread <;> simp [Function.comp_def, hp]
    have hsplit : valuesIn p (takenBy (c :: log)) =
        valuesIn p (c.appended.map fun m => (c.thread, m)) ++ valuesIn p (takenBy log) := by
      rw [valuesIn, takenBy, List.flatMap_cons, List.filter_append, List.map_append]
      rfl
    rw [hsplit, ih, hone]
    by_cases hp : p c.thread <;> simp [hp]

/-- A call appends nothing for a name that has no queue. -/
theorem appendedFor_unknown {dm : DataManager T} {acts : List (Act θ T)} {s : Pipe θ T}
    (hrun : run (next popId) (start dm) acts = some s) {name : String}
    (hname : dm.outQueuesIds.lookup name = none) :
    appendedFor popId name (popLog popId dm acts) = [] := by
  refine run_history (I := fun acts _ => appendedFor popId name (popLog popId dm acts) = []) rfl
    ?_ hrun
  intro acts u a v hu hI huv
  rw [popLog, observe_concat _ hu, appendedFor_append, ← popLog, hI, List.nil_append]
  cases next_cases huv with
  | pushUnknown | push | passBegin | passMap | passEnd | visitFound | visitSkip | copyBegin
    | copyTo | copyEnd => rfl
  | @popFail t =>
    rw [returns_popFail huv]
    by_cases he : popId t = name <;> simp [appendedFor, he]
  | popFound =>
    rw [returns_popFound huv]
    rfl
  | @popMove t id q hc hq =>
    have hne : popId t ≠ name := by
      rintro rfl
      have hlookup := run_calls hu t id hc
      rw [(run_ids hu).2, hname] at hlookup
      cases hlookup
    rw [returns_popMove hc hq]
    simp [appendedFor, hne]

end Pipe

namespace System

variable {plan : Plan} {dm : DataManager Msg} {uninitialised : Bool}

/-! ### What a thread hands to `sendto` -/

/-- What the step of pool thread `i` inside job `t` hands to `sendto`. -/
def sendsIn (plan : Plan) (s : System) (i : Nat) (t : Task) (outcome : Bool) :
    List (Runner × Msg) :=
  if plan.type t.job = some .UDPTX ∧ t.pc = .write ∧ outcome = true then
    (s.rest (t.job, i)).head?.toList.map fun it => ((t.job, i), it)
  else []

/-- What a step hands to `sendto`, with the thread that does. -/
def sends (plan : Plan) (s : System) : Act → List (Runner × Msg)
  | .control (.work i outcome) =>
    match s.control.pool.threads[i]? with
    | some (.running t) => s.sendsIn plan i t outcome
    | _ => []
  | _ => []

/-- What was handed to `sendto` in a run. -/
def sendLog (plan : Plan) (uninitialised : Bool) (dm : DataManager Msg) (acts : List Act) :
    List (Runner × Msg) :=
  observe (step plan) (sends plan) (start plan uninitialised dm) acts

/-- A client has popped what it has sent and what it has still to send. -/
def Sends (plan : Plan) (r : Runner) (log : List (Runner × Msg)) (s : System) : Prop :=
  plan.type r.1 = some .UDPTX → valuesOf r log ++ s.rest r = s.pipe.data r

/-- A step that sends nothing and leaves the vectors alone. -/
theorem Sends.frame {r : Runner} {log : List (Runner × Msg)} {s d : System}
    (hS : Sends plan r log s) (hrest : d.rest r = s.rest r) (hdata : d.pipe.data r = s.pipe.data r) :
    Sends plan r log d := by
  intro ht
  rw [hrest, hdata]
  exact hS ht

theorem sendsIn_of_pc {s : System} {i : Nat} {t : Task} {outcome : Bool} (h : t.pc ≠ .write) :
    s.sendsIn plan i t outcome = [] :=
  if_neg fun hc => h hc.2.1

theorem sends_eq_nil {s : System} {a : Act} (h : ∀ i outcome, a ≠ .control (.work i outcome)) :
    s.sends plan a = [] := by
  unfold sends
  split
  · exact absurd rfl (h _ _)
  · rfl

/-- The steps of `UdpClient::run`. -/
theorem Sends.client {r : Runner} {log : List (Runner × Msg)} {s d : System} {job : Job} {pc : Pc}
    {outcome : Bool} {i : Nat} (hS : Sends plan r log s) (ht : plan.type job = some .UDPTX)
    (h : s.clientEffect plan (job, i) outcome pc = some d) :
    Sends plan r (log ++ s.sendsIn plan i ⟨job, pc⟩ outcome) d := by
  cases pc with
  | enter =>
    obtain ⟨pipe, hpipe, rfl⟩ := popTest_eq_some h
    rw [sendsIn_of_pc (by intro he; cases he), List.append_nil]
    exact hS.frame rfl (Pipe.data_of_ne hpipe (by intro he; cases he))
  | move =>
    obtain ⟨pipe, hpipe, rfl⟩ := popMove_eq_some h
    rw [sendsIn_of_pc (by intro he; cases he), List.append_nil]
    by_cases hr : r = (job, i)
    · subst hr
      intro hc
      obtain ⟨moved, hmoved⟩ : ∃ moved, pipe.data (job, i) = s.pipe.data (job, i) ++ moved :=
        ⟨_, Pipe.data_step hpipe (job, i)⟩
      simp only [Function.update_self, hmoved, List.drop_left]
      rw [← List.append_assoc, hS hc]
    · exact hS.frame (Function.update_of_ne hr ..)
        (Pipe.data_of_ne hpipe fun he => hr (Pipe.Act.popMove.inj he).symm)
  | write =>
    simp only [clientEffect] at h
    split at h
    · rename_i it rest hrest
      cases h
      have hsend : s.sendsIn plan i ⟨job, .write⟩ true = [((job, i), it)] := by
        rw [sendsIn, if_pos ⟨ht, rfl, rfl⟩, hrest]
        rfl
      rw [hsend]
      by_cases hr : r = (job, i)
      · subst hr
        intro hc
        dsimp only
        rw [valuesOf_append, Function.update_self, List.append_assoc, ← hS hc, hrest]
        simp [valuesOf]
      · intro hc
        dsimp only
        rw [valuesOf_append, Function.update_of_ne hr, ← hS hc]
        simp [valuesOf, Ne.symm hr]
    · cases h
      have hsend : s.sendsIn plan i ⟨job, .write⟩ false = [] :=
        if_neg fun hc => Bool.false_ne_true hc.2.2
      rwa [hsend, List.append_nil]
    · contradiction
  | opening | test | body =>
    cases h
    rw [sendsIn_of_pc (by intro he; cases he), List.append_nil]
    exact hS

/-- The steps of other jobs. -/
theorem Sends.other {r : Runner} {log : List (Runner × Msg)} {s d : System} {t : Task}
    {outcome : Bool} {i : Nat} (hS : Sends plan r log s) (ht : plan.type t.job ≠ some .UDPTX)
    (h : Effect plan s i t outcome d) :
    Sends plan r (log ++ s.sendsIn plan i t outcome) d := by
  have hsend : s.sendsIn plan i t outcome = [] := if_neg fun hc => ht hc.1
  rw [hsend, List.append_nil]
  intro hc
  have hr : r ≠ (t.job, i) := by
    rintro rfl
    exact ht hc
  revert hc
  cases h with
  | sweep _ h => exact hS.frame rfl (Pipe.data_of_ne h (by intro he; cases he))
  | tested _ _ h => exact hS.frame rfl (Pipe.data_of_ne h (by intro he; cases he))
  | moved _ _ h =>
    exact hS.frame (Function.update_of_ne hr ..)
      (Pipe.data_of_ne h fun he => hr (Pipe.Act.popMove.inj he).symm)
  | wrote => exact hS.frame (Function.update_of_ne hr ..) rfl
  | sent hc => exact absurd hc ht
  | opened | nothing => exact hS

theorem Sends.step {r : Runner} {log : List (Runner × Msg)} {s s' : System} {a : Act}
    (hS : Sends plan r log s) (h : System.step plan s a = some s') :
    Sends plan r (log ++ s.sends plan a) s' := by
  unfold System.step at h
  split at h
  · obtain ⟨pipe, hpipe, h⟩ := Option.bind_eq_some_iff.mp h
    cases h
    rw [sends_eq_nil (by intro _ _ he; cases he), List.append_nil]
    exact hS.frame rfl (Pipe.data_of_ne hpipe (by intro he; cases he))
  · split at h
    · rename_i i outcome t ht
      obtain ⟨d, hd, rfl⟩ := Option.map_eq_some_iff.mp h
      simp only [sends, ht]
      by_cases hc : plan.type t.job = some .UDPTX
      · obtain ⟨job, pc⟩ := t
        cases job with
        | dmRun => cases hc
        | nodeRun side k =>
          simp only [effect, hc] at hd
          exact (hS.client hc hd).frame rfl rfl
      · exact (hS.other hc (effect_cases hd)).frame rfl rfl
    · contradiction
  · rename_i a hno
    obtain ⟨c, _, rfl⟩ := Option.map_eq_some_iff.mp h
    rw [sends_eq_nil fun i outcome he => hno i outcome (Act.control.inj he), List.append_nil]
    exact hS

/-! ### Along a run -/

/-- What was handed to `sendto` under a name. -/
def sentAs (plan : Plan) (name : String) (log : List (Runner × Msg)) : List Msg :=
  valuesIn (fun r => plan.popId r = name) log

theorem sendsIn_client {s : System} {i : Nat} {t : Task} {outcome : Bool} :
    ∀ e ∈ s.sendsIn plan i t outcome, plan.type e.1.1 = some .UDPTX := by
  intro e he
  rw [sendsIn] at he
  split at he
  · rename_i hc
    obtain ⟨_, _, rfl⟩ := List.mem_map.mp he
    exact hc.1
  · exact absurd he List.not_mem_nil

theorem sends_client {s : System} {a : Act} :
    ∀ e ∈ s.sends plan a, plan.type e.1.1 = some .UDPTX := by
  unfold sends
  split
  · split
    · exact sendsIn_client
    · exact fun _ he => absurd he List.not_mem_nil
  · exact fun _ he => absurd he List.not_mem_nil

/-- Only clients send. -/
theorem sendLog_client {acts : List Act} :
    ∀ e ∈ sendLog plan uninitialised dm acts, plan.type e.1.1 = some .UDPTX :=
  forall_mem_observe.mpr fun _ _ _ _ _ _ => sends_client

/-- What a thread has sent is the beginning of what it has popped. -/
theorem run_sends {acts : List Act} {s : System}
    (hrun : run (step plan) (start plan uninitialised dm) acts = some s) (r : Runner) :
    valuesOf r (sendLog plan uninitialised dm acts) <+: s.pipe.data r := by
  by_cases ht : plan.type r.1 = some .UDPTX
  · have hS : Sends plan r ([] ++ sendLog plan uninitialised dm acts) s :=
      run_observe_invariant (C := fun _ => True) (I := fun s log => Sends plan r log s)
        (fun _ _ _ _ hS _ h => hS.step h) (fun _ => rfl) (fun _ _ => trivial) hrun
    exact ⟨s.rest r, hS ht⟩
  · have hnone : valuesOf r (sendLog plan uninitialised dm acts) = [] := by
      rw [valuesOf, List.map_eq_nil_iff, List.filter_eq_nil_iff]
      intro e he hr
      exact ht (of_decide_eq_true hr ▸ sendLog_client e he)
    rw [hnone]
    exact List.nil_prefix

/-- What is sent under a name, the calls of `pop` for the name have appended, at least as
often. -/
theorem sentAs_subperm {acts : List Act} {s : System}
    (hrun : run (step plan) (start plan uninitialised dm) acts = some s)
    {pipeActs : List (Pipe.Act Runner Msg)} (hp : Piped plan dm s pipeActs) (name : String) :
    List.Subperm (sentAs plan name (sendLog plan uninitialised dm acts))
      (Pipe.appendedFor plan.popId name (Pipe.popLog plan.popId dm pipeActs)) := by
  have htaken := Pipe.valuesIn_takenBy (fun r => plan.popId r = name)
    (Pipe.popLog plan.popId dm pipeActs)
  rw [Pipe.appendedFor, ← htaken]
  refine valuesIn_subperm (fun r => ?_) _
  have hone : valuesOf r (Pipe.takenBy (Pipe.popLog plan.popId dm pipeActs)) = s.pipe.data r :=
    (Pipe.valuesIn_takenBy (fun r' => r' = r) _).trans (Pipe.run_data hp.run r).symm
  rw [hone]
  exact (run_sends hrun r).sublist.subperm

/-- What is broadcast was accepted, at least as often. -/
theorem published_subperm (hdm : dm.Registered) {s : System}
    {pipeActs : List (Pipe.Act Runner Msg)} (hp : Piped plan dm s pipeActs) :
    List.Subperm (Pipe.published plan.popId dm pipeActs s.pipe) s.accepted := by
  refine List.subperm_ext_iff.mpr fun m _ => ?_
  calc (Pipe.published plan.popId dm pipeActs s.pipe).count m
    _ = ((Pipe.published plan.popId dm pipeActs s.pipe).filter
          fun m' => m'.feeder = m.feeder).count m := (List.count_filter (by simp)).symm
    _ ≤ (s.accepted.filter fun m' => m'.feeder = m.feeder).count m :=
          (hp.filter_published hdm m.feeder).sublist.count_le m
    _ = s.accepted.count m := List.count_filter (by simp)

/-- The calls for a name have appended the first of what has been broadcast. -/
theorem appendedFor_published (hdm : dm.Registered) {s : System}
    {pipeActs : List (Pipe.Act Runner Msg)} (hp : Piped plan dm s pipeActs) (name : String) :
    Pipe.appendedFor plan.popId name (Pipe.popLog plan.popId dm pipeActs) <+:
      Pipe.published plan.popId dm pipeActs s.pipe := by
  cases hname : dm.outQueuesIds.lookup name with
  | none =>
    rw [Pipe.appendedFor_unknown hp.run hname]
    exact List.nil_prefix
  | some j =>
    have hlt : j < s.pipe.manager.outQueues.length := by
      have hw := Pipe.run_wired hdm hp.run
      exact hw.belowOut name j (by rw [(Pipe.run_ids hp.run).2, hname])
    rw [← Pipe.run_handed hdm.2.distinct hp.run hname]
    exact Pipe.handed_prefix hdm hp.run hlt

/-- What one call has appended is among what all calls for its name have. -/
theorem data_sublist {s : System} {pipeActs : List (Pipe.Act Runner Msg)}
    (hp : Piped plan dm s pipeActs) (r : Runner) :
    List.Sublist (s.pipe.data r)
      (Pipe.appendedFor plan.popId (plan.popId r) (Pipe.popLog plan.popId dm pipeActs)) := by
  rw [Pipe.run_data hp.run r, Pipe.appendedBy, Pipe.appendedFor]
  refine List.Sublist.flatMap (List.monotone_filter_right _ fun c hc => ?_) _
  exact decide_eq_true (congrArg plan.popId (of_decide_eq_true hc))

/-! ### Accepted topologies -/

/-- Only consumers have queues. -/
theorem consumer_of_queue {env : Env} {tree : PTree} {w : World}
    (hparse : parseConf env (some tree) World.fresh = some (true, w)) (hdm : w.data = some dm)
    {name : String} (h : name ∈ dm.outQueuesIds) :
    ∃ n ∈ w.nodes "out" ++ w.nodes "in", n.type = .CONSUMER ∧ n.name = name := by
  obtain ⟨conf, _, _, _, _, hmanager⟩ := parseConf_eq_true hparse
  rw [World.data, hmanager, Option.map_some] at hdm
  obtain rfl := Option.some.inj hdm
  have hids := (registryOf_foldl conf (w.nodes "out" ++ w.nodes "in")).consumers
  rw [DataManager.map, hids] at h
  exact mem_consumers.mp (Slots.mem_of_mem_admitAll h)

/-- One TCP server, a consumer, and a UDP client of the same name. -/
def sharedName : PTree :=
  .node "" [
    ("dataManager", .node "" [("name", .node "dm" []), ("threadCount", .node "4" []),
      ("mode", .node "broadcast" [])]),
    ("inProxy", .node "" [("", .node "" [("type", .node "TCP_Server" []),
      ("port", .node "50000" []), ("name", .node "TcpServer1" [])])]),
    ("outProxy", .node "" [("", .node "" [("type", .node "CONSUMER" []),
      ("port", .node "50000" []), ("name", .node "Out1" [])]),
      ("", .node "" [("type", .node "UDP_Tx" []),
      ("port", .node "50000" []), ("name", .node "Out1" [])])])]

theorem sharedName_built :
    parseConf .plain (some sharedName) World.fresh = some (true, oneToTwoWorld
      ((noQueues.setConsumer "Out1").1.setFeeder "TcpServer1").1
      (some ⟨some 0, [⟨.TCPS, 50000, "TcpServer1"⟩]⟩)
      (some ⟨some 0, [⟨.CONSUMER, 50000, "Out1"⟩, ⟨.UDPTX, 50000, "Out1"⟩]⟩)) := by
  obtain ⟨u, hpool, hmanager⟩ : ∃ u,
      instantiateThreadPool .plain sharedName World.fresh = some (.ok true, u) ∧
        instantiateDataManager sharedName u =
          some (.ok true, oneToTwoWorld noQueues none none) := ⟨_, rfl, rfl⟩
  have hout : instantiateProxy .plain sharedName "out" (oneToTwoWorld noQueues none none) =
      some (.ok true, oneToTwoWorld (noQueues.setConsumer "Out1").1 none
        (some ⟨some 0, [⟨.CONSUMER, 50000, "Out1"⟩, ⟨.UDPTX, 50000, "Out1"⟩]⟩)) := rfl
  have hin : ∀ dm outProxy, instantiateProxy .plain sharedName "in"
      (oneToTwoWorld dm none outProxy) = some (.ok true, oneToTwoWorld (dm.setFeeder "TcpServer1").1
        (some ⟨some 0, [⟨.TCPS, 50000, "TcpServer1"⟩]⟩) outProxy) := fun _ _ => rfl
  exact parseConf_of_parts hpool hmanager hout (hin _ _)

/-- The message is broadcast, and the client sends it while the consumer waits for its turn. -/
def sentOn : List Act :=
  threads (List.replicate 12 (.caller none) ++
    [.threadLoop 0, .threadLoop 1, .threadLoop 2, .work 0 true]) ++
    [.push "a" "TcpServer1"] ++ threads (List.replicate 5 (.work 0 true) ++
      List.replicate 3 (.work 2 true))

/-- What the UDP clients of an accepted topology send, in every state of every run, however many
threads execute a client at once: under each name no message more often than `push` has accepted
it; each thread, of each feeder, messages in the order in which they were accepted; and nothing
under a name that no consumer has. -/
theorem clients_send_accepted {env : Env} {tree : PTree} {w : World}
    (hparse : parseConf env (some tree) World.fresh = some (true, w)) (hdm : w.data = some dm)
    {acts : List Act} {s : System}
    (hrun : run (step w.plan) (start w.plan uninitialised dm) acts = some s) :
    (∀ name, List.Subperm (sentAs w.plan name (sendLog w.plan uninitialised dm acts))
        s.accepted) ∧
      (∀ r f, List.Sublist
        ((valuesOf r (sendLog w.plan uninitialised dm acts)).filter fun m => m.feeder = f)
        (s.accepted.filter fun m => m.feeder = f)) ∧
      (∀ name, (∀ n ∈ w.nodes "out" ++ w.nodes "in", n.type = .CONSUMER → n.name ≠ name) →
        sentAs w.plan name (sendLog w.plan uninitialised dm acts) = []) := by
  have hreg := registered_data hparse hdm
  obtain ⟨pipeActs, hp⟩ := run_piped hrun
  refine ⟨fun name => ?_, fun r f => ?_, fun name hnone => ?_⟩
  · have hpublished := (sentAs_subperm hrun hp name).trans
      (appendedFor_published hreg hp name).sublist.subperm
    exact hpublished.trans (published_subperm hreg hp)
  · have hsent : List.Sublist (valuesOf r (sendLog w.plan uninitialised dm acts))
        (Pipe.published w.plan.popId dm pipeActs s.pipe) :=
      ((run_sends hrun r).sublist.trans (data_sublist hp r)).trans
        (appendedFor_published hreg hp _).sublist
    exact (hsent.filter _).trans (hp.filter_published hreg f).sublist
  · have hname : dm.outQueuesIds.lookup name = none := by
      cases hlookup : dm.outQueuesIds.lookup name with
      | none => rfl
      | some j =>
        obtain ⟨n, hn, hc, he⟩ := consumer_of_queue hparse hdm (Slots.mem_of_lookup hlookup)
        exact absurd he (hnone n hn hc)
    have hsub := sentAs_subperm hrun hp name
    rw [Pipe.appendedFor_unknown hp.run hname] at hsub
    exact List.subperm_nil.mp hsub

/-- One message, sent once. -/
theorem clients_send_accepted_shared_name :
    ∃ (w : World) (dm : DataManager Msg) (s : System),
      parseConf .plain (some sharedName) World.fresh = some (true, w) ∧
      sentAs w.plan "Out1" (sendLog w.plan false dm sentOn) = [⟨"TcpServer1", "a", true⟩] ∧
      List.Subperm (sentAs w.plan "Out1" (sendLog w.plan false dm sentOn)) s.accepted := by
  obtain ⟨w, dm, s, hparse, hdm, hrun, hsent⟩ : ∃ (w : World) (dm : DataManager Msg) (s : System),
      parseConf .plain (some sharedName) World.fresh = some (true, w) ∧ w.data = some dm ∧
      run (step w.plan) (start w.plan false dm) sentOn = some s ∧
      sentAs w.plan "Out1" (sendLog w.plan false dm sentOn) = [⟨"TcpServer1", "a", true⟩] :=
    ⟨_, _, _, sharedName_built, rfl, rfl, rfl⟩
  exact ⟨w, dm, s, hparse, hsent, (clients_send_accepted hparse hdm hrun).1 "Out1"⟩

end System

end DataPipeline
