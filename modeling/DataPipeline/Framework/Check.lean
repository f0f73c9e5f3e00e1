import DataPipeline.Core.Lines
import DataPipeline.Framework.Files

/-!
# The check of the repository's test

The test sends messages through a framework, stops it and looks for each of them in the
files of the consumers. What it compares a message with are the lines of a file, collected
under the last digit of the consumer's name.
-/

namespace DataPipeline

open Machine

/-! ### The names of the consumers -/

/-- The loop of `getConsumerNames`; what was found before a throw stays in `names`. -/
def consumerNames : List PTree → List String → Except Thrown Unit × List String
  | [], names => (.ok (), names)
  | entry :: rest, names =>
    match entry.getOptional ["type"] with
    | none => (.error (.ptreeBadPath "type"), names)
    | some typeName =>
      match getProxyType typeName with
      | .error e => (.error e, names)
      | .ok .CONSUMER =>
        match entry.getOptional ["name"] with
        | none => (.error (.ptreeBadPath "name"), names)
        | some name => consumerNames rest (names ++ [name])
      | .ok _ => consumerNames rest names

/-- `DataFramework::getConsumerNames`. -/
def getConsumerNames (tree : PTree) (names : List String) : Except Thrown Unit × List String :=
  consumerNames (tree.entries "outProxy") names

/-- The names of the consumers in the output proxy. -/
def World.consumers (w : World) : List String := namesOf ProxyType.consumes (w.nodes "out")

theorem consumerNames_of_described {entries : List PTree} {nodes : List ProxyNode}
    (h : List.Forall₂ Describes entries nodes) (names : List String) :
    consumerNames entries names = (.ok (), names ++ namesOf ProxyType.consumes nodes) := by
  induction h generalizing names with
  | nil => exact congrArg _ (List.append_nil names).symm
  | @cons entry n entries nodes hd _ ih =>
    obtain ⟨typeName, htype, hproxy, hname⟩ := hd
    by_cases hc : n.type = .CONSUMER
    · have hnames : namesOf ProxyType.consumes (n :: nodes) =
          n.name :: namesOf ProxyType.consumes nodes := by
        simp [namesOf, System.consumes_iff, hc]
      rw [hc] at hproxy
      simp only [consumerNames, htype, hproxy, hname, ih, hnames, List.append_assoc,
        List.singleton_append]
    · have hskip : consumerNames (entry :: entries) names = consumerNames entries names := by
        rw [consumerNames, htype]
        simp only [hproxy]
      have hnames : namesOf ProxyType.consumes (n :: nodes) = namesOf ProxyType.consumes nodes := by
        simp [namesOf, System.consumes_iff, hc]
      rw [hskip, ih, hnames]

/-- The names that the test asks for are those of the consumers that were built. -/
theorem getConsumerNames_of_accepted {env : Env} {tree : PTree} {w : World}
    (hparse : parseConf env (some tree) World.fresh = some (true, w)) :
    getConsumerNames tree [] = (.ok (), w.consumers) := by
  obtain ⟨_, _, _, hout, _⟩ := parseConf_eq_true hparse
  exact consumerNames_of_described hout []

/-! ### `testTool::check` -/

/-- What `testTool` has sent and what it has read, by client and by consumer. -/
structure TestTool where
  txData : Fin 8 → List String
  rxData : Fin 8 → List (List Char)

namespace TestTool

/-- `std::stoi` of the last character, where it is an index of the arrays. Otherwise `stoi` throws,
or the index is out of bounds. -/
def consumerId (name : String) : Option (Fin 8) :=
  name.toList.getLast?.bind fun c =>
    if h : '0'.toNat ≤ c.toNat ∧ c.toNat - '0'.toNat < 8 then some ⟨c.toNat - '0'.toNat, h.2⟩
    else none

/-- Everything that was sent is found in a line of the consumer. -/
def allFound (t : TestTool) (id : Fin 8) : Bool :=
  (List.finRange 8).all fun client => (t.txData client).all fun j =>
    (t.rxData id).any fun k => decide (j.toList <:+: k)

/-- The loop of `check` over the names. `disk` are the files that can be opened; `none` is an
exception or an index out of bounds. -/
def checkNames (disk : String → Option (List Char)) :
    TestTool → List String → Option (Bool × TestTool)
  | t, [] => some (true, t)
  | t, i :: rest =>
    (consumerId i).bind fun id =>
      match disk i with
      | none => some (false, t)
      | some text =>
        let read := { t with
          rxData := Function.update t.rxData id (t.rxData id ++ Lines.getlines '\n' text) }
        if read.allFound id then checkNames disk read rest else some (false, read)

/-- `testTool::check`. -/
def check (tree : PTree) (disk : String → Option (List Char)) (t : TestTool) :
    Option (Bool × TestTool) :=
  match getConsumerNames tree [] with
  | (.ok _, names) => t.checkNames disk names
  | (.error _, _) => none

/-- What `Consumer::run` writes for its messages. -/
def fileText (messages : List String) : List Char :=
  Lines.written '\n' (messages.map String.toList)

/-! ### What the check finds -/

/-- A text occurs in a message that one of the consumers with this index has written. -/
def Found (messages : String → List String) (names : List String) (id : Fin 8) (j : String) :
    Prop :=
  ∃ i ∈ names, consumerId i = some id ∧ ∃ m ∈ messages i, j.toList <:+: m.toList

/-- The test has read the files of some consumers. -/
def HasRead (messages : String → List String) (names : List String) (t : TestTool) : Prop :=
  ∀ id j, '\n' ∉ j.toList →
    ((∃ k ∈ t.rxData id, j.toList <:+: k) ↔ Found messages names id j)

theorem hasRead_nil {messages : String → List String} {t : TestTool}
    (h : ∀ id, t.rxData id = []) : HasRead messages [] t := by
  intro id j _
  rw [h id]
  refine iff_of_false ?_ ?_ <;> rintro ⟨_, hm, _⟩ <;> exact absurd hm List.not_mem_nil

/-- One more file is read. -/
theorem HasRead.step {messages : String → List String} {names : List String} {t : TestTool}
    (h : HasRead messages names t) {i : String} {id : Fin 8} (hi : consumerId i = some id) :
    HasRead messages (names ++ [i]) { t with
      rxData := Function.update t.rxData id
        (t.rxData id ++ Lines.getlines '\n' (fileText (messages i))) } := by
  intro id' j hj
  have hnew : (∃ k ∈ Lines.getlines '\n' (fileText (messages i)), j.toList <:+: k) ↔
      ∃ m ∈ messages i, j.toList <:+: m.toList := by
    rw [fileText, Lines.infix_written_iff hj]
    simp only [List.mem_map, exists_exists_and_eq_and]
  have hfound : Found messages (names ++ [i]) id' j ↔
      Found messages names id' j ∨ (id' = id ∧ ∃ m ∈ messages i, j.toList <:+: m.toList) := by
    constructor
    · rintro ⟨k, hk, hid, hm⟩
      rcases List.mem_append.mp hk with hk | hk
      · exact .inl ⟨k, hk, hid, hm⟩
      · obtain rfl := List.mem_singleton.mp hk
        exact .inr ⟨Option.some.inj (hid.symm.trans hi), hm⟩
    · rintro (⟨k, hk, hid, hm⟩ | ⟨rfl, hm⟩)
      · exact ⟨k, List.mem_append_left _ hk, hid, hm⟩
      · exact ⟨i, List.mem_append_right _ (List.mem_singleton_self i), hi, hm⟩
  rw [hfound, ← h id' j hj, ← hnew]
  by_cases he : id' = id
  · subst he
    simp only [Function.update_self, List.mem_append, or_and_right, exists_or, true_and]
  · simp only [Function.update_of_ne he, he, false_and, or_false]

theorem allFound_iff {messages : String → List String} {names : List String} {t : TestTool}
    (h : HasRead messages names t) (htx : ∀ client, ∀ j ∈ t.txData client, '\n' ∉ j.toList)
    (id : Fin 8) :
    t.allFound id = true ↔ ∀ client, ∀ j ∈ t.txData client, Found messages names id j := by
  simp only [allFound, List.all_eq_true, List.any_eq_true, decide_eq_true_eq]
  constructor
  · exact fun hall client j hj => (h id j (htx client j hj)).mp
      (hall client (List.mem_finRange client) j hj)
  · exact fun hall client _ j hj => (h id j (htx client j hj)).mpr (hall client j hj)

/-- The check passes exactly if for every consumer all that was sent occurs in its messages, or in
those of consumers before it whose names end with the same digit. -/
theorem checkNames_iff {disk : String → Option (List Char)} {messages : String → List String}
    {names : List String} (hids : ∀ i ∈ names, (consumerId i).isSome = true)
    (hdisk : ∀ i ∈ names, disk i = some (fileText (messages i))) {before : List String}
    {t : TestTool} (hread : HasRead messages before t)
    (htx : ∀ client, ∀ j ∈ t.txData client, '\n' ∉ j.toList) :
    ∃ b t', t.checkNames disk names = some (b, t') ∧
      (b = true ↔ ∀ passed i rest, names = passed ++ i :: rest → ∀ id, consumerId i = some id →
        ∀ client, ∀ j ∈ t.txData client, Found messages (before ++ passed ++ [i]) id j) := by
  induction names generalizing before t with
  | nil =>
    refine ⟨true, t, rfl, iff_of_true rfl fun passed i rest he => ?_⟩
    exact absurd he (by simp)
  | cons i names ih =>
    obtain ⟨id, hid⟩ := Option.isSome_iff_exists.mp (hids i List.mem_cons_self)
    have hnow := hread.step hid
    have hall := allFound_iff hnow htx id
    simp only [checkNames, hid, Option.bind_some, hdisk i List.mem_cons_self]
    split
    · rename_i hpass
      obtain ⟨b, t', hrest, hiff⟩ := ih (fun i hi => hids i (List.mem_cons_of_mem _ hi))
        (fun i hi => hdisk i (List.mem_cons_of_mem _ hi)) hnow htx
      refine ⟨b, t', hrest, hiff.trans ⟨fun h passed k rest he => ?_, fun h passed k rest he => ?_⟩⟩
      · cases passed with
        | nil =>
          obtain ⟨rfl, rfl⟩ := List.cons.inj he
          intro id' hid'
          obtain rfl := Option.some.inj (hid.symm.trans hid')
          rw [List.append_nil]
          exact hall.mp hpass
        | cons first passed =>
          obtain ⟨rfl, rfl⟩ := List.cons.inj he
          have := h passed k rest rfl
          rwa [List.append_assoc before] at this
      · have := h (i :: passed) k rest (by rw [he]; rfl)
        rwa [List.append_cons before] at this
    · rename_i hfail
      refine ⟨false, _, rfl, iff_of_false Bool.false_ne_true fun h => hfail ?_⟩
      have := h [] i names rfl id hid
      rw [List.append_nil] at this
      exact hall.mpr this

/-! ### The check of a framework -/

/-- The messages that the consumers of a state have written. -/
def texts (s : System) (name : String) : List String := (s.files name).map Msg.text

/-- The files of the consumers are those of a state. -/
def OnDisk (w : World) (s : System) (disk : String → Option (List Char)) : Prop :=
  ∀ i ∈ w.consumers, disk i = some (fileText (texts s i))

theorem check_of_accepted {env : Env} {tree : PTree} {w : World}
    (hparse : parseConf env (some tree) World.fresh = some (true, w))
    (disk : String → Option (List Char)) (t : TestTool) :
    t.check tree disk = t.checkNames disk (w.consumers) := by
  rw [check, getConsumerNames_of_accepted hparse]

/-- The check of an accepted topology passes exactly if, for every consumer, each text that was
sent occurs in a message in its file, or in that of a consumer before it whose name ends with
the same digit. -/
theorem check_iff {env : Env} {tree : PTree} {w : World}
    (hparse : parseConf env (some tree) World.fresh = some (true, w)) {s : System}
    {disk : String → Option (List Char)} (hdisk : OnDisk w s disk)
    (hids : ∀ i ∈ w.consumers, (consumerId i).isSome = true) {t : TestTool}
    (hfresh : ∀ id, t.rxData id = [])
    (htx : ∀ client, ∀ j ∈ t.txData client, '\n' ∉ j.toList) :
    ∃ b t', t.check tree disk = some (b, t') ∧
      (b = true ↔ ∀ passed i rest, w.consumers = passed ++ i :: rest →
        ∀ id, consumerId i = some id → ∀ client, ∀ j ∈ t.txData client,
          Found (texts s) (passed ++ [i]) id j) := by
  rw [check_of_accepted hparse]
  exact checkNames_iff hids hdisk (hasRead_nil hfresh) htx

/-- One client has sent one text. -/
def sentOnce : TestTool where
  txData client := if client = 0 then ["a"] else []
  rxData _ := []

theorem sentOnce_clean : ∀ client, ∀ j ∈ sentOnce.txData client, '\n' ∉ j.toList := by decide

/-- While the second consumer has still to get the message, the check fails. -/
theorem check_iff_half_way :
    ∃ (s : System) (t' : TestTool),
      sentOnce.check System.oneToTwo (fun i => some (fileText (texts s i))) = some (false, t') := by
  obtain ⟨w, dm, s, hparse, hdm, -, -, hrun, -, hfile⟩ := System.oneToTwo_system
  have hout : w.consumers = ["Out1", "Out2"] := by
    obtain rfl := (Prod.mk.inj (Option.some.inj (hparse.symm.trans System.oneToTwo_built))).2
    rfl
  have hdisk : OnDisk w s fun i => some (fileText (texts s i)) := fun _ _ => rfl
  obtain ⟨b, t', hcheck, hiff⟩ := check_iff hparse hdisk (by rw [hout]; decide)
    (t := sentOnce) (fun _ => rfl) sentOnce_clean
  cases b with
  | false => exact ⟨s, t', hcheck⟩
  | true =>
    obtain ⟨i, hi, hid, m, hm, -⟩ := hiff.mp rfl ["Out1"] "Out2" [] hout 2 (by decide) 0 "a"
      (by decide)
    rcases List.mem_cons.mp hi with rfl | hi
    · exact absurd hid (by decide)
    · obtain rfl := List.mem_singleton.mp hi
      rw [texts, hfile] at hm
      exact absurd hm List.not_mem_nil

/-- Names that pass have an index. -/
theorem isSome_of_checkNames {disk : String → Option (List Char)} {names : List String}
    {t t' : TestTool} (h : t.checkNames disk names = some (true, t')) :
    ∀ i ∈ names, (consumerId i).isSome = true := by
  induction names generalizing t with
  | nil => exact fun _ hi => absurd hi List.not_mem_nil
  | cons k names ih =>
    rw [checkNames] at h
    obtain ⟨id, hid, h⟩ := Option.bind_eq_some_iff.mp h
    refine List.forall_mem_cons.mpr ⟨Option.isSome_iff_exists.mpr ⟨id, hid⟩, ?_⟩
    cases hdisk : disk k with
    | none =>
      rw [hdisk] at h
      cases h
    | some text =>
      simp only [hdisk] at h
      by_cases hall : TestTool.allFound { t with
          rxData := Function.update t.rxData id (t.rxData id ++ Lines.getlines '\n' text) } id
      · rw [if_pos hall] at h
        exact ih h
      · rw [if_neg hall] at h
        cases h

/-- The framework of one server and one consumer, when `stop()` has returned. -/
theorem oneToOne_stopped :
    ∃ (w : World) (dm : DataManager Msg) (s : System),
      parseConf .plain (some (oneToOne "CONSUMER")) World.fresh = some (true, w) ∧
      w.data = some dm ∧ w.consumers = ["Out1"] ∧
      (∀ n ∈ w.nodes "out", n.type = .CONSUMER → System.OwnFile w dm n) ∧
      run (System.step w.plan) (System.start w.plan false dm) System.pushedInTime = some s ∧
      Meets (System.step w.plan) (System.StopsOpened w.plan) (System.start w.plan false dm)
        System.pushedInTime ∧
      Meets (System.step w.plan) (System.LeavesDrained w.plan) (System.start w.plan false dm)
        System.pushedInTime ∧
      s.control.caller = [] ∧ ⟨"TcpServer1", "a", true⟩ ∈ s.accepted ∧
      s.files "Out1" = [⟨"TcpServer1", "a", true⟩] := by
  obtain ⟨w, dm, hparse, hdm, hdm', hplan, hin, hout⟩ := System.oneToOne_system
  have hown : ∀ n ∈ w.nodes "out", n.type = .CONSUMER → System.OwnFile w dm n := by
    rw [hout]
    intro n hn hc
    obtain rfl := List.mem_singleton.mp hn
    exact ⟨by rw [hout]; decide, hc, by rw [hin, hout]; decide, by rw [hdm']; decide⟩
  obtain ⟨s, h⟩ : ∃ s,
      run (System.step w.plan) (System.start w.plan false dm) System.pushedInTime = some s ∧
      Meets (System.step w.plan) (System.StopsOpened w.plan) (System.start w.plan false dm)
        System.pushedInTime ∧
      Meets (System.step w.plan) (System.LeavesDrained w.plan) (System.start w.plan false dm)
        System.pushedInTime ∧
      s.control.caller = [] ∧ ⟨"TcpServer1", "a", true⟩ ∈ s.accepted ∧
      s.files "Out1" = [⟨"TcpServer1", "a", true⟩] := by
    rw [hdm', hplan]
    exact ⟨_, rfl, by decide, by decide, rfl, by decide, rfl⟩
  exact ⟨w, dm, s, hparse, hdm, by rw [World.consumers, hout]; rfl, hown, h⟩

variable {env : Env} {tree : PTree} {w : World} {dm : DataManager Msg} {uninitialised : Bool}

/-- Where the check passes every text was accepted: in any state of a run of an accepted topology
whose consumers have their own files, if the check passes then for every consumer each text that
was sent occurs in a message that `push` accepted and that a consumer with the same digit has
written. -/
theorem check_sound (hparse : parseConf env (some tree) World.fresh = some (true, w))
    (hdm : w.data = some dm)
    (hown : ∀ n ∈ w.nodes "out", n.type = .CONSUMER → System.OwnFile w dm n)
    {acts : List System.Act} {s : System}
    (hrun : run (System.step w.plan) (System.start w.plan uninitialised dm) acts = some s)
    {disk : String → Option (List Char)} (hdisk : OnDisk w s disk) {t t' : TestTool}
    (hfresh : ∀ id, t.rxData id = [])
    (htx : ∀ client, ∀ j ∈ t.txData client, '\n' ∉ j.toList)
    (hpass : t.check tree disk = some (true, t')) :
    ∀ i ∈ w.consumers, ∀ client, ∀ j ∈ t.txData client,
      ∃ k ∈ w.consumers, consumerId k = consumerId i ∧
        ∃ m ∈ s.files k, m ∈ s.accepted ∧ j.toList <:+: m.text.toList := by
  intro i hi client j hj
  rw [check_of_accepted hparse] at hpass
  have hids := isSome_of_checkNames hpass
  obtain ⟨b, t'', hcheck, hiff⟩ := checkNames_iff hids hdisk (hasRead_nil hfresh) htx
  obtain ⟨rfl, _⟩ := Prod.mk.inj (Option.some.inj (hcheck.symm.trans hpass))
  obtain ⟨passed, rest, hnames⟩ := List.append_of_mem hi
  obtain ⟨id, hid⟩ := Option.isSome_iff_exists.mp (hids i hi)
  obtain ⟨k, hk, hkid, text, htext, hinfix⟩ := hiff.mp rfl passed i rest hnames id hid client j hj
  have hkmem : k ∈ w.consumers := by
    rw [hnames, ← List.singleton_append, ← List.append_assoc]
    exact List.mem_append_left _ hk
  obtain ⟨m, hm, rfl⟩ := List.mem_map.mp htext
  refine ⟨k, hkmem, hkid.trans hid.symm, m, hm, ?_, hinfix⟩
  obtain ⟨n, hn, hc, rfl⟩ := System.mem_consumers.mp hkmem
  have hfile := (hown n hn hc).filter_accepted (System.registered_data hparse hdm) hrun m.feeder
  have := hfile.subset (List.mem_filter.mpr ⟨hm, decide_eq_true rfl⟩)
  exact (List.mem_filter.mp this).1

/-- The only message that was accepted. -/
theorem check_sound_one_message :
    ∃ (w : World) (s : System),
      parseConf .plain (some (oneToOne "CONSUMER")) World.fresh = some (true, w) ∧
      ∃ k ∈ w.consumers, consumerId k = consumerId "Out1" ∧
        ∃ m ∈ s.files k, m ∈ s.accepted ∧ ['a'] <:+: m.text.toList := by
  obtain ⟨w, dm, s, hparse, hdm, hout, hown, hrun, -, -, -, -, hfile⟩ := oneToOne_stopped
  have hdisk : OnDisk w s fun _ => some ['a', '\n'] := by
    rw [OnDisk, hout]
    intro i hi
    obtain rfl := List.mem_singleton.mp hi
    rw [texts, hfile]
    rfl
  exact ⟨w, s, hparse, check_sound hparse hdm hown hrun hdisk (t := sentOnce) (fun _ => rfl)
    sentOnce_clean rfl "Out1" (hout ▸ List.mem_singleton_self _) 0 "a" (by decide)⟩

/-- A run that `stop()` ends well leaves what was early in the file of every consumer. -/
theorem mem_files_of_delivered (hparse : parseConf env (some tree) World.fresh = some (true, w))
    (hdm : w.data = some dm) {n : ProxyNode} (hown : System.OwnFile w dm n)
    {acts : List System.Act} {s : System}
    (hrun : run (System.step w.plan) (System.start w.plan uninitialised dm) acts = some s)
    (hopened : Meets (System.step w.plan) (System.StopsOpened w.plan)
      (System.start w.plan uninitialised dm) acts)
    (hleaves : Meets (System.step w.plan) (System.LeavesDrained w.plan)
      (System.start w.plan uninitialised dm) acts)
    (hdone : s.control.caller = []) {m : Msg} (hm : m ∈ s.accepted) (hearly : m.early = true) :
    m ∈ s.files n.name := by
  obtain ⟨k, hk⟩ := List.mem_iff_getElem?.mp hown.node
  obtain ⟨j, hj⟩ := Slots.exists_lookup_of_mem hown.queue
  have hname : w.plan.name (.nodeRun .output k) = n.name := by
    have hk' : (w.plan.nodes .output)[k]? = some n := hk
    simp only [Plan.name, hk', Option.map_some, Option.getD_some]
  have hjobs : Job.nodeRun .output k ∈ w.plan.jobs .output :=
    List.mem_map.mpr ⟨k, List.mem_range.mpr (List.getElem?_eq_some_iff.mp hk).1, rfl⟩
  have hA : System.Alone w.plan (.nodeRun .output k) :=
    System.alone_of_count hk hown.consumer hown.alone
  have hI := run_invariant_of_meets (I := System.Inv w.plan dm (.nodeRun .output k) j)
    (C := fun s a => System.StopsOpened w.plan s a ∧ System.LeavesDrained w.plan s a)
    (fun s a s' hI hC h => hI.step (System.registered_data hparse hdm) (hname ▸ hj) hA hjobs
      (System.step_cases h) hC.1 hC.2)
    (System.inv_start uninitialised dm k j)
    (fun before a after u he hu => ⟨hopened before a after u he hu, hleaves before a after u he hu⟩)
    hrun
  have hcount : (s.files n.name).count m = s.accepted.count m :=
    hname ▸ hI.delivered hdone m hm hearly
  exact List.count_pos_iff.mp (hcount ▸ List.count_pos_iff.mpr hm)

/-- A run that `stop()` ends well passes: if each text that was sent occurs in a message that
`push` accepted before, then the check reads all files and returns `true`. -/
theorem check_passes (hparse : parseConf env (some tree) World.fresh = some (true, w))
    (hdm : w.data = some dm)
    (hown : ∀ n ∈ w.nodes "out", n.type = .CONSUMER → System.OwnFile w dm n)
    {acts : List System.Act} {s : System}
    (hrun : run (System.step w.plan) (System.start w.plan uninitialised dm) acts = some s)
    (hopened : Meets (System.step w.plan) (System.StopsOpened w.plan)
      (System.start w.plan uninitialised dm) acts)
    (hleaves : Meets (System.step w.plan) (System.LeavesDrained w.plan)
      (System.start w.plan uninitialised dm) acts)
    (hdone : s.control.caller = []) {disk : String → Option (List Char)} (hdisk : OnDisk w s disk)
    (hids : ∀ i ∈ w.consumers, (consumerId i).isSome = true) {t : TestTool}
    (hfresh : ∀ id, t.rxData id = [])
    (htx : ∀ client, ∀ j ∈ t.txData client, '\n' ∉ j.toList)
    (hsent : ∀ client, ∀ j ∈ t.txData client,
      ∃ m ∈ s.accepted, m.early = true ∧ j.toList <:+: m.text.toList) :
    ∃ t', t.check tree disk = some (true, t') := by
  obtain ⟨b, t', hcheck, hiff⟩ := checkNames_iff hids hdisk (hasRead_nil hfresh) htx
  refine ⟨t', ?_⟩
  rw [check_of_accepted hparse, hcheck, hiff.mpr]
  intro passed i rest hnames id hid client j hj
  have hi : i ∈ w.consumers := hnames ▸ List.mem_append_right _ List.mem_cons_self
  obtain ⟨n, hn, hc, rfl⟩ := System.mem_consumers.mp hi
  obtain ⟨m, hm, hearly, hinfix⟩ := hsent client j hj
  refine ⟨n.name, List.mem_append_right _ (List.mem_singleton_self _), hid, m.text, ?_, hinfix⟩
  exact List.mem_map_of_mem (mem_files_of_delivered hparse hdm (hown n hn hc) hrun hopened hleaves
    hdone hm hearly)

/-- What was sent was accepted in time. -/
theorem check_passes_in_time :
    ∃ (s : System) (t' : TestTool),
      sentOnce.check (oneToOne "CONSUMER") (fun i => some (fileText (texts s i))) =
        some (true, t') := by
  obtain ⟨w, dm, s, hparse, hdm, hout, hown, hrun, hopened, hleaves, hdone, hm, -⟩ :=
    oneToOne_stopped
  refine ⟨s, check_passes hparse hdm hown hrun hopened hleaves hdone (fun _ _ => rfl)
    (by rw [hout]; decide) (fun _ => rfl) sentOnce_clean ?_⟩
  have hone : ∀ client, ∀ j ∈ sentOnce.txData client, j = "a" := by decide
  intro client j hj
  obtain rfl := hone client j hj
  exact ⟨_, hm, rfl, List.infix_refl _⟩

end TestTool

end DataPipeline
