import DataPipeline.Topology.Lifetime
import Mathlib.Algebra.Group.Int.Defs

/-!
# Whether a topology is built as it says

`get<int>` yields what an `int` can hold. A port is then cast to `uint16_t`, and the number
of threads becomes the `uint32_t` of the pool's constructor, which the compiler converts
silently. A number of threads that `get_optional<int>` cannot read is taken to be missing.
So an accepted topology has the nodes it lists, but the ports and the size of the pool are
those it asks for only if they survive these conversions. `parseConf` does not ask that.
-/

namespace DataPipeline

/-- `get<int>` reads the integer that a text denotes, if an `int` can hold it. -/
def Env.ReadsInt (env : Env) (number : String → Option Int) : Prop :=
  ∀ text, env.toInt text = (number text).filter fun n => decide (-2 ^ 31 ≤ n ∧ n < 2 ^ 31)

/-- The integer of an entry's port. -/
def portOf (number : String → Option Int) (entry : PTree) : Option Int :=
  (entry.getOptional ["port"]).bind number

/-- The number of threads that a topology asks for, 1 if it does not say. -/
def threadsOf (number : String → Option Int) (tree : PTree) : Option Int :=
  (tree.getOptional ["dataManager", "threadCount"]).elim (some 1) number

/-- The node has the entry's type and name, and its port is the entry's integer. -/
def Matches (number : String → Option Int) (entry : PTree) (n : ProxyNode) : Prop :=
  Describes entry n ∧ portOf number entry = some (n.port.toNat : Int)

/-- One node for each entry, in the same order, and as many workers as asked for. -/
structure World.BuiltAs (number : String → Option Int) (tree : PTree) (w : World) : Prop where
  outNodes : List.Forall₂ (Matches number) (tree.entries "outProxy") (w.nodes "out")
  inNodes : List.Forall₂ (Matches number) (tree.entries "inProxy") (w.nodes "in")
  workers : ∃ count, w.framework.threadPool = some count ∧
    threadsOf number tree = some (count.toNat : Int)

/-- Every port fits `uint16_t`, and the number of threads is an integer that fits both the
`int` it is read into and the pool's `uint32_t`. -/
structure Representable (number : String → Option Int) (tree : PTree) : Prop where
  ports : ∀ entry ∈ tree.entries "outProxy" ++ tree.entries "inProxy",
    ∀ n ∈ portOf number entry, 0 ≤ n ∧ n < 2 ^ 16
  threads : ∃ n, threadsOf number tree = some n ∧ 0 ≤ n ∧ n < 2 ^ 31

/-! ### The conversions -/

theorem UInt16.toNat_ofInt_eq_iff (n : Int) :
    ((UInt16.ofInt n).toNat : Int) = n ↔ 0 ≤ n ∧ n < 2 ^ 16 := by
  rw [UInt16.ofInt, UInt16.toNat_ofNat']
  omega

theorem UInt32.toNat_ofInt_eq_iff (n : Int) :
    ((UInt32.ofInt n).toNat : Int) = n ↔ 0 ≤ n ∧ n < 2 ^ 32 := by
  rw [UInt32.ofInt, UInt32.toNat_ofNat']
  omega

section Built

variable {env : Env} {number : String → Option Int} {tree : PTree}

theorem Env.ReadsInt.eq_some_iff (hint : env.ReadsInt number) {text : String} {n : Int} :
    env.toInt text = some n ↔ number text = some n ∧ -2 ^ 31 ≤ n ∧ n < 2 ^ 31 := by
  rw [hint text, Option.filter_eq_some_iff, decide_eq_true_eq]

/-! ### Nodes -/

/-- A node that was built from an entry matches it exactly if the port fits. -/
theorem BuiltFrom.matches_iff (hint : env.ReadsInt number) {entry : PTree} {n : ProxyNode}
    (h : BuiltFrom env entry n) :
    Matches number entry n ↔ ∀ p ∈ portOf number entry, 0 ≤ p ∧ p < 2 ^ 16 := by
  obtain ⟨hdesc, hport⟩ := h
  obtain ⟨p, hp, hn⟩ := Option.map_eq_some_iff.mp hport
  obtain ⟨text, htext, hp⟩ := Option.bind_eq_some_iff.mp hp
  have hof : portOf number entry = some p := by
    rw [portOf, htext, Option.bind_some]
    exact (hint.eq_some_iff.mp hp).1
  rw [Matches, hof, ← hn, and_iff_right hdesc, Option.some.injEq, eq_comm,
    UInt16.toNat_ofInt_eq_iff]
  simp

theorem forall₂_matches_iff (hint : env.ReadsInt number) {entries : List PTree}
    {nodes : List ProxyNode} (h : List.Forall₂ (BuiltFrom env) entries nodes) :
    List.Forall₂ (Matches number) entries nodes ↔
      ∀ entry ∈ entries, ∀ p ∈ portOf number entry, 0 ≤ p ∧ p < 2 ^ 16 := by
  induction h with
  | nil => simp
  | cons hb _ ih => rw [List.forall₂_cons, List.forall_mem_cons, hb.matches_iff hint, ih]

/-! ### Workers -/

theorem DataFramework.setProxy_threadPool (fw : DataFramework) (direction : String) (p : Proxy) :
    (fw.setProxy direction p).threadPool = fw.threadPool := by
  unfold setProxy
  split <;> rfl

theorem builds_keeps_threadPool (direction : String) :
    Builds (Keeps fun w => w.framework.threadPool) direction :=
  builds_keeps (fun _ _ => rfl) fun w p => w.framework.setProxy_threadPool direction p

/-- The pool of an accepted topology. -/
theorem parseConf_threadPool {w w' : World} (h : parseConf env (some tree) w = some (true, w')) :
    w'.framework.threadPool = some (UInt32.ofInt
      (((tree.getOptional ["dataManager", "threadCount"]).bind env.toInt).getD 1)) := by
  obtain ⟨u, v, z, hu, hv, hz, hw⟩ := parseConf_steps h
  have hpool := (builds_keeps_threadPool "in").instantiateProxy env tree z _ w' hw
  have hout := (builds_keeps_threadPool "out").instantiateProxy env tree v _ z hz
  have hkeeps : (instantiateDataManager tree).Within (Keeps fun w => w.framework.threadPool) :=
    instantiateDataManager_keeps (fun _ _ => rfl) (fun _ _ => rfl) (fun _ _ => rfl) tree
  have hdm := hkeeps u _ v hv
  refine (hpool.trans (hout.trans hdm)).trans ?_
  cases hu
  rfl

/-- The pool has the number of workers asked for exactly if that is an integer which fits. -/
theorem workers_iff (hint : env.ReadsInt number) :
    threadsOf number tree = some ((UInt32.ofInt (((tree.getOptional
        ["dataManager", "threadCount"]).bind env.toInt).getD 1)).toNat : Int) ↔
      ∃ n, threadsOf number tree = some n ∧ 0 ≤ n ∧ n < 2 ^ 31 := by
  unfold threadsOf
  cases tree.getOptional ["dataManager", "threadCount"] with
  | none => exact iff_of_true rfl ⟨1, rfl, by decide⟩
  | some text =>
    rw [Option.elim_some, Option.bind_some]
    cases hn : number text with
    | none => simp
    | some n =>
      by_cases hrange : -2 ^ 31 ≤ n ∧ n < 2 ^ 31
      · have hfits := UInt32.toNat_ofInt_eq_iff n
        rw [hint.eq_some_iff.mpr ⟨hn, hrange⟩, Option.getD_some, Option.some.injEq, eq_comm,
          hfits]
        simp only [Option.some.injEq, exists_eq_left']
        omega
      · -- an integer that no `int` holds is taken to be missing
        have hnone : env.toInt text = none := by
          rw [hint text, hn, Option.filter_some, if_neg (by simpa using hrange)]
        rw [hnone, Option.getD_none, Option.some.injEq]
        simp only [Option.some.injEq, exists_eq_left']
        have hone : ((UInt32.ofInt 1).toNat : Int) = 1 := rfl
        rw [hone]
        omega

/-- An accepted topology is built as it says exactly if its ports and its number of threads
are representable. -/
theorem parseConf_builds_iff (hint : env.ReadsInt number) {w w' : World}
    (h : parseConf env (some tree) w = some (true, w')) :
    w'.BuiltAs number tree ↔ Representable number tree := by
  have hpool := parseConf_threadPool h
  obtain ⟨u, v, z, hu, hv, hz, hw⟩ := parseConf_steps h
  obtain ⟨dm, hdm⟩ := instantiateProxy_manager (Or.inr rfl) hz
  obtain ⟨hout, hin, -⟩ := proxies_built hdm hz hw
  have hports := (forall₂_matches_iff hint hout).and (forall₂_matches_iff hint hin)
  constructor
  · rintro ⟨hmo, hmi, count, hcount, hthreads⟩
    obtain rfl := Option.some.inj (hpool.symm.trans hcount)
    exact ⟨List.forall_mem_append.mpr (hports.mp ⟨hmo, hmi⟩), (workers_iff hint).mp hthreads⟩
  · rintro ⟨hfit, hthreads⟩
    obtain ⟨hmo, hmi⟩ := hports.mpr (List.forall_mem_append.mp hfit)
    exact ⟨hmo, hmi, _, hpool, (workers_iff hint).mpr hthreads⟩

end Built

/-- Surroundings in which the sockets are free and `get<int>` reads what the texts denote. -/
def Env.reading (number : String → Option Int) : Env where
  toInt := fun text => (number text).filter fun n => decide (-2 ^ 31 ≤ n ∧ n < 2 ^ 31)
  socket := fun _ _ => .ok

/-- Two ports in decimal notation. -/
def decimalPort (text : String) : Option Int :=
  if text = "50000" then some 50000 else if text = "70000" then some 70000 else none

/-- A server and a consumer on a port, in these surroundings. -/
def parsePort (port : String) : Option (Bool × World) :=
  parseConf (.reading decimalPort) (some (Frameworks.serverAndConsumer "dm" port)) World.fresh

/-- A port that fits is the port of the nodes. -/
theorem parseConf_builds_fitting_port :
    ∃ w, parsePort "50000" = some (true, w) ∧
      w.BuiltAs decimalPort (Frameworks.serverAndConsumer "dm" "50000") := by
  have hparse : ∃ w, parsePort "50000" = some (true, w) := ⟨_, rfl⟩
  obtain ⟨w, h⟩ := hparse
  exact ⟨w, h, (parseConf_builds_iff (fun _ => rfl) h).mpr ⟨by decide, 1, rfl, by decide⟩⟩

/-- The port 70000 is accepted, and the server listens on 4464. -/
theorem wide_port_narrowed :
    (Env.reading decimalPort).ReadsInt decimalPort ∧
      ∃ w, parsePort "70000" = some (true, w) ∧
        w.nodes "in" = [⟨.TCPS, 4464, "TcpServer1"⟩] ∧
        ¬ w.BuiltAs decimalPort (Frameworks.serverAndConsumer "dm" "70000") := by
  refine ⟨fun _ => rfl, _, rfl, rfl, fun h => ?_⟩
  obtain ⟨hm, -⟩ := List.forall₂_cons.mp h.inNodes
  exact absurd hm.2 (by decide)

end DataPipeline
