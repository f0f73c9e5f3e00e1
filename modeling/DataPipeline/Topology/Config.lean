import DataPipeline.Manager.State
import DataPipeline.Topology.Tree

/-!
# From a topology to a framework

`DataFramework::parseConf` with everything it calls: the thread pool, the singleton data
manager, the two proxies and the constructors of their nodes. A throw keeps the state
that was reached, as in the source. Outside the repository are the JSON reader, the text
to `int` conversion and the outcome of the socket calls, which come as parameters.
Dereferencing a pointer that is not to a live manager is undefined behaviour, `none`.
-/

namespace DataPipeline

/-- `Proxy::ProxyType`. -/
inductive ProxyType where
  | TCPS
  | TCPC
  | UDPRX
  | UDPTX
  | CONSUMER
  | CUSTOM
  | UNKNOWN
  deriving DecidableEq, Repr

/-- What the repository's code and the property tree throw. All of it is caught by
`parseConf` as `std::exception`. -/
inductive Thrown where
  | runtimeError (what : String)
  | invalidArgument (what : String)
  | jsonParserError
  | ptreeBadPath (path : String)
  | ptreeBadData (path : String)
  deriving DecidableEq, Repr

/-- How the system calls of one node constructor end, with `strerror(errno)`. -/
inductive SocketOutcome where
  | ok
  | socketFails (error : String)
  | bindFails (error : String)
  deriving DecidableEq, Repr

/-- What `parseConf` finds outside the repository. -/
structure Env where
  /-- The conversion behind `get<int>`. -/
  toInt : String → Option Int
  /-- The socket of entry `i` of the proxy in a direction. -/
  socket : String → Nat → SocketOutcome

/-- A node of a proxy. -/
structure ProxyNode where
  type : ProxyType
  port : UInt16
  name : String
  deriving DecidableEq, Repr

/-- `Proxy`: its handler is the address of a manager. -/
structure Proxy where
  dataHandler : Option Nat
  proxyNodeList : List ProxyNode
  deriving DecidableEq, Repr

/-- Every manager ever created, at its address, `none` once deleted, and `m_Pinstance`. -/
structure Process where
  instances : List (Option (DataManager String))
  pinstance : Option Nat

/-- `DataFramework`. The pool is represented by its number of workers. -/
structure DataFramework where
  threadCount : Int
  threadPool : Option UInt32
  dataManagerConf : DataManagerConf
  dataManager : Option Nat
  inProxy : Option Proxy
  outProxy : Option Proxy

/-- The process together with the framework under construction. -/
structure World where
  process : Process
  framework : DataFramework

/-- Before the first framework of the process is configured. -/
def World.fresh : World where
  process := ⟨[], none⟩
  framework :=
    { threadCount := 0, threadPool := none, dataManagerConf := ⟨"", 0, 0, .BROADCAST⟩,
      dataManager := none, inProxy := none, outProxy := none }

/-- The manager of the framework. -/
def World.manager (w : World) : Option (DataManager String) :=
  w.framework.dataManager.bind fun a => w.process.instances[a]?.join

/-- The proxy of a direction. -/
def DataFramework.proxy (fw : DataFramework) (direction : String) : Option Proxy :=
  if direction = "in" then fw.inProxy else fw.outProxy

/-- The nodes of the proxy in a direction. -/
def World.nodes (w : World) (direction : String) : List ProxyNode :=
  ((w.framework.proxy direction).map Proxy.proxyNodeList).getD []

/-! ### State that survives a throw -/

/-- A computation that may throw, or be undefined. -/
def Conf (α : Type) : Type := World → Option (Except Thrown α × World)

namespace Conf

variable {α β : Type}

instance : Monad Conf where
  pure a := fun w => some (.ok a, w)
  bind x f := fun w => (x w).bind fun r =>
    match r with
    | (.ok a, w') => f a w'
    | (.error e, w') => some (.error e, w')

/-- Throw, keeping the state. -/
def throw (e : Thrown) : Conf α := fun w => some (.error e, w)

/-- Change the framework. -/
def modifyFramework (f : DataFramework → DataFramework) : Conf Unit :=
  fun w => some (.ok (), { w with framework := f w.framework })

/-- Read the framework. -/
def framework : Conf DataFramework := fun w => some (.ok w.framework, w)

/-- What is missing is thrown. -/
def ofOption (e : Thrown) : Option α → Conf α
  | some a => pure a
  | none => throw e

/-- What is thrown by a function that only computes. -/
def ofExcept (r : Except Thrown α) : Conf α := fun w => some (r, w)

/-- Work on the manager at an address. -/
def withManager (p : Option Nat)
    (f : DataManager String → Except Thrown α × DataManager String) : Conf α := fun w => do
  let a ← p
  let dm ← (← w.process.instances[a]?)
  let r := f dm
  some (r.1, { w with process :=
    { w.process with instances := w.process.instances.set a (some r.2) } })

/-- `if (!x) throw e`. -/
def orThrow (x : Conf Bool) (e : Thrown) : Conf Unit :=
  x >>= fun b => if b then pure () else throw e

theorem bind_eq_ok {x : Conf α} {f : α → Conf β} {w w' : World} {b : β}
    (h : (x >>= f) w = some (.ok b, w')) :
    ∃ a u, x w = some (.ok a, u) ∧ f a u = some (.ok b, w') := by
  obtain ⟨⟨r, u⟩, hx, hr⟩ := Option.bind_eq_some_iff.mp h
  cases r with
  | ok a => exact ⟨a, u, hx, hr⟩
  | error e => cases hr

theorem pure_eq_ok {a b : α} {w w' : World} (h : (pure a : Conf α) w = some (.ok b, w')) :
    a = b ∧ w = w' := by
  cases h
  exact ⟨rfl, rfl⟩

theorem ofOption_eq_ok {e : Thrown} {o : Option α} {a : α} {w w' : World}
    (h : ofOption e o w = some (.ok a, w')) : o = some a ∧ w = w' := by
  cases o with
  | none => cases h
  | some b =>
    obtain ⟨rfl, rfl⟩ := pure_eq_ok h
    exact ⟨rfl, rfl⟩

theorem ofExcept_eq_ok {r : Except Thrown α} {a : α} {w w' : World}
    (h : ofExcept r w = some (.ok a, w')) : r = .ok a ∧ w = w' := by
  cases h
  exact ⟨rfl, rfl⟩

theorem modifyFramework_eq_ok {f : DataFramework → DataFramework} {u : Unit} {w w' : World}
    (h : modifyFramework f w = some (.ok u, w')) :
    w'.process = w.process ∧ w'.framework = f w.framework := by
  cases h
  exact ⟨rfl, rfl⟩

theorem orThrow_eq_ok {x : Conf Bool} {e : Thrown} {u : Unit} {w w' : World}
    (h : orThrow x e w = some (.ok u, w')) : x w = some (.ok true, w') := by
  obtain ⟨b, v, hx, hv⟩ := bind_eq_ok h
  cases b with
  | false => cases hv
  | true =>
    obtain ⟨-, rfl⟩ := pure_eq_ok hv
    exact hx

/-- Work on the manager of the framework. -/
theorem withManager_eq_ok {f : DataManager String → Except Thrown α × DataManager String} {a : α}
    {w w' : World} {dm : DataManager String} (hdm : w.manager = some dm)
    (h : withManager w.framework.dataManager f w = some (.ok a, w')) :
    (f dm).1 = .ok a ∧ w'.manager = some (f dm).2 ∧ w'.framework = w.framework := by
  obtain ⟨p, hp, hj⟩ := Option.bind_eq_some_iff.mp hdm
  have hi : w.process.instances[p]? = some (some dm) := Option.join_eq_some_iff.mp hj
  have hlt : p < w.process.instances.length := (List.getElem?_eq_some_iff.mp hi).1
  simp only [withManager, hp, hi, Option.bind_eq_bind, Option.bind_some, Option.some.injEq,
    Prod.mk.injEq] at h
  obtain ⟨hr, rfl⟩ := h
  refine ⟨hr, ?_, rfl⟩
  rw [World.manager, hp, Option.bind_some, List.getElem?_set_self hlt, Option.join_some]

end Conf

/-! ### The node constructors -/

/-- `TcpServer::createListenSocket`. -/
def createListenSocket : SocketOutcome → Except Thrown Unit
  | .ok => .ok ()
  | .socketFails error => .error (.runtimeError error)
  | .bindFails error => .error (.runtimeError ("Cannot bind to asked port " ++ error))

/-- `UdpServer::createRxSocket`. -/
def createRxSocket : SocketOutcome → Except Thrown Unit
  | .ok => .ok ()
  | .socketFails error => .error (.runtimeError error)
  | .bindFails error => .error (.runtimeError ("Cannot bind to asked port " ++ error))

/-- `UdpClient::createTxSocket`, which does not bind. -/
def createTxSocket : SocketOutcome → Except Thrown Unit
  | .socketFails error => .error (.runtimeError error)
  | _ => .ok ()

/-- `TcpServer::TcpServer`: registered first, then the socket. -/
def tcpServer (name : String) (o : SocketOutcome) (dataHandler : DataManager String) :
    Except Thrown Unit × DataManager String :=
  (createListenSocket o, (dataHandler.setFeeder name).1)

/-- `UdpServer::UdpServer`: registered first, then the socket. -/
def udpServer (name : String) (o : SocketOutcome) (dataHandler : DataManager String) :
    Except Thrown Unit × DataManager String :=
  (createRxSocket o, (dataHandler.setFeeder name).1)

/-- `UdpClient::UdpClient`: only the socket. -/
def udpClient (o : SocketOutcome) (dataHandler : DataManager String) :
    Except Thrown Unit × DataManager String :=
  (createTxSocket o, dataHandler)

/-- `Consumer::Consumer`. -/
def consumer (name : String) (dataHandler : DataManager String) :
    Except Thrown Unit × DataManager String :=
  (.ok (), (dataHandler.setConsumer name).1)

/-- The `switch` of `Proxy::addNode`. -/
def constructNode (type : ProxyType) (name : String) (o : SocketOutcome)
    (dataHandler : DataManager String) : Except Thrown Unit × DataManager String :=
  match type with
  | .TCPS => tcpServer name o dataHandler
  | .UDPRX => udpServer name o dataHandler
  | .UDPTX => udpClient o dataHandler
  | .CONSUMER => consumer name dataHandler
  | _ => (.error (.runtimeError "Unknown type of node"), dataHandler)

/-- `Proxy::getProxyType`. -/
def getProxyType (type : String) : Except Thrown ProxyType :=
  if type = "TCP_Server" then .ok .TCPS
  else if type = "UDP_Rx" then .ok .UDPRX
  else if type = "UDP_Tx" then .ok .UDPTX
  else if type = "CUSTOM" then .ok .CUSTOM
  else if type = "CONSUMER" then .ok .CONSUMER
  else .error (.runtimeError ("Unknown type of proxy, " ++ type))

/-! ### The parts of `parseConf` -/

/-- Replace the proxy of a direction. -/
def DataFramework.setProxy (fw : DataFramework) (direction : String) (p : Proxy) : DataFramework :=
  if direction = "in" then { fw with inProxy := some p } else { fw with outProxy := some p }

/-- `Proxy::addNode` on the proxy of a direction. A null proxy is undefined behaviour. -/
def addNode (direction : String) (type : ProxyType) (port : UInt16) (name : String)
    (o : SocketOutcome) : Conf Bool := do
  let fw ← Conf.framework
  match fw.proxy direction with
  | none => fun _ => none
  | some p =>
    Conf.withManager p.dataHandler (constructNode type name o)
    Conf.modifyFramework fun fw => fw.setProxy direction
      { p with proxyNodeList := p.proxyNodeList ++ [⟨type, port, name⟩] }
    return true

/-- The loop of `instantiateProxy` over the entries, from entry `i` on. -/
def addEntries (env : Env) (direction : String) : List PTree → Nat → Conf Bool
  | [], _ => return true
  | entry :: rest, i => do
    let typeName ← Conf.ofOption (.ptreeBadPath "type") (entry.getOptional ["type"])
    let type ← Conf.ofExcept (getProxyType typeName)
    let name ← Conf.ofOption (.ptreeBadPath "name") (entry.getOptional ["name"])
    let portText ← Conf.ofOption (.ptreeBadPath "port") (entry.getOptional ["port"])
    let port ← Conf.ofOption (.ptreeBadData "port") (env.toInt portText)
    let added ← addNode direction type (UInt16.ofInt port) name (env.socket direction i)
    let ret ← addEntries env direction rest (i + 1)
    return added && ret

/-- `DataFramework::instantiateProxy`. -/
def instantiateProxy (env : Env) (tree : PTree) (direction : String) : Conf Bool :=
  if direction ≠ "in" ∧ direction ≠ "out" then return false
  else do
    let fw ← Conf.framework
    let _dmname ← Conf.withManager fw.dataManager fun dm => (.ok dm.name, dm)
    match tree.getChildOptional [direction ++ "Proxy"] with
    | none => return false
    | some _ =>
      Conf.modifyFramework fun fw => fw.setProxy direction ⟨fw.dataManager, []⟩
      addEntries env direction (tree.entries (direction ++ "Proxy")) 0

/-- `STRING_TO_CONF`. -/
def stringToConf (input : String) : Except Thrown MODE :=
  let lower := String.ofList (input.toList.map Char.toLower)
  if lower = "broadcast" then .ok .BROADCAST
  else if lower = "map" then .ok .MAP
  else .error (.invalidArgument ("Invalid mode: " ++ lower))

/-- `DataFramework::setDataManagerConf`. -/
def setDataManagerConf (tree : PTree) : Conf Unit := do
  let name ← Conf.ofOption (.runtimeError "Specify dataManager.name parameter in topology file")
    (tree.getOptional ["dataManager", "name"])
  let mode ← Conf.ofOption (.runtimeError "Specify dataManager.mode parameter in topology file")
    (tree.getOptional ["dataManager", "mode"])
  Conf.modifyFramework fun fw =>
    { fw with dataManagerConf := { fw.dataManagerConf with name } }
  let mode ← Conf.ofExcept (stringToConf mode)
  Conf.modifyFramework fun fw =>
    { fw with dataManagerConf :=
      { fw.dataManagerConf with mode, maxFeeders := 8, maxConsumers := 8 } }

/-- `DataManager::getInstance`: the address of the only instance, created if need be. -/
def getInstance (conf : DataManagerConf) : Conf Nat := fun w =>
  match w.process.pinstance with
  | some p => some (.ok p, w)
  | none =>
    let p := w.process.instances.length
    some (.ok p, { w with process := ⟨w.process.instances ++ [some (.new conf)], some p⟩ })

/-- `DataFramework::instantiateDataManager`. -/
def instantiateDataManager (tree : PTree) : Conf Bool := do
  setDataManagerConf tree
  let fw ← Conf.framework
  let p ← getInstance fw.dataManagerConf
  Conf.modifyFramework fun fw => { fw with dataManager := some p }
  return true

/-- `DataFramework::instantiateThreadPool`. The pool takes the count as `uint32_t`. -/
def instantiateThreadPool (env : Env) (tree : PTree) : Conf Bool := do
  let threadCount :=
    ((tree.getOptional ["dataManager", "threadCount"]).bind env.toInt).getD 1
  Conf.modifyFramework fun fw =>
    { fw with threadCount, threadPool := some (UInt32.ofInt threadCount) }
  return true

/-- The body of the `try` of `parseConf`; `json` is what the reader makes of the file. -/
def parseConfBody (env : Env) (json : Option PTree) : Conf Unit := do
  let tree ← Conf.ofOption .jsonParserError json
  let _ ← instantiateThreadPool env tree
  (instantiateDataManager tree).orThrow (.runtimeError "No Data Manager instantiated!")
  (instantiateProxy env tree "out").orThrow (.runtimeError "No Output Proxy instantiated!")
  (instantiateProxy env tree "in").orThrow (.runtimeError "No Input Proxy instantiated!")

/-- `DataFramework::parseConf`. -/
def parseConf (env : Env) (json : Option PTree) (w : World) : Option (Bool × World) :=
  (parseConfBody env json w).map fun r =>
    match r with
    | (.ok _, w') => (true, w')
    | (.error _, w') => (false, w')

end DataPipeline
