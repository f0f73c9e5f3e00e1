import Mathlib.Data.List.Basic

/-!
# Property trees

What the topology file is read into: every node carries a text and its children in file
order, each under a key. A path is the list of its keys.
-/

namespace DataPipeline

/-- `boost::property_tree::ptree`. -/
inductive PTree where
  | node (data : String) (children : List (String × PTree))

namespace PTree

/-- The text of a node. -/
def data : PTree → String
  | .node d _ => d

/-- The children of a node with their keys. -/
def children : PTree → List (String × PTree)
  | .node _ c => c

/-- `get_child_optional`: the first child under each key of the path. -/
def getChildOptional (t : PTree) : List String → Option PTree
  | [] => some t
  | key :: path =>
    (t.children.find? fun c => c.1 == key).bind fun c => c.2.getChildOptional path

/-- `get_optional<std::string>`. -/
def getOptional (t : PTree) (path : List String) : Option String :=
  (t.getChildOptional path).map data

/-- The entries of a section of the topology, empty when the section is missing. -/
def entries (t : PTree) (section_ : String) : List PTree :=
  ((t.getChildOptional [section_]).map fun s => s.children.map Prod.snd).getD []

/-- The names that a section gives to its entries of the given types. -/
def named (t : PTree) (section_ : String) (types : List String) : List String :=
  (t.entries section_).filterMap fun e =>
    match e.getOptional ["type"] with
    | some type => if type ∈ types then e.getOptional ["name"] else none
    | none => none

end PTree

end DataPipeline
