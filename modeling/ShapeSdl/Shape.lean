import ShapeSdl.Entries
import ShapeSdl.Json

/-!
# Shapes and the graph they form

A shape describes data: a scalar, a list, an object, and so on. Shapes refer to each other, and two
that look alike are still different types unless they are the same node, so they live in a graph.

* `Ref` : a reference to a node, or a missing one;
* `Shape` : what a node is; `Node` : a shape with the place in the schema it was read from;
* `Graph` : the nodes; `Graph.node?`, `Graph.shape?`, `Graph.add`, `Graph.setShape`;
* `Shape.subtype`, `Json.category` : the key of the scalar table for a scalar and for a constant;
* `Shape.string`, `Shape.uuid`, … : the usual shapes by name.
-/

namespace ShapeSdl

/-- The position of a node in its graph: its identity. -/
abbrev NodeId := Nat

/-- A reference to a node, or `none` where a node is missing. -/
abbrev Ref := Option NodeId

instance : LawfulBEq Ref := inferInstance

inductive WrapperKind where
  | optional
  | nullable
  /-- The value is always filled in, so the node stays non-null. -/
  | defaulted
deriving DecidableEq

/-- Whether a wrapper of this kind admits null. -/
def WrapperKind.isNullable : WrapperKind → Bool
  | optional | nullable => true
  | defaulted => false

inductive Shape where
  /-- A string, number or boolean, refined by named checks. -/
  | scalar (base : String) (checks : List String)
  | wrapper (kind : WrapperKind) (inner : Ref) (value : Json)
  | list (element : Ref)
  /-- A record; the order of its fields is the order of their declaration. -/
  | object (fields : Entries String Ref)
  | enumeration (values : List Json)
  /-- A single constant. -/
  | literal (value : Json)
  | union (variants : List Ref)
  /-- A shape of no particular kind. -/
  | bare
deriving DecidableEq

/-- A shape with the place it was read from and its extension entries. -/
structure Node where
  path : String
  metadata : List (String × Json)
  shape : Shape
deriving DecidableEq

/-! ## Kinds and scalar keys -/

namespace Shape

def kindName : Shape → String
  | scalar .. => "ScalarNode"
  | wrapper .. => "WrapperNode"
  | list _ => "ListNode"
  | object _ => "ObjectNode"
  | enumeration _ => "EnumNode"
  | literal _ => "LiteralNode"
  | union _ => "UnionNode"
  | bare => "SchemaNode"

def isObject : Shape → Bool
  | object _ => true
  | _ => false

def wholeCheck : String := "int"

/-- The checks that make a string a scalar of its own, the first that applies counting. -/
def stringChecks : List String := ["uuid", "datetime", "date"]

/-- The key of a refined scalar in the scalar table. -/
def subtype (base : String) (checks : List String) : String :=
  if base = "string" then (stringChecks.find? (· ∈ checks)).getD "string"
  else if base = "number" then if wholeCheck ∈ checks then "int" else "float"
  else base

/-! ## The usual shapes -/

def string : Shape := scalar "string" []
def uuid : Shape := scalar "string" ["uuid"]
def datetime : Shape := scalar "string" ["datetime"]
def date : Shape := scalar "string" ["date"]
def integer : Shape := scalar "number" [wholeCheck]
def number : Shape := scalar "number" []
def boolean : Shape := scalar "boolean" []
def array (element : NodeId) : Shape := list (some element)
def optional (inner : NodeId) : Shape := wrapper .optional (some inner) .null
def nullable (inner : NodeId) : Shape := wrapper .nullable (some inner) .null
def default (inner : NodeId) (value : Json) : Shape := wrapper .defaulted (some inner) value

end Shape

/-- The key of a constant in the scalar table, if constants of its kind have one. A fractional
number whose value is whole counts as whole. -/
def Json.category : Json → Option String
  | bool _ => some "boolean"
  | int _ => some "int"
  | float x => some (if x.isIntegral then "int" else "float")
  | str _ => some "string"
  | _ => none

/-! ## Graphs -/

/-- The nodes, each at its own position. -/
structure Graph where
  nodes : Array Node
deriving DecidableEq

namespace Graph

def empty : Graph := ⟨#[]⟩

instance : Inhabited Graph := ⟨empty⟩
instance : EmptyCollection Graph := ⟨empty⟩

def size (g : Graph) : Nat := g.nodes.size

def node? (g : Graph) : Ref → Option Node
  | some id => g.nodes[id]?
  | none => none

def shape? (g : Graph) (r : Ref) : Option Shape := (g.node? r).map Node.shape

def isObject (g : Graph) (r : Ref) : Bool := ((g.shape? r).map Shape.isObject).getD false

def kindName (g : Graph) (r : Ref) : String := ((g.shape? r).map Shape.kindName).getD "NoneType"

/-- The graph with one more node, at position `g.size`. -/
def add (g : Graph) (n : Node) : Graph := ⟨g.nodes.push n⟩

def setShape (g : Graph) (id : NodeId) (s : Shape) : Graph :=
  ⟨g.nodes.modify id fun n => { n with shape := s }⟩

@[simp] theorem node?_none (g : Graph) : g.node? none = none := rfl

@[simp] theorem size_add (g : Graph) (n : Node) : (g.add n).size = g.size + 1 :=
  Array.size_push n

theorem node?_add (g : Graph) (n : Node) (id : NodeId) :
    (g.add n).node? (some id) = if id = g.size then some n else g.node? (some id) :=
  Array.getElem?_push

@[simp] theorem size_setShape (g : Graph) (id : NodeId) (s : Shape) :
    (g.setShape id s).size = g.size := Array.size_modify

theorem node?_setShape_of_ne (g : Graph) {id j : NodeId} (s : Shape) (h : j ≠ id) :
    (g.setShape id s).node? (some j) = g.node? (some j) := by
  simp [node?, setShape, Array.getElem?_modify, h.symm]

theorem node?_setShape_self (g : Graph) (id : NodeId) (s : Shape) :
    (g.setShape id s).node? (some id) =
      (g.node? (some id)).map fun n => { n with shape := s } := by
  simp [node?, setShape, Array.getElem?_modify]

end Graph

end ShapeSdl
