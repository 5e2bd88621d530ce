import ShapeSdl.FieldType
import ShapeSdl.Text.Upper

/-!
# Declarations

* `Declaration` : a type with its fields, an enum with its values, or a union with its members;
* `Declaration.text` : its block, without an end of line;
* `Document.text` : the blocks of several declarations, with an empty line between two;
* `Context.declareFields`, `Context.enumValue`, `Context.unionMembers` : the fields of an object
  with their types, a value of an enum, the members of a union;
* `Context.declare` : the declaration of a node under a name. Objects, enums and unions of named
  objects can be declared.
-/

namespace ShapeSdl

inductive Declaration where
  | type (name : String) (fields : List (String × TypeExpr))
  | enumeration (name : String) (values : List String)
  | union (name : String) (members : List String)
deriving DecidableEq

namespace Declaration

def name : Declaration → String
  | type name _ | enumeration name _ | union name _ => name

/-- A block: a heading with an opening brace, indented lines, and a closing brace. -/
def block (heading : String) (lines : List String) : String :=
  heading ++ " \x7b\n" ++ String.join (lines.map fun line => "  " ++ line ++ "\n") ++ "\x7d"

def fieldLine (field : String × TypeExpr) : String := field.1 ++ ": " ++ field.2.text

def text : Declaration → String
  | type name fields => block ("type " ++ name) (fields.map fieldLine)
  | enumeration name values => block ("enum " ++ name) values
  | union name members => "union " ++ name ++ " = " ++ " | ".intercalate members

end Declaration

/-- Declarations in the order in which they are written. -/
abbrev Document := List Declaration

def Document.separator : String := "\n\n"

def Document.text (d : Document) : String :=
  Document.separator.intercalate (d.map Declaration.text)

/-! ## Declaring nodes -/

namespace Context

/-- The fields of an object with their types. What goes wrong is told with the field. -/
def declareFields (cx : Context) (name : String) (fields : List (String × Ref)) :
    Compiling (List (String × TypeExpr)) :=
  fields.mapM fun (field, r) => do
    let t ← Compiling.mapFault (·.inField field name) (cx.fieldType r)
    return (field, t)

def enumValue (cx : Context) (v : Json) : String :=
  if cx.options.preserveEnumCase.isTruthy then v.plain else Text.upper v.plain

/-- The names of the members of a union from position `index` on. -/
def unionMembers (cx : Context) (name : String) : Nat → List Ref → Except Fault (List String)
  | _, [] => .ok []
  | index, r :: rest =>
    match cx.registry.get? r, cx.graph.isObject r with
    | some member, true => do return member :: (← unionMembers cx name (index + 1) rest)
    | registered, _ =>
      .error (.structural (.badUnionMember name index registered.isSome (cx.graph.kindName r)))

def declare (cx : Context) (name : String) (r : Ref) : Compiling Declaration :=
  match cx.graph.shape? r with
  | some (.object fields) => return .type name (← cx.declareFields name fields.toList)
  | some (.enumeration values) => return .enumeration name (values.map cx.enumValue)
  | some (.union variants) => do
    if variants.isEmpty then throw (.structural (.unionWithoutMembers name))
    return .union name (← cx.unionMembers name 0 variants)
  | _ => throw (.structural (.notDeclarable name (cx.graph.kindName r)))

end Context

end ShapeSdl
