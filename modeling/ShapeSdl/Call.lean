import ShapeSdl.Batch
import ShapeSdl.Quoted

/-!
# Compiling by positional arguments

* `Argument` : what can stand in a position, and `Argument.label` : how it reads as a name;
* `Batch.options` : a batch where options belong. Nodes are then the values of its options;
* `CallForm` : which arguments are meant: a name with a node, a batch, or either of the two;
* `compileCall` : the text of what the arguments ask for. Options come last and may be left out.
-/

namespace ShapeSdl

/-- What can stand in a position. -/
inductive Argument where
  | none
  | text (s : String)
  | node (id : NodeId)
  | batch (batch : Batch)
  | options (form : OptionsForm)

/-- Which arguments are meant. -/
inductive CallForm where
  | single
  | batch
  | either
deriving DecidableEq

/-- A node as the value of an option. It counts as set, as its text does, and a missing one is
null. -/
def Graph.optionValue (g : Graph) (r : Ref) : Json :=
  if r = none then .null else .str (g.quoted r)

def Batch.options (g : Graph) (batch : Batch) : Options :=
  let o := (batch.toList.map fun (k, r) => (k, g.optionValue r)).foldl Options.readEntry {}
  { o with seeds := if (batch.get? "types").join.isSome then .node else .none }

namespace Argument

def kindName (g : Graph) : Argument → String
  | none | options .absent => Json.null.kindName
  | text s => (Json.str s).kindName
  | node id => g.kindName (some id)
  | batch _ | options (.configuration ..) => (Json.obj []).kindName
  | options (.options _) => "CompileOptions"

/-- The node in a position, or `none` where a node is missing; nothing if something else is
there. -/
def ref? : Argument → Option Ref
  | none | options .absent => some Option.none
  | node id => some (some id)
  | _ => Option.none

def isNone (a : Argument) : Bool := a.ref? = some Option.none

def isNode (a : Argument) : Bool := (a.ref?.join).isSome

def toOptions (g : Graph) : Argument → Except Fault Options
  | none => .ok {}
  | batch b => .ok (b.options g)
  | options form => form.coerce
  | text _ | node _ => .error (.misuse .notObject)

/-- An argument as a name: a text is itself, anything else as it is in messages. -/
def label (g : Graph) : Argument → Except Fault String
  | none => .ok Json.null.plain
  | text s => .ok s
  | node id => .ok (g.quoted (some id))
  | batch b => .ok (quotedEntries (b.toList.map fun (k, r) => (Text.quoted k, g.quoted r)))
  | options form => form.quoted g

end Argument

def callSingle (g : Graph) (name schema options : Argument) : Compiling String := do
  let o ← options.toOptions g
  let name ← name.label g
  match schema.ref? with
  | some r => return (← compileSingle g o name r).text
  | none => do
    Compiling.emit (.single name (← o.registry).size)
    throw (.structural (.notDeclarable name (schema.kindName g)))

/-- Compiles a batch. Seed names in an object of values are one more value. -/
def callBatch (g : Graph) (schemas options : Argument) : Compiling String := do
  let o ← options.toOptions g
  match schemas with
  | .batch batch => return (← compileBatch g o batch).text
  | .options (.configuration (.obj entries) names) =>
    let values := entries ++ names.toList.map fun _ => ("types", Json.obj [])
    return (← compileValues o values).text
  | _ => do
    let _ ← o.registry
    throw (.misuse .notObject)

/-- Compiles one node under a name, or a batch, as the first argument says. -/
def callEither (g : Graph) (first second third : Argument) : Compiling String :=
  match first with
  | .text name =>
    if second.isNode then callSingle g first second third
    else throw (.misuse (.nodeExpected name (second.kindName g)))
  | _ =>
    if !third.isNone || second.isNode then throw (.misuse .optionsMisplaced)
    else callBatch g first second

def compileCall (g : Graph) : CallForm → List Argument → Compiling String
  | .single, [name, schema] => callSingle g name schema .none
  | .single, [name, schema, options] => callSingle g name schema options
  | .batch, [schemas] => callBatch g schemas .none
  | .batch, [schemas, options] => callBatch g schemas options
  | .either, [first] => callEither g first .none .none
  | .either, [first, second] => callEither g first second .none
  | .either, [first, second, third] => callEither g first second third
  | _, _ => throw (.misuse .argumentCount)

end ShapeSdl
