import ShapeSdl.Schema.Form
import ShapeSdl.Schema.Session

/-!
# Reading schemas

* `readSchema` : the node of a schema at a path, read by the schema's form;
* `readFields`, `readProperties` : the fields of an object. A field is optional unless it has a
  default or is required;
* `readVariants` : the variants of a union, of which a null one only makes it nullable;
* `readParts` : the fields of the parts of a merged object, a later part overriding an earlier one;
* `readType` : what a type or a list of types says.

References are left to a function, so that the recursion is on the schema alone.
-/

namespace ShapeSdl

open Reading

/-! ## Types -/

/-- How the kinds of types are read at a path. -/
structure TypeReader where
  array : String → Reading NodeId
  object : String → Reading NodeId
  scalar : Json → String → Reading NodeId

/-- The checks that a `format` puts on a string. Formats not known put none. -/
def formatChecks : Json → Except Fault (List String)
  | .str "uuid" => .ok ["uuid"]
  | .str "date-time" => .ok ["datetime"]
  | .str "date" => .ok ["date"]
  | .arr _ | .obj _ => .error (.misuse .badKey)
  | _ => .ok []

/-- The scalar of a type name, with the `format` that stands beside it. -/
def readScalar (format : Json) (metadata : List (String × Json)) (type : Json) (path : String) :
    Reading NodeId :=
  match type with
  | .str "string" => do addNode path metadata (.scalar "string" (← formatChecks format))
  | .str "integer" => addNode path metadata .integer
  | .str "number" => addNode path metadata .number
  | .str "boolean" => addNode path metadata .boolean
  | _ => throw (.structural (.unsupportedType type path))

/-- What stands for null in a list of types. -/
def nullType : Json := .str "null"

mutual

/-- The node of a type, or of a list of types, at a path. -/
def readType (reader : TypeReader) (metadata : List (String × Json)) (path : String) :
    Json → Reading NodeId
  | .arr types => do
    if types.all (· = nullType) then throw (.structural (.nullOnlyType path))
    let ids ← readTypes reader metadata path types
    nullableIf (decide (nullType ∈ types)) path (← unionOf path metadata ids)
  | .str "array" => reader.array path
  | .str "object" => reader.object path
  | type => reader.scalar type path

/-- The nodes of a list of types; null has none. -/
def readTypes (reader : TypeReader) (metadata : List (String × Json)) (path : String) :
    List Json → Reading (List NodeId)
  | [] => pure []
  | type :: rest => do
    if type = nullType then readTypes reader metadata path rest
    else
      let id ← readType reader metadata (path ++ "/type/" ++ type.plain) type
      return id :: (← readTypes reader metadata path rest)

end

/-! ## Enums -/

/-- The constants of the values from position `index` on; null has none. -/
def readConstants (path : String) : Nat → List Json → Reading (List NodeId)
  | _, [] => pure []
  | index, .null :: rest => readConstants path (index + 1) rest
  | index, v :: rest => do
    let id ← addNode (path ++ "/enum/" ++ toString index) [] (.literal v)
    return id :: (← readConstants path (index + 1) rest)

def Json.isText : Json → Bool
  | .str _ => true
  | _ => false

/-- An enum of texts, or a union of constants where a value is none. -/
def readEnumeration (metadata : List (String × Json)) (path : String) (values : Json) :
    Reading NodeId := do
  let values ← values.items
  if values.all Json.isText then addNode path metadata (.enumeration values)
  else
    let ids ← readConstants path 0 values
    let id ← addNode path metadata (.union (ids.map some))
    nullableIf (decide (Json.null ∈ values)) path id

/-! ## Schemas -/

mutual

def readSchema (follow : Json → String → Reading NodeId) (schema : Json) (path : String) :
    Reading NodeId := do
  let metadata := Json.metadata (← schema.entries)
  match _h : schema.form with
  | .reference ref => follow ref path
  | .constant value => addNode path metadata (.literal value)
  | .union keyword variants =>
    match _hv : variants.schemas with
    | .error e => throw e
    | .ok variants =>
      let (ids, nullable) ← readVariants follow (path ++ "/" ++ keyword ++ "/") 0 variants
      nullableIf nullable path (← unionOf path metadata ids)
  | .merge parts =>
    match _hp : parts.schemas with
    | .error e => throw e
    | .ok parts =>
      let (fields, ids) ← readParts follow path 0 ∅ parts
      addMerged path metadata fields ids
  | .enumeration values => readEnumeration metadata path values
  | .typed type =>
    let reader : TypeReader := {
      array := fun path => do
        let element ← match _hi : schema.get? "items" with
          | none | some .null => addNode (path ++ "/items") [] (.object ∅)
          | some (.arr _) => throw (.structural (.tupleArray path))
          | some element => readSchema follow element (path ++ "/items")
        addNode path metadata (.array element)
      object := fun path => do
        let fields ← readFields follow schema path
        addNode path metadata (.object fields)
      scalar := readScalar ((schema.get? "format").getD (.str "")) metadata }
    readType reader metadata path type
  | .untyped => do
    let fields ← readFields follow schema path
    addNode path metadata (.object fields)
termination_by 2 * sizeOf schema + 1
decreasing_by
  · have := Json.sizeOf_lt_of_form_union _h
    have := Json.sizeOf_schemas_le _hv
    omega
  · have := Json.sizeOf_lt_of_form_merge _h
    have := Json.sizeOf_schemas_le _hp
    omega
  · have := Json.sizeOf_lt_of_get? _hi
    omega
  · omega
  · omega

def readFields (follow : Json → String → Reading NodeId) (schema : Json) (path : String) :
    Reading (Entries String Ref) := do
  let required := (schema.get? "required").getD (.arr [])
  match _h : schema.get? "properties" with
  | none => return ∅
  | some properties =>
    match _hp : properties.entries with
    | .error e => throw e
    | .ok properties =>
      return .ofList (← readProperties follow required (path ++ "/properties/") properties)
termination_by 2 * sizeOf schema
decreasing_by
  have := Json.sizeOf_lt_of_get? _h
  have := Json.sizeOf_entries_lt _hp
  omega

def readProperties (follow : Json → String → Reading NodeId) (required : Json) (base : String)
    (properties : List (String × Json)) : Reading (List (String × Ref)) := do
  match properties with
  | [] => return []
  | (name, schema) :: rest =>
    let path := base ++ name
    let id ← readSchema follow schema path
    let field ← match schema.get? "default" with
      | some value => addNode path [] (.default id value)
      | none => do
        if ← required.holds name then pure id else addNode path [] (.optional id)
    return (name, some field) :: (← readProperties follow required base rest)
termination_by 2 * sizeOf properties
decreasing_by all_goals simp only [List.cons.sizeOf_spec, Prod.mk.sizeOf_spec]; omega

/-- The variants of a union from position `index` on, and whether one of them is null. -/
def readVariants (follow : Json → String → Reading NodeId) (base : String) (index : Nat)
    (variants : List Json) : Reading (List NodeId × Bool) := do
  match variants with
  | [] => return ([], false)
  | variant :: rest =>
    let _ ← variant.entries
    if variant.get? "type" = some nullType then
      let (ids, _) ← readVariants follow base (index + 1) rest
      return (ids, true)
    else
      let id ← readSchema follow variant (base ++ toString index)
      let (ids, nullable) ← readVariants follow base (index + 1) rest
      return (id :: ids, nullable)
termination_by 2 * sizeOf variants
decreasing_by all_goals simp only [List.cons.sizeOf_spec]; omega

/-- The fields of the parts from position `index` on, written over those of the parts before, and
the nodes of these parts. -/
def readParts (follow : Json → String → Reading NodeId) (path : String) (index : Nat)
    (fields : Entries String Ref) (parts : List Json) :
    Reading (Entries String Ref × List NodeId) := do
  match parts with
  | [] => return (fields, [])
  | part :: rest =>
    let id ← readSchema follow part (path ++ "/allOf/" ++ toString index)
    let graph := (← get).graph
    match graph.shape? (some id) with
    | some (.object more) =>
      let (fields, ids) ← readParts follow path (index + 1) (fields.putAll more.toList) rest
      return (fields, id :: ids)
    | _ => throw (.structural (.partNotObject index path (graph.kindName (some id))))
termination_by 2 * sizeOf parts
decreasing_by all_goals simp only [List.cons.sizeOf_spec]; omega

end

end ShapeSdl
