import ShapeSdl.Fault
import ShapeSdl.Text.Split

/-!
# The form of a schema

* `Json.entries`, `Json.items`, `Json.schemas`, `Json.holds` : the entries, items and members of a
  value, where it has any;
* `Form`, `Json.form` : the keyword that decides how a schema is read, with its value. Of several
  keywords the first in the order of `Form` decides;
* `Json.metadata` : the extension entries of a schema;
* `Json.isPlainObject` : whether a definition is an object by its `type` or `properties` alone.
-/

namespace ShapeSdl

namespace Json

def entries : Json → Except Fault (List (String × Json))
  | obj es => .ok es
  | _ => .error (.misuse .notObject)

/-- The items of a list, the characters of a text, the keys of an object. -/
def items : Json → Except Fault (List Json)
  | arr xs => .ok xs
  | str s => .ok ((Text.characters s).map str)
  | obj es => .ok (es.map fun e => str e.1)
  | _ => .error (.misuse .notIterable)

/-- The items of a value that are to be read as schemas. Characters and keys are none. -/
def schemas : Json → Except Fault (List Json)
  | arr xs => .ok xs
  | str s => if s = "" then .ok [] else .error (.misuse .notObject)
  | obj es => if es.isEmpty then .ok [] else .error (.misuse .notObject)
  | _ => .error (.misuse .notIterable)

/-- Whether a name is an item of a list, a part of a text, or a key of an object. -/
def holds (name : String) : Json → Except Fault Bool
  | arr xs => .ok (decide (str name ∈ xs))
  | str s => .ok (Text.contains name s)
  | obj es => .ok (es.lookup name).isSome
  | _ => .error (.misuse .notContainer)

theorem sizeOf_schemas_le {v : Json} {xs : List Json} (h : v.schemas = .ok xs) :
    sizeOf xs ≤ sizeOf v := by
  cases v with
  | arr ys => cases h; simp only [arr.sizeOf_spec]; omega
  | str s =>
    simp only [schemas] at h
    split at h <;> cases h
    simp only [List.nil.sizeOf_spec, str.sizeOf_spec]; omega
  | obj es =>
    simp only [schemas] at h
    split at h <;> cases h
    simp only [List.nil.sizeOf_spec, obj.sizeOf_spec]; omega
  | _ => cases h

theorem sizeOf_entries_lt {v : Json} {es : List (String × Json)} (h : v.entries = .ok es) :
    sizeOf es < sizeOf v := by
  cases v with
  | obj es => cases h; simp only [obj.sizeOf_spec]; omega
  | _ => cases h

end Json

/-! ## Forms -/

/-- The keyword that decides how a schema is read, with its value. -/
inductive Form where
  | reference (ref : Json)
  | constant (value : Json)
  | union (keyword : String) (variants : Json)
  /-- The fields of several objects together. -/
  | merge (parts : Json)
  | enumeration (values : Json)
  | typed (type : Json)
  | untyped
deriving DecidableEq

namespace Json

def form (schema : Json) : Form :=
  match schema.get? "$ref" with
  | some v => .reference v
  | none => match schema.get? "const" with
    | some v => .constant v
    | none => match schema.get? "oneOf" with
      | some v => .union "oneOf" v
      | none => match schema.get? "anyOf" with
        | some v => .union "anyOf" v
        | none => match schema.get? "allOf" with
          | some v => .merge v
          | none => match schema.get? "enum" with
            | some v => .enumeration v
            | none => match schema.get? "type" with
              | some v => .typed v
              | none => .untyped

theorem sizeOf_lt_of_form_union {schema variants : Json} {keyword : String}
    (h : schema.form = .union keyword variants) : sizeOf variants < sizeOf schema := by
  unfold form at h
  repeat' split at h
  all_goals first
    | (cases h; exact sizeOf_lt_of_get? (by assumption))
    | cases h

theorem sizeOf_lt_of_form_merge {schema parts : Json} (h : schema.form = .merge parts) :
    sizeOf parts < sizeOf schema := by
  unfold form at h
  repeat' split at h
  all_goals first
    | (cases h; exact sizeOf_lt_of_get? (by assumption))
    | cases h

/-- The extension entries of a schema: those whose key begins with `x-`. -/
def metadata (entries : List (String × Json)) : List (String × Json) :=
  entries.filter fun e => Text.startsWith "x-" e.1

/-- Whether a definition is an object by its `type`, or without one by its `properties`. -/
def isPlainObject (schema : Json) : Except Fault Bool :=
  match schema with
  | null | bool _ | int _ | float _ => .error (.misuse .notContainer)
  | str _ | arr _ => .error (.misuse .notObject)
  | obj _ => match schema.form with
    | .typed type => .ok (decide (type = .str "object"))
    | .untyped => .ok (schema.get? "properties").isSome
    | _ => .ok false

end Json

end ShapeSdl
