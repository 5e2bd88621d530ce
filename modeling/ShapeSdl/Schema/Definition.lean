import ShapeSdl.Schema.Subschema
import ShapeSdl.Text.Split

/-!
# Reading definitions

* `Reference.definitionName` : the name of the definition that a reference means;
* `readDefinition` : the node of a definition. It is read once and remembered. An object gets its
  node before its fields are read, so that it may refer to itself; any other definition that leads
  back to itself is an error.
-/

namespace ShapeSdl

open Reading (openObject closeObject remember)

/-- Definitions by name, as they are written. -/
abbrev Definitions := List (String × Json)

/-- The containers of definitions in a reference. -/
def Reference.containers : List String := ["definitions", "$defs"]

/-- The name that a reference means: the part after a container in second place, else the last. -/
def Reference.definitionName (ref : String) : String :=
  match Text.split '/' ref with
  | parts@(_ :: container :: name :: _) =>
    if container ∈ containers then name else parts.getLastD ""
  | parts => parts.getLastD ""

def Definitions.path (name : String) : String := "#/$defs/" ++ name

/-- The node that a reference means, `read` reading the definition of a name. -/
def followReference (definitions : Definitions) (read : String → Reading NodeId) (ref : Json)
    (path : String) : Reading NodeId :=
  match ref with
  | .str text =>
    if Text.startsWith "#" text then
      let name := Reference.definitionName text
      match definitions.lookup name with
      | some _ => read name
      | none => throw (.structural (.unresolvedReference text path))
    else throw (.structural (.externalReference text path))
  | _ => throw (.misuse .notText)

def Definitions.without (definitions : Definitions) (name : String) : Definitions :=
  definitions.filter fun d => d.1 ≠ name

theorem Definitions.length_without_lt {definitions : Definitions} {name : String} {body : Json}
    (h : definitions.lookup name = some body) :
    (definitions.without name).length < definitions.length := by
  induction definitions with
  | nil => cases h
  | cons d rest ih =>
    obtain ⟨k, v⟩ := d
    by_cases hk : name = k
    · have := List.length_filter_le (fun d : String × Json => decide (d.1 ≠ name)) rest
      simp only [without, List.filter_cons, hk, ne_eq, not_true_eq_false, decide_false,
        List.length_cons] at this ⊢
      exact Nat.lt_succ_of_le this
    · rw [Entries.lookup_cons_ite, if_neg hk] at h
      have hk' : k ≠ name := fun e => hk e.symm
      have := ih h
      simp only [without, List.filter_cons, hk', ne_eq, not_false_eq_true, decide_true, if_true,
        List.length_cons] at this ⊢
      omega

/-- The node of a definition. `free` are the definitions that are not being read already. -/
def readDefinition (definitions free : Definitions) (name : String) : Reading NodeId := do
  match (← get).known.get? name with
  | some id => return id
  | none =>
    match _h : free.lookup name with
    | none => throw (.structural (.cyclicDefinition name))
    | some body =>
      let follow := followReference definitions (readDefinition definitions (free.without name))
      let path := Definitions.path name
      Reading.enter name
      if ← body.isPlainObject then
        let id ← openObject name path (Json.metadata (← body.entries))
        let fields ← readFields follow body path
        closeObject id fields
        return id
      else
        let id ← readSchema follow body path
        remember name id
        return id
termination_by free.length
decreasing_by exact Definitions.length_without_lt _h

end ShapeSdl
