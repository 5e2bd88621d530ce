import ShapeSdl.Json

/-!
# What can go wrong

* `Cause` : why a shape cannot be expressed in SDL, with `Cause.message`;
* `Misuse` : which operation met a value of the wrong kind;
* `Fault` : a cause, a reference that strict mode refuses, or a misuse. Only the first two are
  errors of the library (`Fault.message?`).
-/

namespace ShapeSdl

/-- The greatest number of lists, and of wrappers in a row, around a shape. -/
def maxDepth : Nat := 64

/-- Why a shape cannot be expressed. Places are paths in the schema, empty if unknown. -/
inductive Cause where
  /-- A definition that is not an object refers to itself. -/
  | cyclicDefinition (name : String)
  | externalReference (ref path : String)
  | unresolvedReference (ref path : String)
  | partNotObject (index : Nat) (path kind : String)
  | nullOnlyType (path : String)
  | tupleArray (path : String)
  | unsupportedType (type : Json) (path : String)
  | wrapperCycle (path : String)
  | wrapperWithoutInner (path : String)
  | listCycle (path : String)
  | listTooDeep (path : String)
  | listWithoutElement (path : String)
  | unionWithoutVariants (path : String)
  | unregisteredObjectUnion (path : String)
  | mixedUnion (path : String)
  | notDeclarable (name kind : String)
  | unionWithoutMembers (name : String)
  | badUnionMember (name : String) (index : Nat) (isRegistered : Bool) (kind : String)
  | fieldTooDeep (field type : String)
  /-- What went wrong in a field of a declared object. -/
  | inField (field type : String) (cause : Cause)
deriving DecidableEq

/-- The place of a node in a message, with a blank after it; nothing if it is unknown. -/
def describePath (path : String) : String := if path = "" then "" else "at " ++ path ++ " "

def Cause.message : Cause → String
  | cyclicDefinition name =>
    "Cyclic schema: definition " ++ Text.quoted name ++ " refers to itself"
  | externalReference ref path =>
    "External $ref " ++ Text.quoted ref ++ " at " ++ path ++ " is not supported"
  | unresolvedReference ref path => "Unresolved $ref " ++ Text.quoted ref ++ " at " ++ path
  | partNotObject index path kind =>
    "allOf part " ++ toString index ++ " at " ++ path ++ " must be an object schema, got " ++ kind
  | nullOnlyType path => "Null-only type at " ++ path ++ " cannot be expressed in SDL"
  | tupleArray path => "Tuple arrays at " ++ path ++ " cannot be expressed in SDL"
  | unsupportedType type path =>
    "Unsupported JSON Schema type " ++ type.quoted ++ " at " ++ path
  | wrapperCycle path => "Cyclic or too deeply nested wrapper " ++ describePath path
  | wrapperWithoutInner path => "Wrapper without inner schema " ++ describePath path
  | listCycle path => "Cyclic schema: list " ++ describePath path ++ "contains itself"
  | listTooDeep path =>
    "Schema nesting deeper than " ++ toString maxDepth ++ " levels " ++ describePath path
  | listWithoutElement path => "List without element schema " ++ describePath path
  | unionWithoutVariants path => "Union " ++ describePath path ++ "has no variants"
  | unregisteredObjectUnion path =>
    "Object union used as a field must be registered with a type name " ++ describePath path ++
      "(pass it in the named schemas or in the types option)"
  | mixedUnion path =>
    "Union contains mixed types " ++ describePath path ++
      "(allowed: all strings, all numbers, all booleans, or registered objects)"
  | notDeclarable name kind =>
    "Top-level schema \"" ++ name ++ "\" must be an object, enum or union, got " ++ kind
  | unionWithoutMembers name => "Union \"" ++ name ++ "\" has no members"
  | badUnionMember name index isRegistered kind =>
    "Union \"" ++ name ++ "\" member " ++ toString index ++
      " must be a registered object schema, got " ++
      (if isRegistered then "" else "unregistered ") ++ kind
  | fieldTooDeep field type =>
    "Cyclic or too deeply nested schema in field \"" ++ field ++ "\" on type \"" ++ type ++ "\""
  | inField field type cause =>
    "Field \"" ++ field ++ "\" on type \"" ++ type ++ "\": " ++ cause.message

/-- An operation applied to a value that does not have it. -/
inductive Misuse where
  /-- Entries were asked of a value that is no object. -/
  | notObject
  /-- A beginning was asked of a value that is no text. -/
  | notText
  /-- Something was asked of a missing node. -/
  | missingNode
  /-- A union was expected. -/
  | notUnion
  /-- Membership was asked of a value that holds nothing. -/
  | notContainer
  /-- The items of a value that has none were asked for. -/
  | notIterable
  /-- A list or an object was used as a key. -/
  | badKey
  /-- The scalar overrides are no object. -/
  | scalarsNotObject
  /-- A pair was expected, of a sequence of another length. -/
  | notPair
  /-- An option that does not exist. -/
  | unknownOption
  /-- A name was needed where a node is registered without one. -/
  | missingName
  /-- Too few or too many arguments. -/
  | argumentCount
  /-- No schema node follows the name. -/
  | nodeExpected (name kind : String)
  /-- The options of a batch are not its second argument. -/
  | optionsMisplaced
deriving DecidableEq

def Misuse.message? : Misuse → Option String
  | nodeExpected name kind =>
    some ("Expected a schema node after the name " ++ Text.quoted name ++ ", got " ++ kind)
  | optionsMisplaced =>
    some "Options must be passed as the second argument when compiling a mapping of schemas"
  | _ => none

inductive Fault where
  | structural (cause : Cause)
  /-- Strict mode: a field refers to an object without a name. -/
  | unregisteredReference (type field : String)
  | misuse (what : Misuse)
deriving DecidableEq

namespace Fault

def message? : Fault → Option String
  | structural cause => some cause.message
  | unregisteredReference type field =>
    some ("Strict mode: Field \"" ++ field ++ "\" on type \"" ++ type ++
      "\" references an unregistered object schema. Register it with a type name or disable " ++
      "strict mode.")
  | misuse _ => none

/-- A fault met while resolving a field: a cause is told with the field, all else stays. -/
def inField (field type : String) : Fault → Fault
  | structural cause => structural (.inField field type cause)
  | other => other

/-! ## Computations that may fail -/

section
variable {σ α β : Type} {x : EStateM Fault σ α} {s u : σ}

theorem bind_eq_ok {k : α → EStateM Fault σ β} {b : β} :
    (x >>= k) s = .ok b u ↔ ∃ a t, x s = .ok a t ∧ k a t = .ok b u := by
  show EStateM.bind x k s = _ ↔ _
  unfold EStateM.bind
  cases x s <;> simp [and_assoc]

theorem bind_eq_error {k : α → EStateM Fault σ β} {f : Fault} :
    (x >>= k) s = .error f u ↔ x s = .error f u ∨ ∃ a t, x s = .ok a t ∧ k a t = .error f u := by
  show EStateM.bind x k s = _ ↔ _
  unfold EStateM.bind
  cases x s <;> simp [and_assoc]

theorem pure_eq_ok {a b : α} : (pure a : EStateM Fault σ α) s = .ok b u ↔ a = b ∧ s = u := by
  change EStateM.Result.ok a s = _ ↔ _
  simp

end

end Fault

end ShapeSdl
