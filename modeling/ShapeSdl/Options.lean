import ShapeSdl.Json
import ShapeSdl.Registry

/-!
# Options of a compilation

* `Options` : scalar overrides, seed names, and three switches. What comes from a configuration file
  is kept as it is, so every field may hold any value;
* `Options.ofConfiguration`, `Options.ofArguments` : options from a configuration, which may use
  either spelling of a key and hold unknown ones, and from named arguments, which must be known. A
  configuration that is read this way holds no seed names;
* `Options.toConfiguration` : the configuration that gives the options back;
* `OptionsForm`, `OptionsForm.coerce` : options in any of the forms in which they are given, among
  them a configuration with its seed names;
* `Options.scalarName` : the output name for a key of the scalar table;
* `Options.registry` : the registry that a compilation starts from.
-/

namespace ShapeSdl

/-- Names that nodes have before a compilation. -/
inductive Seeds where
  | none
  | pairs (pairs : List (Ref × Option String))
  /-- A value out of a configuration, which names no node. -/
  | data (value : Json)
  /-- A node where names are expected: it has none. -/
  | node
deriving DecidableEq

structure Options where
  /-- Names that replace those of the default scalar table. -/
  scalars : Json := .obj []
  seeds : Seeds := .none
  /-- In a batch, fields that refer to an object without a name are errors. -/
  strict : Json := .bool false
  /-- Enum values stay as they are instead of being raised. -/
  preserveEnumCase : Json := .bool false
  /-- The command line puts a comment in front of its output. -/
  addGenerationComment : Json := .bool true
deriving DecidableEq

inductive OptionKey where
  | scalars
  | types
  | strict
  | preserveEnumCase
  | addGenerationComment
deriving DecidableEq

namespace OptionKey

def ofName? : String → Option OptionKey
  | "scalars" => some scalars
  | "types" => some types
  | "strict" => some strict
  | "preserve_enum_case" => some preserveEnumCase
  | "add_generation_comment" => some addGenerationComment
  | _ => none

/-- The key of a name or of its other spelling. -/
def ofSpelling? : String → Option OptionKey
  | "preserveEnumCase" => some preserveEnumCase
  | "addGenerationComment" => some addGenerationComment
  | name => ofName? name

end OptionKey

/-- Seeds out of a configuration; null stands for none. -/
def Seeds.ofJson : Json → Seeds
  | .null => .none
  | value => .data value

namespace Options

instance : Inhabited Options := ⟨{}⟩

def set (o : Options) (key : OptionKey) (value : Json) : Options :=
  match key with
  | .scalars => { o with scalars := value }
  | .types => { o with seeds := .ofJson value }
  | .strict => { o with strict := value }
  | .preserveEnumCase => { o with preserveEnumCase := value }
  | .addGenerationComment => { o with addGenerationComment := value }

/-- The options after one entry of a configuration. Unknown keys and seed names are passed over. -/
def readEntry (o : Options) (entry : String × Json) : Options :=
  match OptionKey.ofSpelling? entry.1 with
  | none | some .types => o
  | some key => o.set key entry.2

def ofConfiguration : Json → Except Fault Options
  | .obj entries => .ok (entries.foldl readEntry {})
  | _ => .error (.misuse .notObject)

def ofArguments : Json → Except Fault Options
  | .obj entries => entries.foldlM (fun o entry =>
      match OptionKey.ofName? entry.1 with
      | some key => .ok (o.set key entry.2)
      | none => .error (.misuse .unknownOption)) {}
  | _ => .error (.misuse .unknownOption)

/-! ## Scalar names -/

/-- The names of refined scalars and of objects without a name. -/
def defaultScalars : List (String × Json) :=
  [("uuid", .str "UUID"), ("datetime", .str "Datetime"), ("date", .str "Date"),
    ("json", .str "JSON")]

def genericScalars : List (String × String) :=
  [("string", "String"), ("int", "Int"), ("float", "Float"), ("boolean", "Boolean")]

/-- The category that stands in for a refined scalar without a name. -/
def categoryOf (key : String) : String := if key ∈ Shape.stringChecks then "string" else key

/-- The default scalar table with the overrides written over it. -/
def resolvedScalars (o : Options) : Except Fault (Entries String Json) :=
  match o.scalars with
  | .obj overrides => .ok ((Entries.ofList defaultScalars).putAll overrides)
  | _ => .error (.misuse .scalarsNotObject)

def scalarName (o : Options) (key : String) : Except Fault Json := do
  let table ← o.resolvedScalars
  let generic := (genericScalars.lookup (categoryOf key)).getD "String"
  return (table.get? key).getD ((table.get? (categoryOf key)).getD (.str generic))

/-- The output name for a key that need not be a text: only texts are keys of the table. -/
def scalarNameOf (o : Options) : Json → Except Fault Json
  | .str key => o.scalarName key
  | .arr _ | .obj _ => do
    let _ ← o.resolvedScalars
    .error (.misuse .badKey)
  | _ => do
    let _ ← o.resolvedScalars
    return .str "String"

/-! ## Back to a configuration -/

/-- The two members of a sequence of two, the first one as an item of its document. -/
def twoOf : Json → Except Fault (Json.Item × Json)
  | .arr [first, second] => .ok (.value first, second)
  | .obj [(first, _), (second, _)] => .ok (.ofKey first, .str second)
  | .str s => match Text.characters s with
    | [first, second] => .ok (.value (.str first), .str second)
    | _ => .error (.misuse .notPair)
  | .arr _ | .obj _ => .error (.misuse .notPair)
  | _ => .error (.misuse .notIterable)

/-- A sequence of two as a key and its value. Lists and objects are no keys. -/
def pairOf (v : Json) : Except Fault (Json × Json) := do
  match ← twoOf v with
  | (.value (.arr _), _) | (.value (.obj _), _) => .error (.misuse .badKey)
  | (.value key, value) => return (key, value)
  | (.key key, value) => return (.str key, value)

/-- A value as entries: an object's own, or those that a sequence of pairs makes. -/
def entriesOf : Json → Except Fault (List (String × Json))
  | .obj entries => .ok entries
  | .arr items => return (Json.textEntries (← items.mapM pairOf)).toList
  | .str s => if s = "" then .ok [] else .error (.misuse .notPair)
  | _ => .error (.misuse .notIterable)

def toConfiguration (o : Options) : Except Fault Json := do
  return .obj [("scalars", .obj (← entriesOf o.scalars)), ("strict", o.strict),
    ("preserve_enum_case", o.preserveEnumCase), ("add_generation_comment", o.addGenerationComment)]

/-! ## The seed registry -/

/-- How many things a value out of a configuration names. -/
def dataSeedCount : Json → Except Fault Nat
  | .obj entries => .ok entries.length
  | .arr items => return Json.Item.distinct ((← items.mapM twoOf).map Prod.fst)
  | .str s => if s = "" then .ok 0 else .error (.misuse .notPair)
  | _ => .error (.misuse .notIterable)

/-- The registry that a compilation starts from. -/
def registry (o : Options) : Except Fault Registry :=
  match o.seeds with
  | .none => .ok ∅
  | .pairs pairs => .ok (.ofPairs pairs)
  | .data value => do
    let _ ← dataSeedCount value
    return ∅
  | .node => .error (.misuse .notIterable)

/-- The number of names that a compilation starts from. -/
def seedCount (o : Options) : Except Fault Nat :=
  match o.seeds with
  | .data value => dataSeedCount value
  | _ => o.registry.map Registry.size

end Options

/-! ## Forms of options -/

inductive OptionsForm where
  | absent
  /-- A configuration, and the names of nodes if these are its seed names. -/
  | configuration (value : Json) (names : Option (List (Ref × Option String)))
  | options (o : Options)

def Seeds.ofConfiguration (value : Json) : Option (List (Ref × Option String)) → Seeds
  | .some names => .pairs names
  | .none => .ofJson ((value.get? "types").getD .null)

def OptionsForm.coerce : OptionsForm → Except Fault Options
  | absent => .ok {}
  | configuration value names => do
    let o ← Options.ofConfiguration value
    return { o with seeds := .ofConfiguration value names }
  | options o => .ok o

end ShapeSdl
