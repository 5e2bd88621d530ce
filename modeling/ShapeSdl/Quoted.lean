import ShapeSdl.Options

/-!
# Nodes and options inside running text

* `Graph.quoted` : a node as it appears in a message, with everything that it refers to. A node
  inside itself is three points;
* `Options.quoted` : options as they appear in a message. The seed names are listed, so all nodes
  must have one;
* `OptionsForm.quoted` : options in any form, a configuration being shown entry by entry.
-/

namespace ShapeSdl

/-! ## Nodes -/

def WrapperKind.quoted : WrapperKind → String
  | optional => "<WrapperKind.OPTIONAL: 'optional'>"
  | nullable => "<WrapperKind.NULLABLE: 'nullable'>"
  | defaulted => "<WrapperKind.DEFAULT: 'default'>"

def quotedList (items : List String) : String := "[" ++ ", ".intercalate items ++ "]"

/-- A sequence between parentheses; one item alone has a comma behind it. -/
def quotedTuple : List String → String
  | [item] => "(" ++ item ++ ",)"
  | items => "(" ++ ", ".intercalate items ++ ")"

def quotedEntries (entries : List (String × String)) : String :=
  "\x7b" ++ ", ".intercalate (entries.map fun (k, v) => k ++ ": " ++ v) ++ "\x7d"

/-- A record: its kind with its named parts. -/
def quotedRecord (kind : String) (parts : List (String × String)) : String :=
  kind ++ "(" ++ ", ".intercalate (parts.map fun (name, value) => name ++ "=" ++ value) ++ ")"

/-- The named parts of a shape, nodes being written by `inner`. -/
def Shape.quotedParts (inner : Ref → String) : Shape → List (String × String)
  | scalar base checks =>
    [("type_name", Text.quoted base), ("checks", quotedTuple (checks.map Text.quoted))]
  | wrapper kind node value =>
    [("kind", kind.quoted), ("inner", inner node), ("default_value", value.quoted)]
  | list element => [("element", inner element)]
  | object fields =>
    [("fields", quotedEntries (fields.toList.map fun (k, r) => (Text.quoted k, inner r)))]
  | enumeration values => [("values", (Json.arr values).quoted)]
  | literal value => [("value", value.quoted)]
  | union variants => [("variants", quotedList (variants.map inner))]
  | bare => []

namespace Graph

/-- A node inside the nodes `outer`, with `room` for so many more inside each other. -/
def quotedWithin (g : Graph) (room : Nat) (outer : List Ref) (r : Ref) : String :=
  match g.node? r with
  | none => Json.null.quoted
  | some ⟨path, metadata, shape⟩ =>
    match room with
    | 0 => "..."
    | room + 1 =>
      if r ∈ outer then "..."
      else quotedRecord shape.kindName (("source_path", Text.quoted path) ::
        ("metadata", (Json.obj metadata).quoted) ::
        shape.quotedParts fun inner => quotedWithin g room (r :: outer) inner)

/-- A node in messages. Nodes inside each other are at most all nodes, so there is room enough. -/
def quoted (g : Graph) (r : Ref) : String := g.quotedWithin (g.size + 1) [] r

end Graph

/-! ## Options -/

def Seeds.quoted : Seeds → Except Fault String
  | .none => .ok Json.null.quoted
  | .pairs names => (Registry.ofPairs names).listing
  | .data value => .ok value.quoted
  | .node => .error (.misuse .notIterable)

def Options.quoted (o : Options) : Except Fault String := do
  return quotedRecord "CompileOptions" [("scalars", o.scalars.quoted), ("types", ← o.seeds.quoted),
    ("strict", o.strict.quoted), ("preserve_enum_case", o.preserveEnumCase.quoted),
    ("add_generation_comment", o.addGenerationComment.quoted)]

def quotedNames (g : Graph) (names : List (Ref × Option String)) : String :=
  quotedEntries (names.map fun (r, name) =>
    (g.quoted r, (name.map Text.quoted).getD Json.null.quoted))

/-- The entries of a configuration in messages, its seed names behind all others. -/
def quotedConfiguration (g : Graph) (value : Json) (names : Option (List (Ref × Option String))) :
    String :=
  match value with
  | .obj entries => quotedEntries (
      entries.map (fun (k, v) => (Text.quoted k, v.quoted)) ++
      names.toList.map fun ns => (Text.quoted "types", quotedNames g ns))
  | other => other.quoted

def OptionsForm.quoted (g : Graph) : OptionsForm → Except Fault String
  | absent => .ok Json.null.quoted
  | configuration value names => .ok (quotedConfiguration g value names)
  | options o => o.quoted

end ShapeSdl
