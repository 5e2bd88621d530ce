import ShapeSdl.Schema.Subschema

/-!
# Outlines of schemas

What reading a schema does can be told from the schema alone, up to the nodes that its references
mean. The outline of a schema says it.

* `Outline`, `Json.outline` : the nodes that a schema gives rise to, with references left as they
  are. A union of one variant is that variant, so an outline that is a reference hands on the node
  of a definition;
* `Outline.run` : reading by an outline;
* `readSchema_eq_run`, `readFields_eq_run` : reading a schema is reading by its outline;
* `Outline.path?` : the path of the node that an outline makes, if it makes one.
-/

namespace ShapeSdl

open Reading

def Shape.isLeaf : Shape → Bool
  | scalar .. | enumeration _ | literal _ => true
  | _ => false

/-- What reading a schema does, references not followed. -/
inductive Outline where
  /-- Nothing is read. -/
  | fault (fault : Fault)
  /-- What is read, and then refused. -/
  | refused (inner : Outline) (fault : Fault)
  | reference (ref : Json) (path : String)
  /-- A node that refers to no other. -/
  | leaf (node : Node) (isLeaf : node.shape.isLeaf = true)
  | wrapper (path : String) (kind : WrapperKind) (value : Json) (inner : Outline)
  | list (path : String) (metadata : List (String × Json)) (element : Outline)
  | union (path : String) (metadata : List (String × Json)) (variants : List Outline)
  | object (path : String) (metadata : List (String × Json)) (fields : List (String × Outline))
  | merge (path : String) (metadata : List (String × Json)) (parts : List Outline)

namespace Outline

def nullableIf (nullable : Bool) (path : String) (o : Outline) : Outline :=
  if nullable then wrapper path .nullable .null o else o

def unionOf (path : String) (metadata : List (String × Json)) : List Outline → Outline
  | [o] => o
  | os => union path metadata os

/-- The object with these fields, unless they cannot be read. -/
def ofFields (path : String) (metadata : List (String × Json)) :
    Except Fault (List (String × Outline)) → Outline
  | .ok fields => object path metadata fields
  | .error f => fault f

theorem ofFields_eq_object {path path' : String} {metadata metadata' : List (String × Json)}
    {fields : Except Fault (List (String × Outline))} {fields' : List (String × Outline)}
    (h : ofFields path metadata fields = object path' metadata' fields') :
    path = path' ∧ metadata = metadata' ∧ fields = .ok fields' := by
  cases fields <;> cases h
  exact ⟨rfl, rfl, rfl⟩

/-- The path of the node that is made, if one is. -/
def path? : Outline → Option String
  | fault _ | refused .. | reference .. => none
  | leaf n _ => some n.path
  | wrapper path .. | list path .. | union path .. | object path .. | merge path .. => some path

end Outline

/-! ## The outline of a schema -/

/-- The outlines of the kinds of types at a path. -/
structure TypeOutlines where
  array : String → Outline
  object : String → Outline
  scalar : Json → String → Outline

/-- The outline of a scalar, with the `format` that stands beside it. -/
def scalarOutline (format : Json) (metadata : List (String × Json)) (type : Json) (path : String) :
    Outline :=
  match type with
  | .str "string" => match formatChecks format with
    | .ok checks => .leaf ⟨path, metadata, .scalar "string" checks⟩ rfl
    | .error f => .fault f
  | .str "integer" => .leaf ⟨path, metadata, .integer⟩ rfl
  | .str "number" => .leaf ⟨path, metadata, .number⟩ rfl
  | .str "boolean" => .leaf ⟨path, metadata, .boolean⟩ rfl
  | _ => .fault (.structural (.unsupportedType type path))

mutual

def typeOutline (kinds : TypeOutlines) (metadata : List (String × Json)) (path : String) :
    Json → Outline
  | .arr types =>
    if types.all (· = nullType) then .fault (.structural (.nullOnlyType path))
    else .nullableIf (decide (nullType ∈ types)) path
      (.unionOf path metadata (typesOutline kinds metadata path types))
  | .str "array" => kinds.array path
  | .str "object" => kinds.object path
  | type => kinds.scalar type path

/-- The outlines of a list of types; null has none. -/
def typesOutline (kinds : TypeOutlines) (metadata : List (String × Json)) (path : String) :
    List Json → List Outline
  | [] => []
  | type :: rest =>
    if type = nullType then typesOutline kinds metadata path rest
    else typeOutline kinds metadata (path ++ "/type/" ++ type.plain) type ::
      typesOutline kinds metadata path rest

end

/-- The outlines of the values of an enum from position `index` on; null has none. -/
def constantsOutline (path : String) : Nat → List Json → List Outline
  | _, [] => []
  | index, .null :: rest => constantsOutline path (index + 1) rest
  | index, v :: rest =>
    .leaf ⟨path ++ "/enum/" ++ toString index, [], .literal v⟩ rfl ::
      constantsOutline path (index + 1) rest

def enumerationOutline (metadata : List (String × Json)) (path : String) (values : Json) : Outline :=
  match values.items with
  | .error f => .fault f
  | .ok values =>
    if values.all Json.isText then .leaf ⟨path, metadata, .enumeration values⟩ rfl
    else .nullableIf (decide (Json.null ∈ values)) path
      (.union path metadata (constantsOutline path 0 values))

/-- Whether a variant only makes its union nullable. -/
def Json.isNullVariant (variant : Json) : Bool := decide (variant.get? "type" = some nullType)

/-- The outline of a field: the schema's own, in a wrapper if it has a default or is not required. -/
def fieldOutline (required : Json) (name : String) (schema : Json) (path : String)
    (o : Outline) : Outline :=
  match schema.get? "default" with
  | some value => .wrapper path .defaulted value o
  | none => match required.holds name with
    | .ok true => o
    | .ok false => .wrapper path .optional .null o
    | .error f => .refused o f

namespace Json

mutual

def outline (schema : Json) (path : String) : Outline :=
  match schema.entries with
  | .error f => .fault f
  | .ok entries =>
    let metadata := metadata entries
    match _h : schema.form with
    | .reference ref => .reference ref path
    | .constant value => .leaf ⟨path, metadata, .literal value⟩ rfl
    | .union keyword variants =>
      match _hv : variants.schemas with
      | .error f => .fault f
      | .ok variants => .nullableIf (variants.any isNullVariant) path
        (.unionOf path metadata (variantsOutline (path ++ "/" ++ keyword ++ "/") 0 variants))
    | .merge parts =>
      match _hp : parts.schemas with
      | .error f => .fault f
      | .ok parts => .merge path metadata (partsOutline path 0 parts)
    | .enumeration values => enumerationOutline metadata path values
    | .typed type =>
      let kinds : TypeOutlines := {
        array := fun path => match _hi : schema.get? "items" with
          | none | some .null => .list path metadata (.object (path ++ "/items") [] [])
          | some (.arr _) => .fault (.structural (.tupleArray path))
          | some element => .list path metadata (outline element (path ++ "/items"))
        object := fun path => .ofFields path metadata (fieldsOutline schema path)
        scalar := scalarOutline ((schema.get? "format").getD (.str "")) metadata }
      typeOutline kinds metadata path type
    | .untyped => .ofFields path metadata (fieldsOutline schema path)
termination_by 2 * sizeOf schema + 1
decreasing_by
  · have := sizeOf_lt_of_form_union _h
    have := sizeOf_schemas_le _hv
    omega
  · have := sizeOf_lt_of_form_merge _h
    have := sizeOf_schemas_le _hp
    omega
  · have := sizeOf_lt_of_get? _hi
    omega
  · omega
  · omega

def fieldsOutline (schema : Json) (path : String) : Except Fault (List (String × Outline)) :=
  match _h : schema.get? "properties" with
  | none => .ok []
  | some properties =>
    match _hp : properties.entries with
    | .error f => .error f
    | .ok properties => .ok (propertiesOutline ((schema.get? "required").getD (.arr []))
        (path ++ "/properties/") properties)
termination_by 2 * sizeOf schema
decreasing_by
  have := sizeOf_lt_of_get? _h
  have := sizeOf_entries_lt _hp
  omega

def propertiesOutline (required : Json) (base : String) (properties : List (String × Json)) :
    List (String × Outline) :=
  match properties with
  | [] => []
  | (name, schema) :: rest =>
    (name, fieldOutline required name schema (base ++ name) (outline schema (base ++ name))) ::
      propertiesOutline required base rest
termination_by 2 * sizeOf properties
decreasing_by all_goals simp only [List.cons.sizeOf_spec, Prod.mk.sizeOf_spec]; omega

/-- The outlines of the variants of a union from position `index` on; null has none. -/
def variantsOutline (base : String) (index : Nat) (variants : List Json) : List Outline :=
  match variants with
  | [] => []
  | variant :: rest =>
    if variant.isNullVariant then variantsOutline base (index + 1) rest
    else outline variant (base ++ toString index) :: variantsOutline base (index + 1) rest
termination_by 2 * sizeOf variants
decreasing_by all_goals simp only [List.cons.sizeOf_spec]; omega

/-- The outlines of the parts of a merged object from position `index` on. -/
def partsOutline (path : String) (index : Nat) (parts : List Json) : List Outline :=
  match parts with
  | [] => []
  | part :: rest =>
    outline part (path ++ "/allOf/" ++ toString index) :: partsOutline path (index + 1) rest
termination_by 2 * sizeOf parts
decreasing_by all_goals simp only [List.cons.sizeOf_spec]; omega

end

def kindOutlines (schema : Json) (metadata : List (String × Json)) : TypeOutlines where
  array path := match schema.get? "items" with
    | none | some .null => .list path metadata (.object (path ++ "/items") [] [])
    | some (.arr _) => .fault (.structural (.tupleArray path))
    | some element => .list path metadata (element.outline (path ++ "/items"))
  object path := .ofFields path metadata (schema.fieldsOutline path)
  scalar := scalarOutline ((schema.get? "format").getD (.str "")) metadata

theorem outline_eq {schema : Json} {entries : List (String × Json)}
    (he : schema.entries = .ok entries) (path : String) :
    schema.outline path = match schema.form with
      | .reference ref => .reference ref path
      | .constant value => .leaf ⟨path, metadata entries, .literal value⟩ rfl
      | .union keyword variants => match variants.schemas with
        | .error f => .fault f
        | .ok variants => .nullableIf (variants.any isNullVariant) path
          (.unionOf path (metadata entries)
            (variantsOutline (path ++ "/" ++ keyword ++ "/") 0 variants))
      | .merge parts => match parts.schemas with
        | .error f => .fault f
        | .ok parts => .merge path (metadata entries) (partsOutline path 0 parts)
      | .enumeration values => enumerationOutline (metadata entries) path values
      | .typed type =>
        typeOutline (schema.kindOutlines (metadata entries)) (metadata entries) path type
      | .untyped => .ofFields path (metadata entries) (schema.fieldsOutline path) := by
  rw [outline]
  simp only [he]
  split <;> rename_i h <;> simp only [h]
  · split <;> rename_i hv <;> simp only [hv]
  · split <;> rename_i hv <;> simp only [hv]
  · congr 1
    unfold kindOutlines
    congr 1
    funext path
    split <;> rename_i hi <;> simp [hi]

theorem fieldsOutline_eq (schema : Json) (path : String) :
    schema.fieldsOutline path = match schema.get? "properties" with
      | none => .ok []
      | some properties => match properties.entries with
        | .error f => .error f
        | .ok properties => .ok (propertiesOutline ((schema.get? "required").getD (.arr []))
          (path ++ "/properties/") properties) := by
  rw [fieldsOutline]
  split <;> rename_i h <;> simp only [h]
  split <;> rename_i hp <;> simp only [hp]

/-- A definition that is an object by its type or properties has the outline of one. -/
theorem outline_of_isPlainObject {schema : Json} (h : schema.isPlainObject = .ok true) :
    ∃ entries, schema.entries = .ok entries ∧ ∀ path,
      schema.outline path = .ofFields path (metadata entries) (schema.fieldsOutline path) := by
  cases schema with
  | obj entries =>
    refine ⟨entries, rfl, fun path => ?_⟩
    rw [outline_eq rfl]
    simp only [isPlainObject] at h
    split at h
    · rename_i hf
      simp only [Except.ok.injEq, decide_eq_true_eq] at h
      rw [hf, h]
      rfl
    · rename_i hf
      rw [hf]
    · cases h
  | _ => cases h

end Json

/-! ## Reading by an outline -/

theorem Reading.liftM_ok {α : Type} (a : α) : (liftM (.ok a : Except Fault α) : Reading α) = pure a :=
  rfl

namespace Outline

mutual

/-- Reading by an outline, `follow` reading the references. -/
def run (follow : Json → String → Reading NodeId) : Outline → Reading NodeId
  | fault f => throw f
  | refused inner f => do
    let _ ← run follow inner
    throw f
  | reference ref path => follow ref path
  | leaf n _ => addNode n.path n.metadata n.shape
  | wrapper path kind value inner => do
    addNode path [] (.wrapper kind (some (← run follow inner)) value)
  | list path metadata element => do addNode path metadata (.list (some (← run follow element)))
  | union path metadata variants => do
    addNode path metadata (.union ((← runAll follow variants).map some))
  | object path metadata fields => do
    addNode path metadata (.object (.ofList (← runFields follow fields)))
  | merge path metadata parts => do
    let (fields, ids) ← runParts follow path 0 ∅ parts
    addMerged path metadata fields ids

def runAll (follow : Json → String → Reading NodeId) : List Outline → Reading (List NodeId)
  | [] => return []
  | o :: rest => do
    let id ← run follow o
    return id :: (← runAll follow rest)

def runFields (follow : Json → String → Reading NodeId) :
    List (String × Outline) → Reading (List (String × Ref))
  | [] => return []
  | (name, o) :: rest => do
    let id ← run follow o
    return (name, some id) :: (← runFields follow rest)

def runParts (follow : Json → String → Reading NodeId) (path : String) (index : Nat)
    (fields : Entries String Ref) : List Outline → Reading (Entries String Ref × List NodeId)
  | [] => return (fields, [])
  | o :: rest => do
    let id ← run follow o
    let graph := (← get).graph
    match graph.shape? (some id) with
    | some (.object more) =>
      let (fields, ids) ← runParts follow path (index + 1) (fields.putAll more.toList) rest
      return (fields, id :: ids)
    | _ => throw (.structural (.partNotObject index path (graph.kindName (some id))))

end

variable (follow : Json → String → Reading NodeId)

theorem run_nullableIf (nullable : Bool) (path : String) (o : Outline) :
    (nullableIf nullable path o).run follow = (do
      let id ← o.run follow
      Reading.nullableIf nullable path id) := by
  cases nullable
  · simp [nullableIf, Reading.nullableIf]
  · simp [nullableIf, Reading.nullableIf, run, Shape.nullable]

theorem run_unionOf (path : String) (metadata : List (String × Json)) (os : List Outline) :
    (unionOf path metadata os).run follow = (do
      let ids ← runAll follow os
      Reading.unionOf path metadata ids) := by
  match os with
  | [] => simp [unionOf, run, runAll, Reading.unionOf]
  | [o] => simp [unionOf, runAll, Reading.unionOf]
  | o :: p :: rest => simp [unionOf, run, runAll, Reading.unionOf]

theorem run_ofFields (path : String) (metadata : List (String × Json))
    (fields : Except Fault (List (String × Outline))) :
    (ofFields path metadata fields).run follow = (do
      let fields ← runFields follow (← fields)
      addNode path metadata (.object (.ofList fields))) := by
  cases fields with
  | error f => simp [ofFields, run]; rfl
  | ok fields => simp [ofFields, run]; rfl

end Outline

section
variable (follow : Json → String → Reading NodeId)

/-- What the kinds of types do and their outlines agree. -/
structure TypeOutlines.Describe (kinds : TypeOutlines) (reader : TypeReader) : Prop where
  array : ∀ path, reader.array path = (kinds.array path).run follow
  object : ∀ path, reader.object path = (kinds.object path).run follow
  scalar : ∀ type path, reader.scalar type path = (kinds.scalar type path).run follow

theorem readScalar_eq_run (format : Json) (metadata : List (String × Json)) (type : Json)
    (path : String) :
    readScalar format metadata type path =
      (scalarOutline format metadata type path).run follow := by
  unfold readScalar scalarOutline
  split
  · cases formatChecks format <;> simp [Outline.run] <;> rfl
  · rfl
  · rfl
  · rfl
  · simp_all [Outline.run]

mutual

theorem readType_eq_run {kinds : TypeOutlines} {reader : TypeReader}
    (h : kinds.Describe follow reader) (metadata : List (String × Json)) (path : String) :
    ∀ (type : Json), readType reader metadata path type =
      (typeOutline kinds metadata path type).run follow
  | .arr types => by
    have ih := readTypes_eq_run h metadata path types
    unfold readType typeOutline
    split
    · simp [Outline.run]; rfl
    · simp [Outline.run_nullableIf, Outline.run_unionOf, ih]
  | .str s => by
    by_cases ha : s = "array"
    · subst ha; exact h.array path
    · by_cases ho : s = "object"
      · subst ho; exact h.object path
      · have ha' : Json.str s = .str "array" → False := by simpa using ha
        have ho' : Json.str s = .str "object" → False := by simpa using ho
        rw [readType.eq_4 _ _ _ _ (by simp) ha' ho', typeOutline.eq_4 _ _ _ _ (by simp) ha' ho']
        exact h.scalar _ path
  | .null | .bool _ | .int _ | .float _ | .obj _ => h.scalar _ path

theorem readTypes_eq_run {kinds : TypeOutlines} {reader : TypeReader}
    (h : kinds.Describe follow reader) (metadata : List (String × Json)) (path : String) :
    ∀ (types : List Json), readTypes reader metadata path types =
      Outline.runAll follow (typesOutline kinds metadata path types)
  | [] => rfl
  | type :: rest => by
    have iht := readType_eq_run h metadata (path ++ "/type/" ++ type.plain) type
    have ih := readTypes_eq_run h metadata path rest
    unfold readTypes typesOutline
    split
    · exact ih
    · simp [Outline.runAll, iht, ih]

end

theorem readConstants_eq_run (path : String) (index : Nat) (values : List Json) :
    readConstants path index values =
      Outline.runAll follow (constantsOutline path index values) := by
  induction values generalizing index with
  | nil => rfl
  | cons v rest ih =>
    cases v <;> simp [readConstants, constantsOutline, Outline.runAll, Outline.run, ih]

theorem readEnumeration_eq_run (metadata : List (String × Json)) (path : String) (values : Json) :
    readEnumeration metadata path values =
      (enumerationOutline metadata path values).run follow := by
  unfold readEnumeration enumerationOutline
  cases values.items with
  | error f => rfl
  | ok values =>
    rw [liftM_ok, pure_bind]
    dsimp only
    split
    · rfl
    · simp [Outline.run_nullableIf, Outline.run, readConstants_eq_run follow]

mutual

/-- Reading a schema is reading by its outline. -/
theorem readSchema_eq_run (schema : Json) (path : String) :
    readSchema follow schema path = (schema.outline path).run follow := by
  rw [readSchema]
  cases he : schema.entries with
  | error f => rw [Json.outline, he]; rfl
  | ok entries =>
    rw [Json.outline_eq he, liftM_ok, pure_bind]
    dsimp only
    split <;> rename_i h <;> simp only [h]
    · rfl
    · rfl
    · split <;> rename_i hv <;> simp only [hv]
      · rfl
      · have := Json.sizeOf_lt_of_form_union h
        have := Json.sizeOf_schemas_le hv
        rw [readVariants_eq_run, Outline.run_nullableIf, Outline.run_unionOf]
        simp
    · split <;> rename_i hp <;> simp only [hp]
      · rfl
      · have := Json.sizeOf_lt_of_form_merge h
        have := Json.sizeOf_schemas_le hp
        rw [readParts_eq_run]
        rfl
    · exact readEnumeration_eq_run follow ..
    · refine readType_eq_run follow ⟨fun path => ?_, fun path => ?_, fun type path => ?_⟩ _ _ _
      · dsimp only [Json.kindOutlines]
        split <;> rename_i hi <;> simp only [hi]
        · rfl
        · rfl
        · rfl
        · have := Json.sizeOf_lt_of_get? hi
          rw [readSchema_eq_run]
          rfl
      · dsimp only [Json.kindOutlines]
        rw [readFields_eq_run, Outline.run_ofFields]
        simp
      · exact readScalar_eq_run follow ..
    · rw [readFields_eq_run, Outline.run_ofFields]
      simp
termination_by 2 * sizeOf schema + 1
decreasing_by all_goals omega

theorem readFields_eq_run (schema : Json) (path : String) :
    readFields follow schema path = (do
      let fields ← Outline.runFields follow (← schema.fieldsOutline path)
      return .ofList fields) := by
  rw [readFields, Json.fieldsOutline_eq]
  split <;> rename_i h <;> simp only [h]
  · rfl
  · split <;> rename_i hp <;> simp only [hp]
    · rfl
    · have := Json.sizeOf_lt_of_get? h
      have := Json.sizeOf_entries_lt hp
      rw [readProperties_eq_run]
      rfl
termination_by 2 * sizeOf schema
decreasing_by omega

theorem readProperties_eq_run (required : Json) (base : String)
    (properties : List (String × Json)) :
    readProperties follow required base properties =
      Outline.runFields follow (Json.propertiesOutline required base properties) := by
  match properties with
  | [] => rw [readProperties, Json.propertiesOutline]; rfl
  | (name, schema) :: rest =>
    have ihs := readSchema_eq_run schema (base ++ name)
    have ih := readProperties_eq_run required base rest
    rw [readProperties, Json.propertiesOutline]
    simp only [ihs, ih, Outline.runFields]
    unfold fieldOutline
    cases schema.get? "default" with
    | some value => simp [Outline.run, Shape.default]
    | none =>
      cases required.holds name with
      | error f => simp [Outline.run]; rfl
      | ok holds => cases holds <;> simp [Outline.run, Shape.optional, liftM_ok]
termination_by 2 * sizeOf properties
decreasing_by all_goals simp only [List.cons.sizeOf_spec, Prod.mk.sizeOf_spec]; omega

theorem readVariants_eq_run (base : String) (index : Nat) (variants : List Json) :
    readVariants follow base index variants = (do
      let ids ← Outline.runAll follow (Json.variantsOutline base index variants)
      return (ids, variants.any Json.isNullVariant)) := by
  match variants with
  | [] => rw [readVariants, Json.variantsOutline]; rfl
  | variant :: rest =>
    have ihs := readSchema_eq_run variant (base ++ toString index)
    have ih := readVariants_eq_run base (index + 1) rest
    rw [readVariants, Json.variantsOutline]
    simp only [ihs, ih]
    cases he : variant.entries with
    | error f =>
      have hn : variant.isNullVariant = false := by
        cases variant <;> first | rfl | cases he
      rw [hn, Json.outline, he]
      rfl
    | ok entries =>
      rw [liftM_ok, pure_bind]
      by_cases hn : variant.get? "type" = some nullType <;>
        simp [Json.isNullVariant, hn, Outline.runAll]
termination_by 2 * sizeOf variants
decreasing_by all_goals simp only [List.cons.sizeOf_spec]; omega

theorem readParts_eq_run (path : String) (index : Nat) (fields : Entries String Ref)
    (parts : List Json) :
    readParts follow path index fields parts =
      Outline.runParts follow path index fields (Json.partsOutline path index parts) := by
  match parts with
  | [] => rw [readParts, Json.partsOutline]; rfl
  | part :: rest =>
    have ihs := readSchema_eq_run part (path ++ "/allOf/" ++ toString index)
    have ih := fun fields => readParts_eq_run path (index + 1) fields rest
    rw [readParts, Json.partsOutline]
    simp only [ihs, ih]
    rfl
termination_by 2 * sizeOf parts
decreasing_by all_goals simp only [List.cons.sizeOf_spec]; omega

end

end

end ShapeSdl
