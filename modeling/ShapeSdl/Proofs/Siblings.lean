import ShapeSdl.Proofs.Required

/-!
# Properties beside other keywords

The keyword that decides how a schema is read leaves those that come after it unread. An object has
the `properties` of its schema for fields as long as no reference, union or merge is written beside
them.

* `Json.without` : a schema without one of its keywords;
* `Json.IsComposed` : whether a schema refers to other schemas in place of having fields of its own;
* `Json.IsComposed.readSchema_without` : such a schema is read as if it had no `properties`;
* `Outline.GivesFields` : an object that is made of an outline has the fields of given properties,
  however its type is written (`Json.givesFields_outline`);
* `properties_are_fields` : the fields of the definitions of a document and of its root;
* `mergeSibling_dropped` : properties beside a merge are dropped.
-/

namespace ShapeSdl

open Outline (nullableIf unionOf)

namespace Json

def without (schema : Json) (key : String) : Json :=
  match schema with
  | obj entries => obj (entries.filter fun e => e.1 ≠ key)
  | v => v

/-- The keywords under which other schemas stand in for a schema. -/
def compositionKeywords : List String := ["$ref", "oneOf", "anyOf", "allOf"]

/-- Whether other schemas stand in for a schema. -/
def IsComposed (schema : Json) : Prop :=
  ∃ key ∈ compositionKeywords, (schema.get? key).isSome = true

instance (schema : Json) : Decidable schema.IsComposed :=
  inferInstanceAs (Decidable (∃ key ∈ compositionKeywords, (schema.get? key).isSome = true))

variable {schema : Json} {key name : String}

theorem get?_without_of_ne (h : name ≠ key) : (schema.without key).get? name = schema.get? name := by
  cases schema with
  | obj entries =>
    show (entries.filter _).lookup name = entries.lookup name
    induction entries with
    | nil => rfl
    | cons e rest ih =>
      obtain ⟨k, v⟩ := e
      by_cases hk : k = key
      · have hname : name ≠ k := fun hn => h (hn.trans hk)
        rw [List.filter_cons_of_neg (by simp [hk]), Entries.lookup_cons_ite, if_neg hname, ih]
      · rw [List.filter_cons_of_pos (by simp [hk]), Entries.lookup_cons_ite,
          Entries.lookup_cons_ite, ih]
  | _ => rfl

theorem get?_without_self : (schema.without key).get? key = none := by
  cases schema with
  | obj entries =>
    show (entries.filter _).lookup key = none
    rw [List.lookup_eq_none_iff]
    intro e he
    have hne : e.1 ≠ key := of_decide_eq_true (List.mem_filter.1 he).2
    simp [Ne.symm hne]
  | _ => rfl

theorem form_without_properties : (schema.without "properties").form = schema.form := by
  unfold form
  rw [get?_without_of_ne (by decide), get?_without_of_ne (by decide), get?_without_of_ne (by decide),
    get?_without_of_ne (by decide), get?_without_of_ne (by decide), get?_without_of_ne (by decide),
    get?_without_of_ne (by decide)]

theorem metadata_without_properties (entries : List (String × Json)) :
    metadata (entries.filter fun e => e.1 ≠ "properties") = metadata entries := by
  rw [metadata, metadata, List.filter_filter]
  refine List.filter_congr fun e _ => ?_
  by_cases h : e.1 = "properties"
  · rw [h]; rfl
  · simp [h]

theorem isComposed_of_form (h : (∃ ref, schema.form = .reference ref) ∨
    (∃ keyword variants, schema.form = .union keyword variants) ∨
      ∃ parts, schema.form = .merge parts) : schema.IsComposed := by
  unfold form at h
  repeat' split at h
  · exact ⟨"$ref", by decide, by simp [*]⟩
  · simp at h
  · exact ⟨"oneOf", by decide, by simp [*]⟩
  · exact ⟨"anyOf", by decide, by simp [*]⟩
  · exact ⟨"allOf", by decide, by simp [*]⟩
  all_goals simp at h

theorem IsComposed.form_ne (h : schema.IsComposed) :
    (∀ type, schema.form ≠ .typed type) ∧ schema.form ≠ .untyped := by
  obtain ⟨key, hkey, hsome⟩ := h
  simp only [compositionKeywords, List.mem_cons, List.not_mem_nil, or_false] at hkey
  unfold form
  rcases hkey with rfl | rfl | rfl | rfl
  all_goals
    obtain ⟨v, hv⟩ := Option.isSome_iff_exists.1 hsome
    repeat' split
    all_goals simp_all

/-- A composed schema is read as if it had no properties. -/
theorem IsComposed.outline_without (h : schema.IsComposed) (path : String) :
    (schema.without "properties").outline path = schema.outline path := by
  cases schema with
  | obj entries =>
    have he : ((obj entries).without "properties").entries =
        .ok (entries.filter fun e => e.1 ≠ "properties") := rfl
    rw [outline_eq he, outline_eq rfl, form_without_properties, metadata_without_properties]
    cases hf : (obj entries).form with
    | typed type => exact absurd hf (h.form_ne.1 type)
    | untyped => exact absurd hf h.form_ne.2
    | _ => rfl
  | _ => rfl

theorem IsComposed.readSchema_without (h : schema.IsComposed)
    (follow : Json → String → Reading NodeId) (path : String) :
    readSchema follow (schema.without "properties") path = readSchema follow schema path := by
  rw [readSchema_eq_run, readSchema_eq_run, h.outline_without]

theorem IsComposed.without_properties (h : schema.IsComposed) :
    (schema.without "properties").IsComposed := by
  obtain ⟨key, hkey, hsome⟩ := h
  have hne : key ≠ "properties" := by
    rintro rfl
    exact absurd hkey (by decide)
  exact ⟨key, hkey, by rwa [get?_without_of_ne hne]⟩

theorem IsComposed.isPlainObject (h : schema.IsComposed) : schema.isPlainObject = .ok false := by
  cases schema with
  | obj entries =>
    unfold Json.isPlainObject
    dsimp only
    split
    · exact absurd ‹_› (h.form_ne.1 _)
    · exact absurd ‹_› h.form_ne.2
    · rfl
  | _ =>
    obtain ⟨key, -, hsome⟩ := h
    cases hsome

end Json

/-! ## The fields of what is built -/

namespace Outline

/-- If an object is made of the outline, then with fields for the properties, in their order. -/
def GivesFields (properties : List (String × Json)) : Outline → Prop
  | object _ _ fields => fields.map Prod.fst = properties.map Prod.fst
  | merge .. | reference .. => False
  | _ => True

variable {properties : List (String × Json)} {path : String} {metadata : List (String × Json)}

theorem GivesFields.nullableIf {nullable : Bool} {o : Outline} (h : o.GivesFields properties) :
    (nullableIf nullable path o).GivesFields properties := by
  cases nullable with
  | false => exact h
  | true => trivial

theorem GivesFields.unionOf {os : List Outline} (h : ∀ o ∈ os, o.GivesFields properties) :
    (unionOf path metadata os).GivesFields properties := by
  match os with
  | [] => trivial
  | [o] => exact h o (List.mem_singleton_self o)
  | _ :: _ :: _ => trivial

theorem GivesFields.ofFields {fields : Except Fault (List (String × Outline))}
    (h : ∀ outlines, fields = .ok outlines → outlines.map Prod.fst = properties.map Prod.fst) :
    (ofFields path metadata fields).GivesFields properties := by
  cases fields with
  | error f => trivial
  | ok outlines => exact h outlines rfl

end Outline

/-- The kinds of types that make objects make them with fields for the properties. -/
structure TypeOutlines.GiveFields (kinds : TypeOutlines) (properties : List (String × Json)) :
    Prop where
  array : ∀ path, (kinds.array path).GivesFields properties
  object : ∀ path, (kinds.object path).GivesFields properties
  scalar : ∀ type path, (kinds.scalar type path).GivesFields properties

section
variable {kinds : TypeOutlines} {properties : List (String × Json)}

mutual

theorem givesFields_typeOutline (h : kinds.GiveFields properties) (metadata : List (String × Json))
    (path : String) : ∀ type, (typeOutline kinds metadata path type).GivesFields properties
  | .arr types => by
    unfold typeOutline
    split
    · trivial
    · exact .nullableIf (.unionOf (givesFields_typesOutline h metadata path types))
  | .str name => by
    unfold typeOutline
    split
    · cases ‹_ = Json.arr _›
    · exact h.array path
    · exact h.object path
    · exact h.scalar _ path
  | .null | .bool _ | .int _ | .float _ | .obj _ => by
    unfold typeOutline
    exact h.scalar _ path

theorem givesFields_typesOutline (h : kinds.GiveFields properties)
    (metadata : List (String × Json)) (path : String) :
    ∀ types, ∀ o ∈ typesOutline kinds metadata path types, o.GivesFields properties
  | [] => by simp [typesOutline]
  | type :: rest => by
    unfold typesOutline
    split
    · exact givesFields_typesOutline h metadata path rest
    · exact List.forall_mem_cons.2
        ⟨givesFields_typeOutline h metadata _ type, givesFields_typesOutline h metadata path rest⟩

end

end

namespace Json

variable {schema : Json} {properties : List (String × Json)}

theorem map_fst_fieldsOutline (h : schema.get? "properties" = some (.obj properties)) {path : String}
    {outlines : List (String × Outline)} (ho : schema.fieldsOutline path = .ok outlines) :
    outlines.map Prod.fst = properties.map Prod.fst := by
  rw [fieldsOutline_eq, h] at ho
  cases ho
  rw [propertiesOutline_eq_map, List.map_map]
  rfl

theorem giveFields_kindOutlines (h : schema.get? "properties" = some (.obj properties))
    (metadata : List (String × Json)) : (schema.kindOutlines metadata).GiveFields properties where
  array path := by
    unfold kindOutlines
    dsimp only
    split <;> trivial
  object path := .ofFields fun _ ho => map_fst_fieldsOutline h ho
  scalar type path := by
    show (scalarOutline _ metadata type path).GivesFields properties
    unfold scalarOutline
    repeat' split
    all_goals trivial

/-- Unless it is composed, a schema that makes an object gives it fields for its properties. -/
theorem givesFields_outline (h : schema.get? "properties" = some (.obj properties))
    (hc : ¬ schema.IsComposed) (path : String) : (schema.outline path).GivesFields properties := by
  cases schema with
  | obj entries =>
    rw [outline_eq rfl]
    cases hf : (obj entries).form with
    | reference ref => exact absurd (isComposed_of_form (.inl ⟨ref, hf⟩)) hc
    | union keyword variants =>
      exact absurd (isComposed_of_form (.inr (.inl ⟨keyword, variants, hf⟩))) hc
    | merge parts => exact absurd (isComposed_of_form (.inr (.inr ⟨parts, hf⟩))) hc
    | constant value => trivial
    | enumeration values =>
      show (enumerationOutline _ path values).GivesFields properties
      unfold enumerationOutline
      split
      · trivial
      · split
        · trivial
        · exact .nullableIf trivial
    | typed type => exact givesFields_typeOutline (giveFields_kindOutlines h _) _ path type
    | untyped => exact .ofFields fun _ ho => map_fst_fieldsOutline h ho
  | _ => cases h

end Json

theorem Entries.keys_ofList_congr {α β : Type} {ps : List (String × α)} {qs : List (String × β)}
    (h : ps.map Prod.fst = qs.map Prod.fst) : (ofList ps).keys = (ofList qs).keys := by
  rw [← List.forall₂_eq_eq_eq, List.forall₂_map_left_iff, List.forall₂_map_right_iff] at h
  rw [keys, keys, ← List.forall₂_eq_eq_eq, List.forall₂_map_left_iff, List.forall₂_map_right_iff]
  exact forall₂_putAll (fun _ _ h => h) .nil h

theorem Built.keys_fields {s : Session} {unfinished own : List NodeId} {o : Outline} {id : NodeId}
    {properties : List (String × Json)} (h : Built s unfinished (.one (.outline o)) [id] own)
    (ho : o.GivesFields properties) (hobj : s.graph.isObject (some id) = true) :
    (s.graph.fields (some id)).keys = (Entries.ofList properties).keys := by
  cases h with
  | @object path metadata fields ids _ _ inside node =>
    have hnames : ((fields.map Prod.fst).zip (ids.map some)).map Prod.fst = fields.map Prod.fst := by
      rw [← List.forall₂_eq_eq_eq, List.forall₂_map_left_iff, List.forall₂_map_right_iff]
      exact inside.forall₂_fields.flip.imp fun _ _ hf => hf.1.symm
    rw [Graph.fields, Graph.shape?_of_node? node]
    exact Entries.keys_ofList_congr (hnames.trans ho)
  | merge | reference => exact ho.elim
  | @leaf n hleaf id node =>
    obtain ⟨path, metadata, shape⟩ := n
    rw [Graph.isObject, Graph.shape?_of_node? node] at hobj
    cases shape with
    | object fields => cases hleaf
    | _ => cases hobj
  | wrapper inside node | list inside node | union inside node =>
    rw [Graph.isObject, Graph.shape?_of_node? node] at hobj
    cases hobj

/-! ## Documents -/

/-- In a document that has been read, a definition or a root that is an object has the properties of
its schema for fields, in their order, unless it is composed. A composed schema is read by the other
schemas alone, as if it had no properties. -/
theorem properties_are_fields {schema : Json} {root : String} {s t : Session} {batch : Batch}
    {definitions : Definitions} (hd : schema.definitions = .ok definitions)
    (h : readDocument schema root s = .ok batch t) :
    (∀ name body id properties, definitions.lookup name = some body →
      t.known.get? name = some id → t.graph.isObject (some id) = true →
      body.get? "properties" = some (.obj properties) → ¬ body.IsComposed →
        (t.graph.fields (some id)).keys = (Entries.ofList properties).keys) ∧
    (∀ id properties, root ≠ "" → batch.get? (TypeName.pascal root) = some (some id) →
      t.graph.isObject (some id) = true →
      schema.get? "properties" = some (.obj properties) → ¬ schema.IsComposed →
        (t.graph.fields (some id)).keys = (Entries.ofList properties).keys) ∧
    ∀ body : Json, body.IsComposed →
      body.isPlainObject = .ok false ∧ (body.without "properties").isPlainObject = .ok false ∧
      ∀ follow path,
        readSchema follow body path = readSchema follow (body.without "properties") path := by
  refine ⟨fun name body id properties hbody hk hobj hp hc => ?_,
    fun id properties hroot hid hobj hp hc => ?_,
    fun body hc => ⟨hc.isPlainObject, hc.without_properties.isPlainObject,
      fun follow path => (hc.readSchema_without follow path).symm⟩⟩
  · obtain ⟨own, S⟩ := readDocument_settled hd h
    obtain ⟨body', unfinished, hbody', -, hb⟩ := S.built name id hk List.not_mem_nil
    cases hbody.symm.trans hbody'
    exact hb.keys_fields (Json.givesFields_outline hp hc _) hobj
  · obtain ⟨own, u, S, -, -, hbatch⟩ := readDocument_batch hd (fun _ => rfl) h
    rw [if_pos ⟨by rw [hp]; rfl, hroot⟩] at hbatch
    obtain ⟨id', hi, rfl⟩ := hbatch
    rw [Entries.get?_put_self] at hid
    cases hid
    obtain ⟨own', mine, -, hl⟩ := S.read hi
    exact hl.task.keys_fields (Json.givesFields_outline hp hc _) hobj

def plainText : Json := .obj [("type", .str "string")]

/-- The body of a pet, whose type is a list of one. -/
def listedPet : Json := .obj [("type", .arr [.str "object"]), ("items", plainText),
  ("properties", .obj [("name", plainText), ("age", plainText)])]

/-- The body of a dog: a pet, with a property beside the merge. -/
def mergedDog : Json := .obj [("allOf", .arr [.obj [("$ref", .str "#/$defs/pet")]]),
  ("properties", .obj [("breed", plainText)])]

def petHome : Json := .obj [("$defs", .obj [("pet", listedPet), ("dog", mergedDog)]),
  ("properties", .obj [("first", .obj [("$ref", .str "#/$defs/pet")])])]

theorem properties_are_fields_petHome : ∃ batch t, readDocument petHome "home" {} = .ok batch t ∧
    batch.toList = [("Pet", some 4), ("Dog", some 5), ("Home", some 7)] ∧
    (t.graph.fields (some 4)).keys = ["name", "age"] ∧ (t.graph.fields (some 7)).keys = ["first"] ∧
    ∀ follow path, readSchema follow mergedDog path =
      readSchema follow (mergedDog.without "properties") path := by
  obtain ⟨batch, t, h, ht⟩ := Reading.exists_ok (x := readDocument petHome "home" {})
    (p := fun batch t => decide (
      batch.toList = [("Pet", some 4), ("Dog", some 5), ("Home", some 7)] ∧
      batch.get? (TypeName.pascal "home") = some (some 7) ∧ t.known.get? "pet" = some 4 ∧
      t.graph.isObject (some 4) = true ∧ t.graph.isObject (some 7) = true))
    (by decide +kernel)
  obtain ⟨hbatch, hroot, hk, hpet, hhome⟩ := of_decide_eq_true ht
  have hd : petHome.definitions = .ok [("pet", listedPet), ("dog", mergedDog)] := rfl
  obtain ⟨hdefinitions, hroots, hcomposed⟩ := properties_are_fields hd h
  refine ⟨batch, t, h, hbatch, ?_, ?_, (hcomposed mergedDog (by decide)).2.2⟩
  · exact hdefinitions "pet" listedPet 4 _ rfl hk hpet rfl (by decide)
  · exact hroots 7 _ (by decide) hroot hhome rfl (by decide)

/-- The dog is returned as an object, and the property beside its merge is none of its fields. -/
theorem mergeSibling_dropped : ∃ batch t, readDocument petHome "home" {} = .ok batch t ∧
    t.known.get? "dog" = some 5 ∧ batch.get? "Dog" = some (some 5) ∧
    t.graph.isObject (some 5) = true ∧
    mergedDog.get? "properties" = some (.obj [("breed", plainText)]) ∧
    "breed" ∉ (t.graph.fields (some 5)).keys := by
  obtain ⟨batch, t, h, ht⟩ := Reading.exists_ok (x := readDocument petHome "home" {})
    (p := fun batch t => decide (t.known.get? "dog" = some 5 ∧ batch.get? "Dog" = some (some 5) ∧
      t.graph.isObject (some 5) = true ∧ "breed" ∉ (t.graph.fields (some 5)).keys))
    (by decide +kernel)
  obtain ⟨hk, hbatch, hobj, hbreed⟩ := of_decide_eq_true ht
  exact ⟨batch, t, h, hk, hbatch, hobj, rfl, hbreed⟩

end ShapeSdl
