import ShapeSdl.Proofs.Alongside
import ShapeSdl.Proofs.Errors

/-!
# Unions that are spelled out

A list of types, and an enum, are short for unions. It makes no difference which of the two is
written.

* `Json.typeUnion`, `Json.constantUnion` : the unions;
* `Json.SpelledOut` : a schema, and the union that it is short for;
* `SpelledOut.interchangeable` : the one can stand in the place of the other;
* `compile_spelledOut` : documents with the one and with the other compile alike, or fail alike.

The nodes are not alike. An enum of texts has one node, where a union of constants has one for each of
them, and a union of one variant is that variant. They only have the same type as a field.
-/

namespace ShapeSdl

/-! ## The unions -/

namespace Json

def nullSchema : Json := .obj [("type", nullType)]

def withType (entries : List (String × Json)) (type : Json) : Json :=
  .obj (Entries.putPair "type" type entries)

/-- A variant for a type: the schema with this type. -/
def typeVariant (entries : List (String × Json)) (type : Json) : Json :=
  if type = nullType then nullSchema else withType entries type

def constantVariant (value : Json) : Json :=
  if value = .null then nullSchema else .obj [("const", value)]

/-- A schema that is a union and nothing else. -/
def oneOf (variants : List Json) : Json := .obj [("oneOf", .arr variants)]

/-- A schema with a list of types as a union of schemas with one type. -/
def typeUnion (entries : List (String × Json)) (types : List Json) : Json :=
  oneOf (types.map (typeVariant entries))

/-- An enum as a union of constants. -/
def constantUnion (values : List Json) : Json := oneOf (values.map constantVariant)

/-- A schema with a list of types or an enum, and the union that it is short for. -/
inductive SpelledOut : Json → Json → Prop
  | types {entries : List (String × Json)} {types : List Json}
      (form : (obj entries).form = .typed (.arr types)) (typed : ∃ type ∈ types, type ≠ nullType)
      (noDefault : (obj entries).get? "default" = none) :
      SpelledOut (obj entries) (typeUnion entries types)
  | constants {entries : List (String × Json)} {values : List Json}
      (form : (obj entries).form = .enumeration (.arr values))
      (simple : ∀ value ∈ values, value = .null ∨ value.category.isSome = true)
      (constant : ∃ value ∈ values, value ≠ .null)
      (noDefault : (obj entries).get? "default" = none) :
      SpelledOut (obj entries) (constantUnion values)

end Json

/-! ## Outlines of unions -/

namespace Outline

variable {definitions : Definitions} {exchange : Exchange} {fit : Fit} {o o' : Outline}
  {path path' : String} {metadata metadata' : List (String × Json)}

theorem Recast.nullableIf (nullable : Bool) (h : o.Recast definitions exchange fit o') :
    (nullableIf nullable path o).Recast definitions exchange fit (nullableIf nullable path' o') := by
  cases nullable with
  | false => exact h
  | true => exact .wrapper h

theorem Recast.unionOf {os os' : List Outline}
    (h : List.Forall₂ (Recast definitions exchange .firm) os os') :
    (unionOf path metadata os).Recast definitions exchange .firm (unionOf path' metadata' os') := by
  cases h with
  | nil => exact .union .nil
  | cons hfirst hrest =>
    cases hrest with
    | nil => exact hfirst
    | cons hsecond hrest => exact .union (.cons hfirst (.cons hsecond hrest))

theorem Constants.unionOf (path : String) (metadata : List (String × Json)) {os : List Outline}
    {values : List Json}
    (each : List.Forall₂ (fun o value => ∃ n h, o = .leaf n h ∧ n.shape = .literal value) os values) :
    (unionOf path metadata os).Constants values := by
  cases each with
  | nil => exact .union .nil
  | cons hfirst hrest =>
    cases hrest with
    | nil =>
      obtain ⟨n, h, rfl, hshape⟩ := hfirst
      exact .single hshape
    | cons hsecond hrest => exact .union (.cons hfirst (.cons hsecond hrest))

end Outline

namespace Json

variable {entries : List (String × Json)} {types values : List Json} {type value : Json}
  {key path base : String}

theorem isNullVariant_nullSchema : nullSchema.isNullVariant = true := by decide

theorem outline_oneOf (variants : List Json) (path : String) : (oneOf variants).outline path =
    .nullableIf (variants.any isNullVariant) path
      (.unionOf path (metadata [("oneOf", .arr variants)])
        (variantsOutline (path ++ "/" ++ "oneOf" ++ "/") 0 variants)) := outline_eq rfl path

/-! ## Lists of types -/

theorem get?_withType (entries : List (String × Json)) (type : Json) (key : String) :
    (withType entries type).get? key = if key = "type" then some type else (obj entries).get? key :=
  Entries.lookup_putPair ..

theorem form_withType (h : (obj entries).form = .typed (.arr types)) (type : Json) :
    (withType entries type).form = .typed type := by
  unfold form at h ⊢
  rw [get?_withType, get?_withType, get?_withType, get?_withType, get?_withType, get?_withType,
    get?_withType]
  repeat' split at h
  all_goals cases h
  simp only [*]
  rfl

theorem kindOutlines_withType (entries : List (String × Json)) (type : Json)
    (metadata : List (String × Json)) :
    (withType entries type).kindOutlines metadata = (obj entries).kindOutlines metadata := by
  have hsame : ∀ key, key ≠ "type" → (withType entries type).get? key = (obj entries).get? key :=
    fun key hkey => by rw [get?_withType, if_neg hkey]
  unfold kindOutlines
  simp only [fieldsOutline_eq, hsame "items" (by decide), hsame "format" (by decide),
    hsame "properties" (by decide), hsame "required" (by decide)]

theorem isNullVariant_typeVariant (entries : List (String × Json)) (type : Json) :
    (typeVariant entries type).isNullVariant = decide (type = nullType) := by
  unfold typeVariant
  split
  · rename_i h
    rw [isNullVariant_nullSchema, decide_eq_true h]
  · rw [isNullVariant, get?_withType, if_pos rfl]
    simp

theorem any_typeVariant (entries : List (String × Json)) (types : List Json) :
    (types.map (typeVariant entries)).any isNullVariant = decide (nullType ∈ types) := by
  rw [List.any_map, Bool.eq_iff_iff, List.any_eq_true, decide_eq_true_eq]
  simp only [Function.comp_apply, isNullVariant_typeVariant, decide_eq_true_eq, exists_eq_right]

/-- Each type is read in its variant as it is in the list. -/
theorem recast_typesOutline (definitions : Definitions) (h : (obj entries).form = .typed (.arr types))
    (path base : String) (metadata : List (String × Json)) : ∀ (index : Nat) (some : List Json),
      List.Forall₂ (fun o o' => o.Recast definitions .constants .firm o' ∧
          o'.Recast definitions .constants .firm o)
        (typesOutline ((obj entries).kindOutlines metadata) metadata path some)
        (variantsOutline base index (some.map (typeVariant entries)))
  | _, [] => by
    rw [typesOutline, List.map_nil, variantsOutline]
    exact .nil
  | index, type :: rest => by
    have hrest := recast_typesOutline definitions h path base metadata (index + 1) rest
    rw [typesOutline, List.map_cons, variantsOutline, isNullVariant_typeVariant]
    by_cases hnull : type = nullType
    · rw [if_pos hnull, if_pos (decide_eq_true hnull)]
      exact hrest
    · rw [if_neg hnull, if_neg (by simpa using hnull), typeVariant, if_neg hnull]
      refine .cons ?_ hrest
      have hself : ∀ m m', ((obj entries).kindOutlines m).Match definitions .constants
          ((obj entries).kindOutlines m') :=
        (Parallel.refl definitions .constants (obj entries)).kindOutlines
      rw [withType, outline_eq rfl, ← withType, form_withType h, kindOutlines_withType]
      exact ⟨((hself _ _).typeOutline _ _ type).recast, ((hself _ _).typeOutline _ _ type).recast⟩

/-! ## Enums -/

theorem isNullVariant_constantVariant (value : Json) :
    (constantVariant value).isNullVariant = decide (value = .null) := by
  unfold constantVariant
  split
  · rename_i h
    rw [isNullVariant_nullSchema, decide_eq_true h]
  · rename_i h
    rw [decide_eq_false h]
    rfl

theorem any_constantVariant (values : List Json) :
    (values.map constantVariant).any isNullVariant = decide (.null ∈ values) := by
  rw [List.any_map, Bool.eq_iff_iff, List.any_eq_true, decide_eq_true_eq]
  simp only [Function.comp_apply, isNullVariant_constantVariant, decide_eq_true_eq, exists_eq_right]

abbrev nonNull (values : List Json) : List Json := values.filter fun value => value ≠ .null

theorem constants_constantsOutline (path : String) : ∀ (index : Nat) (values : List Json),
    List.Forall₂ (fun o value => ∃ n h, o = .leaf n h ∧ n.shape = .literal value)
      (constantsOutline path index values) (nonNull values)
  | _, [] => .nil
  | index, .null :: rest => constants_constantsOutline path (index + 1) rest
  | index, .bool _ :: rest | index, .int _ :: rest | index, .float _ :: rest | index, .str _ :: rest
  | index, .arr _ :: rest | index, .obj _ :: rest =>
    .cons ⟨_, rfl, rfl, rfl⟩ (constants_constantsOutline path (index + 1) rest)

/-- The outlines of the variants of an enum are of the same constants. -/
theorem constants_variantsOutline (base : String) : ∀ (index : Nat) (values : List Json),
    List.Forall₂ (fun o value => ∃ n h, o = .leaf n h ∧ n.shape = .literal value)
      (variantsOutline base index (values.map constantVariant)) (nonNull values)
  | _, [] => by
    rw [List.map_nil, variantsOutline]
    exact .nil
  | index, value :: rest => by
    have hrest := constants_variantsOutline base (index + 1) rest
    rw [List.map_cons, variantsOutline, isNullVariant_constantVariant]
    by_cases hnull : value = .null
    · rw [if_pos (decide_eq_true hnull), nonNull, List.filter_cons_of_neg (by simpa using hnull)]
      exact hrest
    · rw [if_neg (by simpa using hnull), nonNull, List.filter_cons_of_pos (by simpa using hnull),
        constantVariant, if_neg hnull]
      exact .cons ⟨_, rfl, outline_eq rfl _, rfl⟩ hrest

/-- An enum and its union have constants with the same values, in the same wrapper. -/
theorem exists_constants (values : List Json) (metadata : List (String × Json)) (path path' : String) :
    ∃ nullable o o', o.Constants (nonNull values) ∧ o'.Constants (nonNull values) ∧
      enumerationOutline metadata path (.arr values) = .nullableIf nullable path o ∧
      (constantUnion values).outline path' = .nullableIf nullable path' o' := by
  have hright := constants_variantsOutline (path' ++ "/" ++ "oneOf" ++ "/") 0 values
  rw [constantUnion, outline_oneOf, any_constantVariant]
  have hunion := Outline.Constants.unionOf path'
    (Json.metadata [("oneOf", .arr (values.map constantVariant))]) hright
  unfold enumerationOutline
  by_cases htexts : values.all isText = true
  · have hnone : Json.null ∉ values := by
      intro hmem
      cases List.all_eq_true.1 htexts _ hmem
    have hall : nonNull values = values :=
      List.filter_eq_self.2 fun value hmem => decide_eq_true fun h => hnone (h ▸ hmem)
    rw [decide_eq_false hnone]
    rw [hall] at hunion ⊢
    refine ⟨false, .leaf ⟨path, metadata, .enumeration values⟩ rfl, _, .enumeration rfl htexts, hunion,
      ?_, rfl⟩
    dsimp only [items]
    rw [if_pos htexts]
    rfl
  · refine ⟨_, .union path metadata (constantsOutline path 0 values), _,
      .union (constants_constantsOutline path 0 values), hunion, ?_, rfl⟩
    dsimp only [items]
    rw [if_neg htexts]

/-! ## Standing in each other's place -/

theorem SpelledOut.fits {v w : Json} (h : v.SpelledOut w) (definitions : Definitions) :
    v.Fits definitions .constants w ∧ w.Fits definitions .constants v := by
  cases h with
  | @types entries types form typed =>
    have houtline : ∀ path, (obj entries).outline path = .nullableIf (decide (nullType ∈ types)) path
        (.unionOf path (metadata entries)
          (typesOutline ((obj entries).kindOutlines (metadata entries)) (metadata entries) path
            types)) := by
      intro path
      obtain ⟨type, hmem, hne⟩ := typed
      rw [outline_eq rfl, form]
      dsimp only
      rw [typeOutline, if_neg]
      simp only [List.all_eq_true, decide_eq_true_eq, not_forall]
      exact ⟨type, hmem, hne⟩
    have hall := fun path path' => recast_typesOutline definitions form path
      (path' ++ "/" ++ "oneOf" ++ "/") (metadata entries) 0 types
    have houtline' := fun path => (outline_oneOf (types.map (typeVariant entries)) path).trans
      (by rw [any_typeVariant])
    refine ⟨fun path path' => ?_, fun path path' => ?_⟩
    · rw [houtline, typeUnion, houtline']
      exact .nullableIf _ (Outline.Recast.unionOf ((hall _ _).imp fun _ _ h => h.1)).loose
    · rw [houtline, typeUnion, houtline']
      exact .nullableIf _ (Outline.Recast.unionOf ((hall _ _).flip.imp fun _ _ h => h.2)).loose
  | @constants entries values form simple constant =>
    have hnonempty : nonNull values ≠ [] := by
      obtain ⟨value, hmem, hne⟩ := constant
      exact List.ne_nil_of_mem (List.mem_filter.2 ⟨hmem, decide_eq_true hne⟩)
    have hsimple : ∀ value ∈ nonNull values, value.category.isSome = true := by
      intro value hmem
      obtain ⟨hmem, hne⟩ := List.mem_filter.1 hmem
      exact (simple value hmem).resolve_left (of_decide_eq_true hne)
    have houtline : ∀ path, (obj entries).outline path =
        enumerationOutline (metadata entries) path (.arr values) := by
      intro path
      rw [outline_eq rfl, form]
    refine ⟨fun path path' => ?_, fun path path' => ?_⟩
    · obtain ⟨nullable, o, o', ho, ho', hleft, hright⟩ :=
        exists_constants values (metadata entries) path path'
      rw [houtline, hleft, hright]
      exact .nullableIf _ (.constants rfl hnonempty hsimple ho ho')
    · obtain ⟨nullable, o, o', ho, ho', hleft, hright⟩ :=
        exists_constants values (metadata entries) path' path
      rw [houtline, hleft, hright]
      exact .nullableIf _ (.constants rfl hnonempty hsimple ho' ho)

/-- A schema and the union that it is short for can stand in each other's place. -/
theorem SpelledOut.interchangeable {v w : Json} (h : v.SpelledOut w) (definitions : Definitions) :
    v.Interchangeable definitions .constants w ∧ w.Interchangeable definitions .constants v := by
  obtain ⟨hfits, hfits'⟩ := h.fits definitions
  cases h with
  | types _ _ noDefault | constants _ _ _ noDefault =>
    exact ⟨⟨⟨⟨_, rfl⟩, _, rfl⟩, noDefault, hfits⟩, ⟨⟨⟨_, rfl⟩, _, rfl⟩, noDefault.symm, hfits'⟩⟩

end Json

/-! ## Errors -/

section
variable {schema schema' v w : Json} {ds ds' : Definitions} {root : String} {s t : Session} {f : Fault}
  {o : Options} {batch : Batch}

namespace Json.Restates

theorem structural (H : Restates .constants schema schema' ds ds')
    (hw : schema.WellShapedDocument root) (h : readDocument schema' root s = .error f t) :
    f.isStructural = true := by
  obtain ⟨definitions, hd, hshaped⟩ := hw.exists_definitions
  cases H.left.symm.trans hd
  obtain ⟨v, hway, hstop⟩ := readDocument_eq_error H.right h
  have hbody : ∀ name body', ds'.lookup name = some body' → ∃ body : Json, body.WellShaped ∧
      body.isPlainObject = body'.isPlainObject ∧ body.Matches ds .constants body' := by
    intro name body' hl
    obtain ⟨⟨_, body⟩, hmem, -, hplain, hsame⟩ :=
      exists_mem_left H.each (Definitions.mem_of_lookup hl)
    exact ⟨body, hshaped _ hmem, hplain, hsame⟩
  -- A fault in an outline is of the kind of one in the outline that it says the same as.
  have hholds : ∀ {body body' : Json} {path : String}, body.WellShaped →
      body.Matches ds .constants body' → ∀ f, (body'.outline path).Holds f → f.isStructural = true := by
    intro body body' path hshaped hsame f hf
    obtain ⟨f₀, hf₀, hkind⟩ := (hsame path path).recast.holds hf
    exact hkind ▸ hshaped.isStructural hf₀
  have hdefs : ds'.Tells fun f => f.isStructural = true := by
    intro name body' hl path f hf
    obtain ⟨body, hshaped, -, hsame⟩ := hbody name body' hl
    exact hholds hshaped hsame f hf
  have hroot : ∀ o, schema'.rootOutline root = some o → ∀ f, o.Holds f → f.isStructural = true := by
    intro o ho f hf
    unfold Json.rootOutline at ho
    split at ho
    · rename_i hread
      cases ho
      exact hholds (hw.root (H.applies ▸ hread.1) hread.2) H.root f hf
    · cases ho
  rcases hstop.told hdefs (Goes.tells_of_reaches hway hdefs (Json.tells_visit hroot s)) with
    hf | ⟨name, body', hl, hf⟩ | ⟨cause, rfl, -⟩
  · exact hf
  · obtain ⟨body, hshaped, hplain, -⟩ := hbody name body' hl
    have hobject := hshaped.tidy.isObject
    rw [(Json.isPlainObject_error (hplain.trans hf)).2] at hobject
    cases hobject
  · rfl

end Json.Restates

end

end ShapeSdl
