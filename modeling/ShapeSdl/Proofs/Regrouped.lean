import ShapeSdl.Proofs.Alongside
import ShapeSdl.Proofs.Required
import ShapeSdl.Proofs.Retold

/-!
# Documents with parts in other groups

Some parts of an `allOf` may be written as one part, an `allOf` of its own. It makes no difference, and
neither does an `allOf` without parts among them.

* `Outline.Regrouped`, `Json.Regrouped` : outlines and schemas that say the same with parts of merged
  objects in other groups;
* `Json.Place`, `Json.DocumentPlace` : a schema, and a document, with a place for a schema at any depth;
* `Place.regrouped` : what stands in a place may be regrouped there;
* `Json.Groups` : a document, and the document with some parts of an `allOf` in a group;
* `compile_regrouped` : the two can both be read or none, and compile to the same.
-/

namespace ShapeSdl

/-! ## Outlines -/

namespace Piece.Regrouped

variable {os os' : List Outline}

theorem each (h : List.Forall₂ (fun o o' => Regrouped (.job (.outline o)) (.job (.outline o'))) os os') :
    Regrouped (.each (os.map .outline)) (.each (os'.map .outline)) := by
  induction h with
  | nil => exact .nil
  | cons hfirst _ ih => exact .cons hfirst ih

theorem eachField {fields fields' : List (String × Outline)}
    (h : List.Forall₂ (fun o o' => Regrouped (.job (.outline o)) (.job (.outline o')))
      (fields.map Prod.snd) (fields'.map Prod.snd)) :
    Regrouped (.each (Outline.fieldJobs fields)) (.each (Outline.fieldJobs fields')) := by
  have heach := Regrouped.each h
  rwa [List.map_map, List.map_map] at heach

theorem eachPart
    (h : List.Forall₂ (fun o o' => Regrouped (.job (.outline o)) (.job (.outline o'))) os os') :
    Regrouped (.parts os) (.parts os') := by
  induction h with
  | nil => exact .noPart
  | cons hfirst _ ih => exact .part hfirst ih

theorem definitions (ds : Definitions) : Regrouped (.each ds.jobs) (.each ds.jobs) := by
  unfold Definitions.jobs
  induction ds with
  | nil => exact .nil
  | cons d rest ih => exact .cons .definition ih

end Piece.Regrouped

namespace Outline

/-- What says the same with nothing exchanged has its parts in the same groups. -/
theorem Recast.regrouped {fit : Fit} {o o' : Outline} (h : o.Recast [] (.inlined "") fit o') :
    Piece.Regrouped (.job (.outline o)) (.job (.outline o')) := by
  cases h with
  | fault => exact .fault
  | refused => exact .refused
  | reference => exact .reference
  | leaf shape => exact .leaf shape
  | wrapper inside => exact .wrapper inside.regrouped
  | list inside => exact .list inside.regrouped
  | union inside => exact .union (.each (forall₂_imp_of_mem inside fun o _ o' h => h.regrouped))
  | object names inside =>
    refine .object names (.eachField (forall₂_imp_of_mem inside fun o ho o' h => ?_))
    obtain ⟨field, hfield, rfl⟩ := List.mem_map.1 ho
    exact h.regrouped
  | merge inside => exact .merge (.eachPart (forall₂_imp_of_mem inside fun o _ o' h => h.regrouped))
  | inlined _ _ defined => cases defined
  | constants isConstants => cases isConstants
termination_by sizeOf o
decreasing_by
  all_goals simp only [wrapper.sizeOf_spec, list.sizeOf_spec, union.sizeOf_spec, object.sizeOf_spec,
    merge.sizeOf_spec]
  · omega
  · omega
  · have := List.sizeOf_lt_of_mem ‹_ ∈ _›
    omega
  · have := List.sizeOf_lt_of_mem hfield
    obtain ⟨name, o⟩ := field
    simp only [Prod.mk.sizeOf_spec] at this ⊢
    omega
  · have := List.sizeOf_lt_of_mem ‹_ ∈ _›
    omega

/-- Outlines at one place that say the same with parts in other groups. -/
structure Regrouped (o o' : Outline) : Prop where
  piece : Piece.Regrouped (.job (.outline o)) (.job (.outline o'))
  path?_eq : o.path? = o'.path?

variable {o o' : Outline} {os os' : List Outline} {path : String}
  {metadata metadata' : List (String × Json)}

theorem Matches.regrouped {same : Prop} (h : o.Matches [] (.inlined "") same o') (hs : same) :
    o.Regrouped o' := ⟨h.recast.regrouped, h.path?_eq hs⟩

theorem Regrouped.symm (h : o.Regrouped o') : o'.Regrouped o := ⟨h.piece.symm, h.path?_eq.symm⟩

theorem Regrouped.colocated (h : o.Regrouped o') : o.Colocated o' := by
  obtain ⟨hpiece, hpath⟩ := h
  cases hpiece with
  | reference => exact .reference
  | _ => exact .other rfl rfl hpath

theorem Regrouped.nullableIf (nullable : Bool) (h : o.Regrouped o') :
    (nullableIf nullable path o).Regrouped (nullableIf nullable path o') := by
  cases nullable with
  | false => exact h
  | true => exact ⟨.wrapper h.piece, rfl⟩

theorem Regrouped.unionOf (h : List.Forall₂ Regrouped os os') :
    (unionOf path metadata os).Regrouped (unionOf path metadata' os') := by
  have hunion : (union path metadata os).Regrouped (union path metadata' os') :=
    ⟨.union (.each (h.imp fun _ _ h => h.piece)), rfl⟩
  cases h with
  | nil => exact hunion
  | cons hfirst hrest =>
    cases hrest with
    | nil => exact hfirst
    | cons => exact hunion

end Outline

structure TypeOutlines.Regrouped (kinds kinds' : TypeOutlines) : Prop where
  array : ∀ path, (kinds.array path).Regrouped (kinds'.array path)
  object : ∀ path, (kinds.object path).Regrouped (kinds'.object path)
  scalar : ∀ type path, (kinds.scalar type path).Regrouped (kinds'.scalar type path)

section
variable {kinds kinds' : TypeOutlines} {metadata metadata' : List (String × Json)}

mutual

theorem TypeOutlines.Regrouped.typeOutline (h : kinds.Regrouped kinds') (path : String) :
    ∀ (type : Json), (typeOutline kinds metadata path type).Regrouped
      (typeOutline kinds' metadata' path type)
  | .arr types => by
    unfold ShapeSdl.typeOutline
    split
    · exact ⟨.fault, rfl⟩
    · exact .nullableIf _ (.unionOf (h.typesOutline path types))
  | .str s => by
    by_cases ha : s = "array"
    · subst ha
      exact h.array path
    · by_cases ho : s = "object"
      · subst ho
        exact h.object path
      · have ha' : Json.str s = .str "array" → False := by simpa using ha
        have ho' : Json.str s = .str "object" → False := by simpa using ho
        rw [typeOutline.eq_4 _ _ _ _ (by simp) ha' ho', typeOutline.eq_4 _ _ _ _ (by simp) ha' ho']
        exact h.scalar _ path
  | .null | .bool _ | .int _ | .float _ | .obj _ => h.scalar _ path

theorem TypeOutlines.Regrouped.typesOutline (h : kinds.Regrouped kinds') (path : String) :
    ∀ (types : List Json), List.Forall₂ Outline.Regrouped (typesOutline kinds metadata path types)
      (typesOutline kinds' metadata' path types)
  | [] => .nil
  | type :: rest => by
    have hfirst := h.typeOutline (path ++ "/type/" ++ type.plain) type
    have hrest := h.typesOutline path rest
    unfold ShapeSdl.typesOutline
    split
    · exact hrest
    · exact .cons hfirst hrest

end

end

/-! ## Schemas -/

namespace Json

/-- Two schemas that say the same with parts in other groups. -/
structure Regrouped (v w : Json) : Prop where
  eq_or_objects : v = w ∨ (∃ es, v = obj es) ∧ ∃ es, w = obj es
  type_eq : v.get? "type" = w.get? "type"
  default_eq : v.get? "default" = w.get? "default"
  properties_eq : (v.get? "properties").isSome = (w.get? "properties").isSome
  isPlainObject_eq : v.isPlainObject = w.isPlainObject
  outline : ∀ path, (v.outline path).Regrouped (w.outline path)

theorem Regrouped.refl (v : Json) : v.Regrouped v where
  eq_or_objects := .inl rfl
  type_eq := rfl
  default_eq := rfl
  properties_eq := rfl
  isPlainObject_eq := rfl
  outline path := (matches_self [] (.inlined "") v path path).regrouped rfl

theorem Regrouped.symm {v w : Json} (h : v.Regrouped w) : w.Regrouped v where
  eq_or_objects := h.eq_or_objects.imp Eq.symm And.symm
  type_eq := h.type_eq.symm
  default_eq := h.default_eq.symm
  properties_eq := h.properties_eq.symm
  isPlainObject_eq := h.isPlainObject_eq.symm
  outline path := (h.outline path).symm

section
variable {es es' : List (String × Json)} {s s' v w : Json} {vs ws : List Json} {key path : String}

/-! ### Subschemas -/

theorem regrouped_partsOutline (path path' : String) : ∀ (index index' : Nat) (vs : List Json),
    Piece.Regrouped (.parts (partsOutline path index vs)) (.parts (partsOutline path' index' vs))
  | _, _, [] => by
    rw [partsOutline, partsOutline]
    exact .noPart
  | index, index', v :: vs => by
    rw [partsOutline, partsOutline]
    exact .part (matches_self [] (.inlined "") v _ _).recast.regrouped
      (regrouped_partsOutline path path' (index + 1) (index' + 1) vs)

theorem regrouped_eachPart (h : List.Forall₂ Regrouped vs ws) : ∀ index,
    Piece.Regrouped (.parts (partsOutline path index vs)) (.parts (partsOutline path index ws)) := by
  induction h with
  | nil =>
    intro index
    rw [partsOutline]
    exact .noPart
  | cons hfirst _ ih =>
    intro index
    rw [partsOutline, partsOutline]
    exact .part (hfirst.outline _).piece (ih (index + 1))

theorem regrouped_eachVariant (h : List.Forall₂ Regrouped vs ws) : ∀ index,
    vs.any isNullVariant = ws.any isNullVariant ∧ List.Forall₂ Outline.Regrouped
      (variantsOutline path index vs) (variantsOutline path index ws) := by
  induction h with
  | nil =>
    intro index
    rw [variantsOutline]
    exact ⟨rfl, .nil⟩
  | @cons v w _ _ hfirst _ ih =>
    intro index
    obtain ⟨hany, hall⟩ := ih (index + 1)
    have hnull : v.isNullVariant = w.isNullVariant := by
      rw [isNullVariant, isNullVariant, hfirst.type_eq]
    rw [variantsOutline, variantsOutline, List.any_cons, List.any_cons, hnull, hany]
    refine ⟨rfl, ?_⟩
    split
    · exact hall
    · exact .cons (hfirst.outline _) hall

theorem regrouped_fieldOutline {required : Json} {name : String} (h : v.Regrouped w) :
    Piece.Regrouped (.job (.outline (fieldOutline required name v path (v.outline path))))
      (.job (.outline (fieldOutline required name w path (w.outline path)))) := by
  unfold fieldOutline
  rw [h.default_eq]
  cases w.get? "default" with
  | some value => exact .wrapper (h.outline path).piece
  | none =>
    cases required.holds name with
    | error f => exact .refused
    | ok holds =>
      cases holds with
      | true => exact (h.outline path).piece
      | false => exact .wrapper (h.outline path).piece

theorem regrouped_eachProperty {ps qs : List (String × Json)} {required : Json} {base : String}
    {metadata metadata' : List (String × Json)}
    (h : List.Forall₂ (fun p q => p.1 = q.1 ∧ p.2.Regrouped q.2) ps qs) :
    (Outline.ofFields path metadata (.ok (propertiesOutline required base ps))).Regrouped
      (.ofFields path metadata' (.ok (propertiesOutline required base qs))) := by
  rw [propertiesOutline_eq_map, propertiesOutline_eq_map]
  refine ⟨.object ?_ (.eachField ?_), rfl⟩
  · rw [List.map_map, List.map_map, ← List.forall₂_eq_eq_eq, List.forall₂_map_left_iff,
      List.forall₂_map_right_iff]
    exact h.imp fun _ _ h => h.1
  · rw [List.map_map, List.map_map, List.forall₂_map_left_iff, List.forall₂_map_right_iff]
    refine h.imp fun p q h => ?_
    obtain ⟨name, v⟩ := p
    obtain ⟨_, w⟩ := q
    obtain ⟨rfl, hsame⟩ := h
    exact regrouped_fieldOutline hsame

/-! ### Kinds of types -/

section
variable {metadata metadata' : List (String × Json)}

theorem regrouped_kindOutlines (s : Json) (metadata metadata' : List (String × Json)) :
    (s.kindOutlines metadata).Regrouped (s.kindOutlines metadata') := by
  have hself := (Parallel.refl [] (.inlined "") s).kindOutlines metadata metadata'
  exact ⟨fun path => (hself.array path path).regrouped rfl,
    fun path => (hself.object path path).regrouped rfl,
    fun type path => (hself.scalar type path path).regrouped rfl⟩

theorem regrouped_array (hitems : s.get? "items" = s'.get? "items") (path : String) :
    ((s.kindOutlines metadata).array path).Regrouped ((s'.kindOutlines metadata').array path) := by
  have heq : (s'.kindOutlines metadata').array path = (s.kindOutlines metadata').array path := by
    unfold kindOutlines
    rw [hitems]
  rw [heq]
  exact (regrouped_kindOutlines s metadata metadata').array path

theorem regrouped_object (hproperties : s.get? "properties" = s'.get? "properties")
    (hrequired : s.get? "required" = s'.get? "required") (path : String) :
    ((s.kindOutlines metadata).object path).Regrouped ((s'.kindOutlines metadata').object path) := by
  have heq : (s'.kindOutlines metadata').object path = (s.kindOutlines metadata').object path := by
    unfold kindOutlines
    dsimp only
    rw [fieldsOutline_eq, fieldsOutline_eq, hproperties, hrequired]
  rw [heq]
  exact (regrouped_kindOutlines s metadata metadata').object path

theorem regrouped_scalar (hformat : s.get? "format" = s'.get? "format") (type : Json) (path : String) :
    ((s.kindOutlines metadata).scalar type path).Regrouped
      ((s'.kindOutlines metadata').scalar type path) := by
  have heq : (s'.kindOutlines metadata').scalar type path =
      (s.kindOutlines metadata').scalar type path := by
    unfold kindOutlines
    rw [hformat]
  rw [heq]
  exact (regrouped_kindOutlines s metadata metadata').scalar type path

end

/-! ### Forms -/

inductive FormRegrouped : Form → Form → Prop
  | same {f : Form} : FormRegrouped f f
  | union {key : String} {vs ws : List Json} (inside : List.Forall₂ Regrouped vs ws) :
      FormRegrouped (.union key (.arr vs)) (.union key (.arr ws))
  | merge {vs ws : List Json} (inside : ∀ path, Piece.Regrouped (.parts (partsOutline path 0 vs))
      (.parts (partsOutline path 0 ws))) : FormRegrouped (.merge (.arr vs)) (.merge (.arr ws))

/-- Two schemas say the same if what decides how they are read does, and all kinds of types. -/
theorem Regrouped.of_form (htype : (obj es).get? "type" = (obj es').get? "type")
    (hdefault : (obj es).get? "default" = (obj es').get? "default")
    (hproperties : ((obj es).get? "properties").isSome = ((obj es').get? "properties").isSome)
    (hform : FormRegrouped (obj es).form (obj es').form)
    (hkinds : ((obj es).kindOutlines (metadata es)).Regrouped
      ((obj es').kindOutlines (metadata es'))) : Regrouped (obj es) (obj es') where
  eq_or_objects := .inr ⟨⟨es, rfl⟩, es', rfl⟩
  type_eq := htype
  default_eq := hdefault
  properties_eq := hproperties
  isPlainObject_eq := by
    unfold isPlainObject
    rw [hproperties]
    generalize (obj es).form = f at hform ⊢
    generalize (obj es').form = f' at hform ⊢
    cases hform <;> rfl
  outline path := by
    rw [outline_eq rfl, outline_eq rfl]
    generalize (obj es).form = f at hform ⊢
    generalize (obj es').form = f' at hform ⊢
    cases hform with
    | same =>
      cases f with
      | reference => exact ⟨.reference, rfl⟩
      | constant => exact ⟨.leaf rfl, rfl⟩
      | union key v =>
        cases hv : v.schemas with
        | error => simp only [hv]; exact ⟨.fault, rfl⟩
        | ok vs =>
          simp only [hv]
          exact .nullableIf _ (.unionOf
            (regrouped_eachVariant (List.forall₂_same.2 fun v _ => .refl v) 0).2)
      | merge v =>
        cases hv : v.schemas with
        | error => simp only [hv]; exact ⟨.fault, rfl⟩
        | ok vs => simp only [hv]; exact ⟨.merge (regrouped_partsOutline path path 0 0 vs), rfl⟩
      | enumeration values => exact (matches_enumerationOutline values).regrouped rfl
      | typed type => exact hkinds.typeOutline path type
      | untyped => exact hkinds.object path
    | union inside =>
      obtain ⟨hany, hall⟩ := regrouped_eachVariant inside 0
      simp only [schemas, hany]
      exact .nullableIf _ (.unionOf hall)
    | merge inside => exact ⟨.merge (inside path), rfl⟩

/-- The keywords that may decide how a schema is read. -/
def formKeys : List String := ["$ref", "const", "oneOf", "anyOf", "allOf", "enum", "type"]

/-- The keywords that a schema is read by. -/
def keywords : List String := formKeys ++ ["properties", "required", "items", "format", "default"]

theorem form_congr (hget : ∀ key ∈ formKeys, s.get? key = s'.get? key) : s.form = s'.form := by
  unfold form
  rw [hget "$ref" (by decide), hget "const" (by decide), hget "oneOf" (by decide),
    hget "anyOf" (by decide), hget "allOf" (by decide), hget "enum" (by decide),
    hget "type" (by decide)]

/-! ### One value -/

namespace DifferAt

/-- A keyword that schemas are not read by makes no difference. -/
theorem regrouped_of_unread (h : DifferAt key v w es es') (unread : key ∉ keywords) :
    Regrouped (obj es) (obj es') := by
  have hget : ∀ other ∈ keywords, (obj es).get? other = (obj es').get? other :=
    fun other hother => h.others other fun he => unread (he ▸ hother)
  refine .of_form (hget _ (by decide)) (hget _ (by decide)) (by rw [hget "properties" (by decide)]) ?_
    ⟨regrouped_array (hget _ (by decide)), regrouped_object (hget _ (by decide)) (hget _ (by decide)),
      regrouped_scalar (hget _ (by decide))⟩
  rw [form_congr fun other hother => hget other (List.mem_append_left _ hother)]
  exact .same

theorem regrouped_of_properties {ps qs : List (String × Json)}
    (h : DifferAt "properties" (.obj ps) (.obj qs) es es')
    (inside : List.Forall₂ (fun p q => p.1 = q.1 ∧ p.2.Regrouped q.2) ps qs) :
    Regrouped (obj es) (obj es') := by
  have hform := form_congr fun other hother => h.others other (by rintro rfl; revert hother; decide)
  have hobject : ∀ path, (((obj es).kindOutlines (metadata es)).object path).Regrouped
      (((obj es').kindOutlines (metadata es')).object path) := by
    intro path
    rcases h.cases with hsame | ⟨hv, hw⟩
    · exact regrouped_object (hsame _) (hsame _) path
    · unfold kindOutlines
      dsimp only
      rw [fieldsOutline_eq, fieldsOutline_eq, hv, hw, h.others "required" (by decide)]
      exact regrouped_eachProperty inside
  refine .of_form (h.others _ (by decide)) (h.others _ (by decide)) ?_ (hform ▸ .same)
    ⟨regrouped_array (h.others _ (by decide)), hobject, regrouped_scalar (h.others _ (by decide))⟩
  rcases h.cases with hsame | ⟨hv, hw⟩
  · rw [hsame]
  · rw [hv, hw]
    rfl

theorem regrouped_of_items (h : DifferAt "items" v w es es')
    (harray : (obj es).get? "items" = some v → (obj es').get? "items" = some w → ∀ path,
      (((obj es).kindOutlines (metadata es)).array path).Regrouped
        (((obj es').kindOutlines (metadata es')).array path)) : Regrouped (obj es) (obj es') := by
  have hform := form_congr fun other hother => h.others other (by rintro rfl; revert hother; decide)
  refine .of_form (h.others _ (by decide)) (h.others _ (by decide)) (by rw [h.others _ (by decide)])
    (hform ▸ .same) ⟨fun path => ?_, regrouped_object (h.others _ (by decide)) (h.others _ (by decide)),
      regrouped_scalar (h.others _ (by decide))⟩
  rcases h.cases with hsame | ⟨hv, hw⟩
  · exact regrouped_array (hsame _) path
  · exact harray hv hw path

/-- The variants of a union, or the parts of a merged object, decide if no keyword before them does. -/
theorem form_cases (h : DifferAt key v w es es') (mem : key ∈ variantKeys) :
    (obj es).form = (obj es').form ∨
    key ≠ "allOf" ∧ (obj es).form = .union key v ∧ (obj es').form = .union key w ∨
    key = "allOf" ∧ (obj es).form = .merge v ∧ (obj es').form = .merge w := by
  rcases h.cases with hsame | ⟨hv, hw⟩
  · exact .inl (form_congr fun other _ => hsame other)
  have hother := h.others
  have hmem : key = "oneOf" ∨ key = "anyOf" ∨ key = "allOf" := by simpa [variantKeys] using mem
  unfold form
  rcases hmem with rfl | rfl | rfl
  · rw [hother "$ref" (by decide), hother "const" (by decide), hv, hw]
    cases (obj es').get? "$ref" <;> cases (obj es').get? "const" <;> simp
  · rw [hother "$ref" (by decide), hother "const" (by decide), hother "oneOf" (by decide), hv, hw]
    cases (obj es').get? "$ref" <;> cases (obj es').get? "const" <;>
      cases (obj es').get? "oneOf" <;> simp
  · rw [hother "$ref" (by decide), hother "const" (by decide), hother "oneOf" (by decide),
      hother "anyOf" (by decide), hv, hw]
    cases (obj es').get? "$ref" <;> cases (obj es').get? "const" <;>
      cases (obj es').get? "oneOf" <;> cases (obj es').get? "anyOf" <;> simp

theorem regrouped_of_variantKey (h : DifferAt key v w es es') (mem : key ∈ variantKeys)
    (hunion : key ≠ "allOf" → FormRegrouped (.union key v) (.union key w))
    (hmerge : key = "allOf" → FormRegrouped (.merge v) (.merge w)) : Regrouped (obj es) (obj es') := by
  have hget : ∀ other ∉ variantKeys, (obj es).get? other = (obj es').get? other :=
    fun other hother => h.others other fun he => hother (he ▸ mem)
  refine .of_form (hget _ (by decide)) (hget _ (by decide)) (by rw [hget "properties" (by decide)]) ?_
    ⟨regrouped_array (hget _ (by decide)), regrouped_object (hget _ (by decide)) (hget _ (by decide)),
      regrouped_scalar (hget _ (by decide))⟩
  rcases h.form_cases mem with heq | ⟨hne, hv, hw⟩ | ⟨he, hv, hw⟩
  · rw [heq]
    exact .same
  · rw [hv, hw]
    exact hunion hne
  · rw [hv, hw]
    exact hmerge he

end DifferAt

/-! ### Groups of parts -/

theorem partsOutline_append (path : String) : ∀ (index : Nat) (vs ws : List Json),
    partsOutline path index (vs ++ ws) =
      partsOutline path index vs ++ partsOutline path (index + vs.length) ws
  | index, [], ws => by rw [partsOutline]; rfl
  | index, v :: vs, ws => by
    rw [List.cons_append, partsOutline, partsOutline, partsOutline_append path (index + 1) vs ws,
      List.length_cons, Nat.add_right_comm, Nat.add_assoc]
    rfl

/-- A part that is a group of parts and nothing else. -/
def group (parts : List Json) : Json := obj [("allOf", arr parts)]

theorem outline_group (parts : List Json) (path : String) : (group parts).outline path =
    .merge path (metadata [("allOf", arr parts)]) (partsOutline path 0 parts) := by
  rw [group, outline_eq rfl]
  rfl

theorem regrouped_group (path : String) (members after : List Json) : ∀ (index : Nat) (before : List Json),
    Piece.Regrouped (.parts (partsOutline path index (before ++ members ++ after)))
      (.parts (partsOutline path index (before ++ group members :: after)))
  | index, [] => by
    rw [List.nil_append, List.nil_append, partsOutline_append, partsOutline, outline_group]
    exact .grouped (regrouped_partsOutline ..) (regrouped_partsOutline ..)
  | index, v :: before => by
    rw [List.append_assoc, List.cons_append, List.cons_append, partsOutline, partsOutline,
      ← List.append_assoc]
    exact .part ((Regrouped.refl v).outline _).piece (regrouped_group path members after (index + 1) before)

def allOf (before : List (String × Json)) (parts : List Json) (after : List (String × Json)) : Json :=
  obj (before ++ ("allOf", arr parts) :: after)

theorem regrouped_allOf (before after : List (String × Json)) (parts members parts' : List Json) :
    Regrouped (allOf before (parts ++ members ++ parts') after)
      (allOf before (parts ++ group members :: parts') after) :=
  (differAt before after "allOf" _ _).regrouped_of_variantKey (by decide) (fun h => absurd rfl h)
    fun _ => .merge fun path => regrouped_group path members parts' 0 parts

end

/-! ## Places -/

/-- A schema with a place for a schema in it, at any depth. What stands under keywords that schemas are
not read by may be anything; of these `apart` are left out. -/
inductive Place : List String → (Json → Json) → Prop
  | here {apart : List String} : Place apart fun v => v
  | inSlot {apart : List String} {F G : Json → Json} (here : Slot F) (inside : Place [] G) :
      Place apart fun v => F (G v)
  | inTuple {apart : List String} {G : Json → Json} (before after : List (String × Json))
      (items items' : List Json) (inside : Place [] G) :
      Place apart fun v => obj (before ++ ("items", arr (items ++ G v :: items')) :: after)
  | inVariant {apart : List String} {G : Json → Json} {key : String} (before after : List (String × Json))
      (variants variants' : List Json) (mem : key ∈ variantKeys) (inside : Place [] G) :
      Place apart fun v => obj (before ++ (key, arr (variants ++ G v :: variants')) :: after)
  | unread {apart : List String} {key : String} (before after : List (String × Json)) (F : Json → Json)
      (unread : key ∉ keywords ++ apart) : Place apart fun v => obj (before ++ (key, F v) :: after)

/-- A document with a place for a schema in its root or in one of its definitions. -/
inductive DocumentPlace : (Json → Json) → Prop
  | root {F : Json → Json} (inside : Place Reference.containers F) : DocumentPlace F
  | definition {G : Json → Json} {key : String}
      (before after container container' : List (String × Json)) (name : String)
      (mem : key ∈ Reference.containers) (inside : Place [] G) : DocumentPlace fun v =>
        obj (before ++ (key, obj (container ++ (name, G v) :: container')) :: after)

section
variable {v w : Json} {F : Json → Json} {apart : List String}

theorem Slot.regrouped (h : Slot F) (hvw : v.Regrouped w) : (F v).Regrouped (F w) := by
  cases h with
  | property before after properties properties' name =>
    have hself : ∀ l : List (String × Json),
        List.Forall₂ (fun p q => p.1 = q.1 ∧ p.2.Regrouped q.2) l l :=
      fun l => List.forall₂_same.2 fun p _ => ⟨rfl, .refl p.2⟩
    exact (differAt before after "properties" _ _).regrouped_of_properties
      (List.rel_append (hself properties) (.cons ⟨rfl, hvw⟩ (hself properties')))
  | items before after =>
    rcases hvw.eq_or_objects with rfl | ⟨⟨fs, rfl⟩, gs, rfl⟩
    · exact .refl _
    · refine (differAt before after "items" _ _).regrouped_of_items fun hv hw path => ?_
      unfold kindOutlines
      dsimp only
      rw [hv, hw]
      exact ⟨.list (hvw.outline _).piece, rfl⟩

theorem Place.regrouped (h : Place apart F) (hvw : v.Regrouped w) : (F v).Regrouped (F w) := by
  induction h with
  | here => exact hvw
  | inSlot here _ ih => exact here.regrouped ih
  | inTuple before after =>
    -- A list of items is refused, whatever they are.
    refine (differAt before after "items" _ _).regrouped_of_items fun hv hw path => ?_
    unfold kindOutlines
    dsimp only
    rw [hv, hw]
    exact ⟨.fault, rfl⟩
  | @inVariant _ G key before after variants variants' mem _ ih =>
    have hself : ∀ l : List Json, List.Forall₂ Regrouped l l :=
      fun l => List.forall₂_same.2 fun u _ => .refl u
    have hall := List.rel_append (hself variants) (.cons ih (hself variants'))
    exact (differAt before after key _ _).regrouped_of_variantKey mem (fun _ => .union hall)
      fun _ => .merge fun path => regrouped_eachPart hall 0
  | unread before after F unread =>
    exact (differAt before after _ _ _).regrouped_of_unread fun h => unread (List.mem_append_left _ h)

theorem Place.get?_container (h : Place Reference.containers F)
    (hvw : ∀ key ∈ Reference.containers, v.get? key = w.get? key) :
    ∀ key ∈ Reference.containers, (F v).get? key = (F w).get? key := by
  intro key hkey
  cases h with
  | here => exact hvw key hkey
  | inSlot here => exact here.get?_container key hkey _ _
  | inTuple => exact get?_of_ne (by rintro rfl; revert hkey; decide)
  | inVariant before after variants variants' mem => exact get?_container_of_variantKey mem hkey
  | unread before after F unread =>
    exact get?_of_ne fun he => unread (List.mem_append_right _ (he ▸ hkey))

end

/-! ## Documents -/

/-- Two documents that say the same with parts in other groups. -/
structure Regroups (schema schema' : Json) (ds ds' : Definitions) : Prop where
  left : schema.definitions = .ok ds
  right : schema'.definitions = .ok ds'
  each : ds.Related Regrouped ds'
  root : schema.Regrouped schema'

theorem DocumentPlace.regroups {F : Json → Json} (h : DocumentPlace F) {v w : Json} {ds : Definitions}
    (hd : (F v).definitions = .ok ds) (hvw : v.Regrouped w)
    (hcontainers : ∀ key ∈ Reference.containers, v.get? key = w.get? key) :
    ∃ ds', Regroups (F v) (F w) ds ds' := by
  have hself : ∀ l : Definitions, l.Related Regrouped l :=
    fun l => List.forall₂_same.2 fun d _ => ⟨rfl, .refl d.2⟩
  cases h with
  | root inside =>
    have hroot := inside.regrouped hvw
    have hget := inside.get?_container hcontainers
    rcases hroot.eq_or_objects with heq | ⟨⟨es, hv⟩, es', hw⟩
    · exact ⟨ds, hd, heq ▸ hd, hself ds, hroot⟩
    · rw [hv, hw] at hget hroot
      rw [hv] at hd ⊢
      rw [hw]
      exact ⟨ds, hd, definitions_congr hget hd, hself ds, hroot⟩
  | @definition G key before after container container' name mem inside =>
    have hbody := inside.regrouped hvw
    have hunread : ∀ key ∈ Reference.containers, key ∉ keywords := by decide
    have hroot := (differAt before after key (obj (container ++ (name, G v) :: container'))
      (obj (container ++ (name, G w) :: container'))).regrouped_of_unread (hunread key mem)
    rcases hbody.eq_or_objects with heq | ⟨⟨es, hv⟩, es', hw⟩
    · dsimp only at hd ⊢
      rw [← heq]
      exact ⟨ds, hd, hd, hself ds, .refl _⟩
    · dsimp only at hd ⊢
      rw [hv, hw] at hbody hroot
      rw [hv] at hd ⊢
      rw [hw]
      obtain ⟨ds', hd', hall⟩ := exists_definitions Regrouped.refl before after container container' key
        name hbody hd
      exact ⟨ds', hd, hd', hall, hroot⟩

namespace Regroups

variable {schema schema' : Json} {ds ds' : Definitions} {root : String} {batch : Batch} {t : Session}

theorem regrouped (H : Regroups schema schema' ds ds') : ds.Regrouped ds' := by
  intro name body h
  obtain ⟨body', h', hsame⟩ := H.each.exists_lookup h
  exact ⟨body', h', hsame.isPlainObject_eq, (hsame.outline _).piece⟩

/-- What is read of a document can be read of one with parts in other groups. -/
theorem readBeside (H : Regroups schema schema' ds ds') (t : Session) :
    ReadBeside .constants schema schema' ds ds' t where
  left := H.left
  right := H.right
  names_eq := H.each.names_eq
  colocated name body h := by
    obtain ⟨body', h', hsame⟩ := H.each.exists_lookup h
    exact ⟨body', h', (hsame.outline _).colocated⟩
  applies := H.root.properties_eq
  definitions hr he := by
    obtain ⟨C, ids', u', -, hread, hb, -⟩ := (Piece.Regrouped.definitions ds).retells H.regrouped t []
      hr ⟨.begin ds .constants t {} {}, Session.sane_begin {}, Session.sane_begin {}⟩ he
    exact ⟨C, ids', u', hread, hb.replay⟩
  root P hu hu' hi := by
    obtain ⟨D, _, t', -, hread, hb, hagree⟩ := (H.root.outline "#").piece.retells H.regrouped t [] hi
      ⟨P, hu, hu'⟩ (.refl t)
    obtain ⟨j, rfl, hij⟩ := hagree.singleton
    exact ⟨D, j, t', hread, hb.replay, .inl hij⟩

/-- A document with parts in other groups can be read, and what compiles of the one compiles of the
other. -/
theorem read (H : Regroups schema schema' ds ds') (h : readDocument schema root {} = .ok batch t) :
    ∃ batch' t' C, readDocument schema' root {} = .ok batch' t' ∧
      Replay ds .constants t (fun _ => False) C t t' ∧ C.Twinned batch.toList batch'.toList :=
  (H.readBeside t).read nofun nofun h

theorem compiles (H : Regroups schema schema' ds ds') {o : Options} {document : Document}
    (hseeds : ∀ registry, o.registry = .ok registry → registry = ∅)
    (h : (Compilation.ofSchema schema root o).result = .ok document) :
    (Compilation.ofSchema schema' root o).result = .ok document := by
  obtain ⟨registry, hregistry⟩ := Compilation.exists_registry h
  cases hseeds registry hregistry
  obtain ⟨batch, t, hread, -⟩ := (Compilation.result_eq_ok_iff_blocks hregistry).1 h
  obtain ⟨batch', t', C, hread', P, htwins⟩ := H.read hread
  exact P.compiles H.right hread hread' htwins hregistry h

end Regroups

/-- A document, and the document with some parts of one `allOf` in a group. There may be none of
them. -/
inductive Groups : Json → Json → Prop
  | intro {F : Json → Json} (place : DocumentPlace F) (before after : List (String × Json))
      (parts members parts' : List Json) :
      Groups (F (allOf before (parts ++ members ++ parts') after))
        (F (allOf before (parts ++ group members :: parts') after))

namespace Groups

variable {schema schema' : Json}

theorem regroups (h : Groups schema schema') :
    (∀ {ds}, schema.definitions = .ok ds → ∃ ds', Regroups schema schema' ds ds') ∧
      ∀ {ds}, schema'.definitions = .ok ds → ∃ ds', Regroups schema' schema ds ds' := by
  cases h with
  | intro place before after parts members parts' =>
    have hsame := regrouped_allOf before after parts members parts'
    have hget : ∀ key ∈ Reference.containers,
        (allOf before (parts ++ members ++ parts') after).get? key =
          (allOf before (parts ++ group members :: parts') after).get? key :=
      fun key hkey => get?_container_of_variantKey (by decide) hkey
    exact ⟨fun hd => place.regroups hd hsame hget,
      fun hd => place.regroups hd hsame.symm fun key hkey => (hget key hkey).symm⟩

theorem read_iff (h : Groups schema schema') (root : String) :
    (∃ batch t, readDocument schema root {} = .ok batch t) ↔
      ∃ batch t, readDocument schema' root {} = .ok batch t := by
  constructor
  · rintro ⟨batch, t, hread⟩
    obtain ⟨ds, -, -, hd, -⟩ := readDocument_eq_ok_iff.1 hread
    obtain ⟨ds', H⟩ := h.regroups.1 hd
    obtain ⟨batch', t', -, hread', -⟩ := H.read hread
    exact ⟨batch', t', hread'⟩
  · rintro ⟨batch, t, hread⟩
    obtain ⟨ds, -, -, hd, -⟩ := readDocument_eq_ok_iff.1 hread
    obtain ⟨ds', H⟩ := h.regroups.2 hd
    obtain ⟨batch', t', -, hread', -⟩ := H.read hread
    exact ⟨batch', t', hread'⟩

theorem result_iff (h : Groups schema schema') (root : String) {o : Options}
    (hseeds : ∀ registry, o.registry = .ok registry → registry = ∅) (document : Document) :
    (Compilation.ofSchema schema root o).result = .ok document ↔
      (Compilation.ofSchema schema' root o).result = .ok document := by
  constructor
  · intro hresult
    obtain ⟨batch, t, -, hread, -⟩ := Compilation.result_eq_ok_iff.1 hresult
    obtain ⟨ds, -, -, hd, -⟩ := readDocument_eq_ok_iff.1 hread
    obtain ⟨ds', H⟩ := h.regroups.1 hd
    exact H.compiles hseeds hresult
  · intro hresult
    obtain ⟨batch, t, -, hread, -⟩ := Compilation.result_eq_ok_iff.1 hresult
    obtain ⟨ds, -, -, hd, -⟩ := readDocument_eq_ok_iff.1 hread
    obtain ⟨ds', H⟩ := h.regroups.2 hd
    exact H.compiles hseeds hresult

end Groups

end Json

/-- Parts may be written in other groups: whichever parts of whichever `allOf` of a document are put in
groups or taken out of them, it can be read as before or not at all, and compiles to the same. No nodes
are named beforehand: each reading makes its own. -/
theorem compile_regrouped {schema schema' : Json} (h : Relation.EqvGen Json.Groups schema schema')
    (root : String) {o : Options} (hseeds : ∀ registry, o.registry = .ok registry → registry = ∅) :
    ((∃ batch t, readDocument schema root {} = .ok batch t) ↔
      ∃ batch t, readDocument schema' root {} = .ok batch t) ∧
    ∀ document, (Compilation.ofSchema schema root o).result = .ok document ↔
      (Compilation.ofSchema schema' root o).result = .ok document := by
  induction h with
  | rel _ _ h => exact ⟨h.read_iff root, h.result_iff root hseeds⟩
  | refl => exact ⟨Iff.rfl, fun _ => Iff.rfl⟩
  | symm _ _ _ ih => exact ⟨ih.1.symm, fun document => (ih.2 document).symm⟩
  | trans _ _ _ _ _ ih₁ ih₂ =>
    exact ⟨ih₁.1.trans ih₂.1, fun document => (ih₁.2 document).trans (ih₂.2 document)⟩

def petAs (pet : Json) : Json := .obj [("$defs", .obj [
  ("named", .obj [("properties", .obj [("name", .obj [("type", .str "string")]),
    ("age", .obj [("type", .str "string")])])]),
  ("pet", pet)])]

def namedPart : Json := .obj [("$ref", .str "#/$defs/named")]

def partWith (name type : String) : Json :=
  .obj [("properties", .obj [(name, .obj [("type", .str type)])])]

/-- Two of three parts are put in a group, and a group of none between them. The age keeps the place
that it has in what is named, but is an integer. -/
theorem compile_regrouped_pet : ∃ document,
    (Compilation.ofSchema (petAs (.group [namedPart, partWith "tag" "string",
      partWith "age" "integer"])) "" {}).result = .ok document ∧
    (Compilation.ofSchema (petAs (.group [namedPart, .group [partWith "tag" "string", .group [],
      partWith "age" "integer"]])) "" {}).result = .ok document ∧
    document.map Declaration.text = ["type Named \x7b\n  name: String\n  age: String\n\x7d",
      "type Pet \x7b\n  name: String\n  age: Int\n  tag: String\n\x7d"] := by
  have hpet : ∀ {F : Json → Json}, Json.Place [] F → Json.DocumentPlace fun v => petAs (F v) :=
    fun h => .definition [] [] [_] [] "pet" (by decide) h
  have hgroup := Json.Groups.intro (hpet .here) [] [] [namedPart]
    [partWith "tag" "string", partWith "age" "integer"] []
  have hempty := Json.Groups.intro (hpet (.inVariant [] [] [namedPart] []
    (show "allOf" ∈ Json.variantKeys by decide) .here)) [] [] [partWith "tag" "string"] []
      [partWith "age" "integer"]
  have hok : (Compilation.ofSchema (petAs (.group [namedPart, partWith "tag" "string",
      partWith "age" "integer"])) "" {}).result = .ok [
        .type "Named" [("name", .named (.str "String")), ("age", .named (.str "String"))],
        .type "Pet" [("name", .named (.str "String")), ("age", .named (.str "Int")),
          ("tag", .named (.str "String"))]] := by decide +kernel
  have hregrouped := compile_regrouped (.trans _ _ _ (.rel _ _ hgroup) (.rel _ _ hempty)) ""
    (o := {}) (by rintro _ ⟨⟩; rfl)
  exact ⟨_, hok, (hregrouped.2 _).1 hok, rfl⟩

end ShapeSdl
