import ShapeSdl.Proofs.Recast
import Mathlib.Data.List.Lemmas

/-!
# Schemas that say the same

What is read from a schema is read from its subschemas. Two schemas that differ in these only say the
same if these do, wherever they stand.

* `Outline.Matches` : a recast outline, whose node stands at the same path if the schema does;
* `Json.Matches`, `Json.Fits` : schemas that say the same, and schemas that give the same fields;
* `Json.Inside`, `Json.Parallel` : two schemas that differ in their subschemas only;
* `Parallel.matches` : they say the same;
* `Json.matches_self` : a schema says the same wherever it stands;
* `Json.Position` : a schema with a place for one of its properties or array items, at any depth;
* `Position.parallel` : what fits there makes no difference.
-/

namespace ShapeSdl

/-! ## Outlines -/

namespace Outline

/-- A recast outline. If `same` holds, its node stands at the same path. -/
structure Matches (definitions : Definitions) (exchange : Exchange) (same : Prop) (o o' : Outline) :
    Prop where
  recast : o.Recast definitions exchange .firm o'
  path?_eq : same → o.path? = o'.path?

section
variable {definitions : Definitions} {exchange : Exchange} {same : Prop} {o o' : Outline}
  {path path' : String} {metadata metadata' : List (String × Json)}

/-- What says the same in itself does so as a field. -/
theorem Recast.loose : ∀ {o o' : Outline}, o.Recast definitions exchange .firm o' →
    o.Recast definitions exchange .loose o'
  | _, _, .fault kind => .fault kind
  | _, _, .refused inside kind => .refused inside.loose kind
  | _, _, .reference => .reference
  | _, _, .leaf shape => .leaf shape
  | _, _, .wrapper inside => .wrapper inside.loose
  | _, _, .list inside => .list inside
  | _, _, .union inside => .union inside
  | _, _, .object names inside => .object names inside
  | _, _, .merge inside => .merge inside

theorem Matches.imp {same' : Prop} (h : o.Matches definitions exchange same o')
    (hs : same' → same) : o.Matches definitions exchange same' o' :=
  ⟨h.recast, fun hsame => h.path?_eq (hs hsame)⟩

theorem Matches.fault {f f' : Fault} (h : f.isStructural = f'.isStructural) :
    Matches definitions exchange same (fault f) (fault f') := ⟨.fault h, fun _ => rfl⟩

theorem Matches.leaf {n n' : Node} {h : n.shape.isLeaf = true} {h' : n'.shape.isLeaf = true}
    (hshape : n.shape = n'.shape) (hpath : same → n.path = n'.path) :
    Matches definitions exchange same (leaf n h) (leaf n' h') :=
  ⟨.leaf hshape, fun hsame => congrArg some (hpath hsame)⟩

theorem Matches.nullableIf (nullable : Bool)
    (h : o.Matches definitions exchange (path = path') o') :
    (nullableIf nullable path o).Matches definitions exchange (path = path')
      (nullableIf nullable path' o') := by
  cases nullable with
  | false => exact h
  | true => exact ⟨.wrapper h.recast, congrArg some⟩

theorem Matches.union {os os' : List Outline}
    (h : List.Forall₂ (Matches definitions exchange (path = path')) os os') :
    (union path metadata os).Matches definitions exchange (path = path')
      (union path' metadata' os') :=
  ⟨.union (h.imp fun _ _ h => h.recast), congrArg some⟩

theorem Matches.unionOf {os os' : List Outline}
    (h : List.Forall₂ (Matches definitions exchange (path = path')) os os') :
    (unionOf path metadata os).Matches definitions exchange (path = path')
      (unionOf path' metadata' os') := by
  cases h with
  | nil => exact .union .nil
  | cons hfirst hrest =>
    cases hrest with
    | nil => exact hfirst
    | cons hsecond hrest => exact .union (.cons hfirst (.cons hsecond hrest))

/-- Fields that say the same, or that cannot be read for the same reason. -/
inductive FieldsMatch (definitions : Definitions) (exchange : Exchange) :
    Except Fault (List (String × Outline)) → Except Fault (List (String × Outline)) → Prop
  | error {f} : FieldsMatch definitions exchange (.error f) (.error f)
  | ok {fields fields'} (names : fields.map Prod.fst = fields'.map Prod.fst)
      (inside : List.Forall₂ (Recast definitions exchange .loose) (fields.map Prod.snd)
        (fields'.map Prod.snd)) : FieldsMatch definitions exchange (.ok fields) (.ok fields')

theorem FieldsMatch.ofFields {fields fields' : Except Fault (List (String × Outline))}
    (h : FieldsMatch definitions exchange fields fields') :
    (ofFields path metadata fields).Matches definitions exchange (path = path')
      (ofFields path' metadata' fields') := by
  cases h with
  | error => exact .fault rfl
  | ok names inside => exact ⟨.object names inside, congrArg some⟩

end

end Outline

open Outline (Matches)

section
variable {definitions : Definitions} {exchange : Exchange} {path path' : String}
  {metadata metadata' : List (String × Json)}

theorem matches_scalarOutline (format type : Json) :
    (scalarOutline format metadata type path).Matches definitions exchange (path = path')
      (scalarOutline format metadata' type path') := by
  unfold scalarOutline
  split
  · cases formatChecks format with
    | ok checks => exact .leaf rfl id
    | error f => exact .fault rfl
  · exact .leaf rfl id
  · exact .leaf rfl id
  · exact .leaf rfl id
  · exact .fault rfl

theorem matches_constantsOutline : ∀ (index : Nat) (values : List Json),
    List.Forall₂ (Matches definitions exchange (path = path'))
      (constantsOutline path index values) (constantsOutline path' index values)
  | _, [] => .nil
  | index, .null :: rest => matches_constantsOutline (index + 1) rest
  | index, .bool _ :: rest | index, .int _ :: rest | index, .float _ :: rest | index, .str _ :: rest
  | index, .arr _ :: rest | index, .obj _ :: rest =>
    .cons (.leaf rfl fun h => by rw [h]) (matches_constantsOutline (index + 1) rest)

theorem matches_enumerationOutline (values : Json) :
    (enumerationOutline metadata path values).Matches definitions exchange (path = path')
      (enumerationOutline metadata' path' values) := by
  unfold enumerationOutline
  cases values.items with
  | error f => exact .fault rfl
  | ok values =>
    dsimp only
    split
    · exact .leaf rfl id
    · exact .nullableIf _ (.union (matches_constantsOutline 0 values))

structure TypeOutlines.Match (definitions : Definitions) (exchange : Exchange)
    (kinds kinds' : TypeOutlines) : Prop where
  array : ∀ path path',
    (kinds.array path).Matches definitions exchange (path = path') (kinds'.array path')
  object : ∀ path path',
    (kinds.object path).Matches definitions exchange (path = path') (kinds'.object path')
  scalar : ∀ type path path',
    (kinds.scalar type path).Matches definitions exchange (path = path') (kinds'.scalar type path')

mutual

theorem TypeOutlines.Match.typeOutline {kinds kinds' : TypeOutlines}
    (h : kinds.Match definitions exchange kinds') (path path' : String) : ∀ (type : Json),
    (typeOutline kinds metadata path type).Matches definitions exchange (path = path')
      (typeOutline kinds' metadata' path' type)
  | .arr types => by
    unfold ShapeSdl.typeOutline
    split
    · exact .fault rfl
    · exact .nullableIf _ (.unionOf (h.typesOutline path path' types))
  | .str s => by
    by_cases ha : s = "array"
    · subst ha
      exact h.array path path'
    · by_cases ho : s = "object"
      · subst ho
        exact h.object path path'
      · have ha' : Json.str s = .str "array" → False := by simpa using ha
        have ho' : Json.str s = .str "object" → False := by simpa using ho
        rw [typeOutline.eq_4 _ _ _ _ (by simp) ha' ho', typeOutline.eq_4 _ _ _ _ (by simp) ha' ho']
        exact h.scalar _ path path'
  | .null | .bool _ | .int _ | .float _ | .obj _ => h.scalar _ path path'

theorem TypeOutlines.Match.typesOutline {kinds kinds' : TypeOutlines}
    (h : kinds.Match definitions exchange kinds') (path path' : String) : ∀ (types : List Json),
    List.Forall₂ (Matches definitions exchange (path = path'))
      (typesOutline kinds metadata path types) (typesOutline kinds' metadata' path' types)
  | [] => .nil
  | type :: rest => by
    have hfirst := h.typeOutline (path ++ "/type/" ++ type.plain) (path' ++ "/type/" ++ type.plain) type
    have hrest := h.typesOutline path path' rest
    unfold ShapeSdl.typesOutline
    split
    · exact hrest
    · exact .cons (hfirst.imp fun h => by rw [h]) hrest

end

end

/-! ## Schemas -/

namespace Json

/-- Two schemas that say the same wherever they stand. -/
def Matches (definitions : Definitions) (exchange : Exchange) (v w : Json) : Prop :=
  ∀ path path', (v.outline path).Matches definitions exchange (path = path') (w.outline path')

/-- Two schemas that give the same fields wherever they stand. -/
def Fits (definitions : Definitions) (exchange : Exchange) (v w : Json) : Prop :=
  ∀ path path', (v.outline path).Recast definitions exchange .loose (w.outline path')

theorem Matches.fits {definitions : Definitions} {exchange : Exchange} {v w : Json}
    (h : v.Matches definitions exchange w) : v.Fits definitions exchange w :=
  fun path path' => (h path path').recast.loose

/-- The keywords of several subschemas. -/
def variantKeys : List String := ["oneOf", "anyOf", "allOf"]

/-- The keywords of subschemas and of definitions. -/
def nestingKeys : List String := "properties" :: "items" :: variantKeys ++ Reference.containers

/-- Two values of a keyword that differ in the subschemas in them only. Definitions are no part of the
schema that they stand in. -/
inductive Inside (definitions : Definitions) (exchange : Exchange) : String → Json → Json → Prop
  | properties {key : String} {es es' : List (String × Json)} (isProperties : key = "properties")
      (inside : List.Forall₂ (fun p q => p.1 = q.1 ∧ p.2.get? "default" = q.2.get? "default" ∧
        p.2.Fits definitions exchange q.2) es es') :
      Inside definitions exchange key (.obj es) (.obj es')
  | items {key : String} {es es' : List (String × Json)} (isItems : key = "items")
      (inside : (Json.obj es).Fits definitions exchange (.obj es')) :
      Inside definitions exchange key (.obj es) (.obj es')
  | variants {key : String} {vs ws : List Json} (mem : key ∈ variantKeys)
      (inside : List.Forall₂ (fun v w => v.isNullVariant = w.isNullVariant ∧
        v.Matches definitions exchange w) vs ws) :
      Inside definitions exchange key (.arr vs) (.arr ws)
  | unread {key : String} {v w : Json} (mem : key ∈ Reference.containers) :
      Inside definitions exchange key v w
  | none {key : String} {v : Json} (noEntries : key = "properties" ∨ key = "items" → ∀ es, v ≠ .obj es)
      (noItems : key ∈ variantKeys → ∀ vs, v ≠ .arr vs) : Inside definitions exchange key v v

/-- Two schemas that differ in their subschemas only. -/
def Parallel (definitions : Definitions) (exchange : Exchange) (s s' : Json) : Prop :=
  ∀ key, Option.Rel (Inside definitions exchange key) (s.get? key) (s'.get? key)

inductive FormMatch (definitions : Definitions) (exchange : Exchange) : Form → Form → Prop
  | union {key v w} (mem : key ∈ variantKeys) (inside : Inside definitions exchange key v w) :
      FormMatch definitions exchange (.union key v) (.union key w)
  | merge {key v w} (mem : key ∈ variantKeys) (inside : Inside definitions exchange key v w) :
      FormMatch definitions exchange (.merge v) (.merge w)
  | same {f} (noUnion : ∀ key v, f ≠ .union key v) (noMerge : ∀ v, f ≠ .merge v) :
      FormMatch definitions exchange f f

section
variable {definitions : Definitions} {exchange : Exchange} {s s' v w : Json} {key : String}
  {path path' : String}

theorem Inside.eq (h : Inside definitions exchange key v w) (hk : key ∉ nestingKeys) : v = w := by
  cases h with
  | properties isKey | items isKey => exact absurd (by rw [isKey]; decide) hk
  | variants mem =>
    exact absurd (List.mem_cons_of_mem _ (List.mem_cons_of_mem _ (List.mem_append_left _ mem))) hk
  | unread mem => exact absurd (List.mem_append_right ("properties" :: "items" :: variantKeys) mem) hk
  | none => rfl

theorem Inside.schemas (h : Inside definitions exchange key v w) (hk : key ∈ variantKeys) :
    (∃ f, v.schemas = .error f ∧ w.schemas = .error f) ∨ ∃ vs ws, v.schemas = .ok vs ∧
      w.schemas = .ok ws ∧ List.Forall₂ (fun v w => v.isNullVariant = w.isNullVariant ∧
        v.Matches definitions exchange w) vs ws := by
  cases h with
  | properties isKey | items isKey => exact absurd hk (by rw [isKey]; decide)
  | variants _ inside => exact .inr ⟨_, _, rfl, rfl, inside⟩
  | unread mem =>
    have hapart : ∀ key ∈ variantKeys, key ∉ Reference.containers := by decide
    exact absurd mem (hapart key hk)
  | none _ noItems =>
    cases v with
    | arr vs => exact absurd rfl (noItems hk vs)
    | str s =>
      by_cases hs : s = ""
      · exact .inr ⟨[], [], by simp [Json.schemas, hs], by simp [Json.schemas, hs], .nil⟩
      · exact .inl ⟨.misuse .notObject, by simp [Json.schemas, hs], by simp [Json.schemas, hs]⟩
    | obj es =>
      by_cases hs : es = []
      · exact .inr ⟨[], [], by simp [Json.schemas, hs], by simp [Json.schemas, hs], .nil⟩
      · exact .inl ⟨.misuse .notObject, by simp [Json.schemas, hs], by simp [Json.schemas, hs]⟩
    | _ => exact .inl ⟨_, rfl, rfl⟩

theorem Parallel.get?_eq (h : s.Parallel definitions exchange s') (key : String)
    (hk : key ∉ nestingKeys) : s.get? key = s'.get? key := by
  have hrel := h key
  generalize s.get? key = a at hrel ⊢
  generalize s'.get? key = b at hrel ⊢
  cases hrel with
  | none => rfl
  | some inside => exact congrArg some (inside.eq hk)

theorem Parallel.form (h : s.Parallel definitions exchange s') :
    FormMatch definitions exchange s.form s'.form := by
  have hone := h "oneOf"
  have hany := h "anyOf"
  have hall := h "allOf"
  unfold Json.form
  rw [h.get?_eq "$ref" (by decide), h.get?_eq "const" (by decide), h.get?_eq "enum" (by decide),
    h.get?_eq "type" (by decide)]
  generalize s.get? "oneOf" = one at hone ⊢
  generalize s'.get? "oneOf" = one' at hone ⊢
  generalize s.get? "anyOf" = any at hany ⊢
  generalize s'.get? "anyOf" = any' at hany ⊢
  generalize s.get? "allOf" = all at hall ⊢
  generalize s'.get? "allOf" = all' at hall ⊢
  cases s'.get? "$ref" with
  | some ref => exact .same nofun nofun
  | none =>
    cases s'.get? "const" with
    | some value => exact .same nofun nofun
    | none =>
      cases hone with
      | some inside => exact .union (by decide) inside
      | none =>
        cases hany with
        | some inside => exact .union (by decide) inside
        | none =>
          cases hall with
          | some inside => exact .merge (by decide : "allOf" ∈ variantKeys) inside
          | none =>
            cases s'.get? "enum" with
            | some values => exact .same nofun nofun
            | none => cases s'.get? "type" <;> exact .same nofun nofun

theorem isSome_eq {V : Json → Json → Prop} {a b : Option Json} (h : Option.Rel V a b) :
    a.isSome = b.isSome := by cases h <;> rfl

theorem Parallel.isPlainObject_eq {es es' : List (String × Json)}
    (h : (obj es).Parallel definitions exchange (obj es')) :
    (obj es).isPlainObject = (obj es').isPlainObject := by
  unfold isPlainObject
  have hform := h.form
  rw [isSome_eq (h "properties")]
  generalize (obj es).form = f at hform ⊢
  generalize (obj es').form = f' at hform ⊢
  cases hform <;> rfl

/-! ## The same subschemas -/

theorem matches_variantsOutline {vs ws : List Json} {base base' : String}
    (h : List.Forall₂ (fun v w => v.isNullVariant = w.isNullVariant ∧
      v.Matches definitions exchange w) vs ws) : ∀ index,
      List.Forall₂ (Outline.Matches definitions exchange (base = base'))
        (variantsOutline base index vs) (variantsOutline base' index ws) := by
  induction h with
  | nil =>
    intro index
    rw [variantsOutline, variantsOutline]
    exact .nil
  | @cons v w _ _ hfirst _ ih =>
    intro index
    rw [variantsOutline, variantsOutline, hfirst.1]
    split
    · exact ih (index + 1)
    · exact .cons ((hfirst.2 _ _).imp fun h => by rw [h]) (ih (index + 1))

theorem matches_partsOutline {vs ws : List Json}
    (h : List.Forall₂ (fun v w => v.isNullVariant = w.isNullVariant ∧
      v.Matches definitions exchange w) vs ws) : ∀ index,
      List.Forall₂ (Outline.Recast definitions exchange .firm) (partsOutline path index vs)
        (partsOutline path' index ws) := by
  induction h with
  | nil =>
    intro index
    rw [partsOutline, partsOutline]
    exact .nil
  | cons hfirst _ ih =>
    intro index
    rw [partsOutline, partsOutline]
    exact .cons (hfirst.2 _ _).recast (ih (index + 1))

theorem any_isNullVariant_eq {vs ws : List Json}
    (h : List.Forall₂ (fun v w => v.isNullVariant = w.isNullVariant ∧
      v.Matches definitions exchange w) vs ws) :
    vs.any isNullVariant = ws.any isNullVariant := by
  induction h with
  | nil => rfl
  | cons hfirst _ ih => rw [List.any_cons, List.any_cons, hfirst.1, ih]

theorem fits_fieldOutline {required : Json} {name : String}
    (hd : v.get? "default" = w.get? "default") (h : v.Fits definitions exchange w) :
    (fieldOutline required name v path (v.outline path)).Recast definitions exchange .loose
      (fieldOutline required name w path' (w.outline path')) := by
  unfold fieldOutline
  rw [hd]
  cases w.get? "default" with
  | some value => exact .wrapper (h path path')
  | none =>
    cases required.holds name with
    | error f => exact .refused (h path path') rfl
    | ok holds =>
      cases holds with
      | true => exact h path path'
      | false => exact .wrapper (h path path')

theorem fits_propertiesOutline {required : Json} {base base' : String}
    {es es' : List (String × Json)}
    (h : List.Forall₂ (fun p q => p.1 = q.1 ∧ p.2.get? "default" = q.2.get? "default" ∧
      p.2.Fits definitions exchange q.2) es es') :
    Outline.FieldsMatch definitions exchange (.ok (propertiesOutline required base es))
      (.ok (propertiesOutline required base' es')) := by
  suffices hs : (propertiesOutline required base es).map Prod.fst =
      (propertiesOutline required base' es').map Prod.fst ∧
        List.Forall₂ (Outline.Recast definitions exchange .loose)
          ((propertiesOutline required base es).map Prod.snd)
          ((propertiesOutline required base' es').map Prod.snd) from .ok hs.1 hs.2
  induction h with
  | nil =>
    rw [propertiesOutline, propertiesOutline]
    exact ⟨rfl, .nil⟩
  | @cons p q _ _ hfirst _ ih =>
    obtain ⟨name, v⟩ := p
    obtain ⟨_, w⟩ := q
    obtain ⟨rfl, hd, hfits⟩ := hfirst
    rw [propertiesOutline, propertiesOutline]
    exact ⟨congrArg (name :: ·) ih.1, .cons (fits_fieldOutline hd hfits) ih.2⟩

theorem Parallel.fieldsOutline (h : s.Parallel definitions exchange s') (path path' : String) :
    Outline.FieldsMatch definitions exchange (s.fieldsOutline path) (s'.fieldsOutline path') := by
  have hprops := h "properties"
  rw [fieldsOutline_eq, fieldsOutline_eq, h.get?_eq "required" (by decide)]
  generalize s.get? "properties" = a at hprops ⊢
  generalize s'.get? "properties" = b at hprops ⊢
  cases hprops with
  | none => exact .ok rfl .nil
  | @some v w inside =>
    cases inside with
    | properties _ inside => exact fits_propertiesOutline inside
    | items isItems => exact absurd isItems (by decide)
    | variants mem | unread mem => exact absurd mem (by decide)
    | none noEntries =>
      cases v with
      | obj es => exact absurd rfl (noEntries (.inl rfl) es)
      | _ => exact .error

theorem Parallel.kindOutlines (h : s.Parallel definitions exchange s')
    (metadata metadata' : List (String × Json)) :
    (s.kindOutlines metadata).Match definitions exchange (s'.kindOutlines metadata') where
  array path path' := by
    have hitems := h "items"
    unfold Json.kindOutlines
    dsimp only
    generalize s.get? "items" = a at hitems ⊢
    generalize s'.get? "items" = b at hitems ⊢
    cases hitems with
    | none => exact ⟨.list (.object rfl .nil), congrArg some⟩
    | @some v w inside =>
      cases inside with
      | properties isProperties => exact absurd isProperties (by decide)
      | items _ inside => exact ⟨.list (inside _ _), congrArg some⟩
      | variants mem | unread mem => exact absurd mem (by decide)
      | none noEntries =>
        have hfault : ∀ (path : String) {v : Json}, (∀ es, v ≠ .obj es) →
            v.outline path = .fault (.misuse .notObject) := by
          intro path v hv
          cases v with
          | obj es => exact absurd rfl (hv es)
          | _ => rw [Json.outline]; rfl
        have hv := noEntries (.inr rfl)
        cases v with
        | obj es => exact absurd rfl (hv es)
        | null => exact ⟨.list (.object rfl .nil), congrArg some⟩
        | arr => exact .fault rfl
        | bool | int | float | str =>
          dsimp only
          rw [hfault _ hv, hfault _ hv]
          exact ⟨.list (.fault rfl), congrArg some⟩
  object path path' := (h.fieldsOutline path path').ofFields
  scalar type path path' := by
    unfold Json.kindOutlines
    rw [h.get?_eq "format" (by decide)]
    exact matches_scalarOutline _ type

/-- Two schemas that differ in their subschemas only say the same. -/
theorem Parallel.matches {es es' : List (String × Json)}
    (h : (obj es).Parallel definitions exchange (obj es')) :
    (obj es).Matches definitions exchange (obj es') := by
  intro path path'
  have hform := h.form
  rw [outline_eq rfl, outline_eq rfl]
  generalize (obj es).form = f at hform ⊢
  generalize (obj es').form = f' at hform ⊢
  cases hform with
  | union mem inside =>
    rcases inside.schemas mem with ⟨f, hf, hf'⟩ | ⟨vs, ws, hvs, hws, hall⟩
    · simp only [hf, hf']
      exact .fault rfl
    · simp only [hvs, hws, any_isNullVariant_eq hall]
      refine .nullableIf _ (.unionOf ?_)
      exact (matches_variantsOutline hall 0).imp fun _ _ h => h.imp fun h => by rw [h]
  | merge mem inside =>
    rcases inside.schemas mem with ⟨f, hf, hf'⟩ | ⟨vs, ws, hvs, hws, hall⟩
    · simp only [hf, hf']
      exact .fault rfl
    · simp only [hvs, hws]
      exact ⟨.merge (matches_partsOutline hall 0), congrArg some⟩
  | same noUnion noMerge =>
    cases f with
    | reference ref => exact ⟨.reference, fun _ => rfl⟩
    | constant value => exact .leaf rfl id
    | union key v => exact absurd rfl (noUnion key v)
    | merge v => exact absurd rfl (noMerge v)
    | enumeration values => exact matches_enumerationOutline values
    | typed type => exact (h.kindOutlines _ _).typeOutline path path' type
    | untyped => exact (h.fieldsOutline path path').ofFields

/-! ## Schemas that are the same -/

theorem Inside.of_matches (h : ∀ u : Json, sizeOf u ≤ sizeOf v → u.Matches definitions exchange u) :
    Inside definitions exchange key v v := by
  cases v with
  | obj es =>
    by_cases hproperties : key = "properties"
    · refine .properties hproperties (List.forall₂_same.2 fun e he => ⟨rfl, rfl, (h e.2 ?_).fits⟩)
      have := sizeOf_lt_of_mem_entries he
      simp only [obj.sizeOf_spec]
      omega
    · by_cases hitems : key = "items"
      · exact .items hitems (h _ (le_refl _)).fits
      · exact .none (fun hk => absurd hk (not_or.2 ⟨hproperties, hitems⟩)) nofun
  | arr vs =>
    by_cases hvariants : key ∈ variantKeys
    · refine .variants hvariants (List.forall₂_same.2 fun u hu => ⟨rfl, h u ?_⟩)
      have := List.sizeOf_lt_of_mem hu
      simp only [arr.sizeOf_spec]
      omega
    · exact .none nofun fun hk => absurd hk hvariants
  | _ => exact .none nofun nofun

theorem matches_self (definitions : Definitions) (exchange : Exchange) (s : Json) :
    s.Matches definitions exchange s := by
  match s with
  | obj es =>
    apply Parallel.matches
    intro key
    cases hv : (obj es).get? key with
    | none => exact .none
    | some v =>
      have hlt := sizeOf_lt_of_get? hv
      exact .some (.of_matches fun u hu => matches_self definitions exchange u)
  | null | bool _ | int _ | float _ | str _ | arr _ =>
    intro path path'
    rw [outline, outline]
    exact .fault rfl
termination_by sizeOf s
decreasing_by omega

theorem Inside.refl (definitions : Definitions) (exchange : Exchange) (key : String) (v : Json) :
    Inside definitions exchange key v v := .of_matches fun u _ => matches_self definitions exchange u

theorem Parallel.refl (definitions : Definitions) (exchange : Exchange) (s : Json) :
    s.Parallel definitions exchange s := by
  intro key
  cases s.get? key with
  | none => exact .none
  | some v => exact .some (.refl ..)

/-! ## Positions -/

/-- A schema with a place for one of its properties, or for its array item. -/
inductive Slot : (Json → Json) → Prop
  | property (before after properties properties' : List (String × Json)) (name : String) :
      Slot fun v => obj (before ++ ("properties", obj (properties ++ (name, v) :: properties')) :: after)
  | items (before after : List (String × Json)) : Slot fun v => obj (before ++ ("items", v) :: after)

/-- A schema with a place, at any depth, for a property or an array item. -/
inductive Position : (Json → Json) → Prop
  | slot {F : Json → Json} (here : Slot F) : Position F
  | inSlot {F G : Json → Json} (here : Slot F) (inside : Position G) : Position fun v => F (G v)
  | inVariant {G : Json → Json} {key : String} (before after : List (String × Json))
      (variants variants' : List Json) (mem : key ∈ variantKeys) (inside : Position G) :
      Position fun v => obj (before ++ (key, arr (variants ++ G v :: variants')) :: after)

/-- A document with a place in its root or in one of its definitions. -/
inductive DocumentPosition : (Json → Json) → Prop
  | root {F : Json → Json} (inside : Position F) : DocumentPosition F
  | definition {G : Json → Json} {key : String}
      (before after container container' : List (String × Json)) (name : String)
      (mem : key ∈ Reference.containers) (inside : Position G) : DocumentPosition fun v =>
        obj (before ++ (key, obj (container ++ (name, G v) :: container')) :: after)

/-- Two schemas that can stand in one place. -/
structure Interchangeable (definitions : Definitions) (exchange : Exchange) (v w : Json) : Prop where
  isObject : (∃ es, v = obj es) ∧ ∃ es, w = obj es
  default_eq : v.get? "default" = w.get? "default"
  fits : v.Fits definitions exchange w

theorem get?_of_ne {before after : List (String × Json)} {other : String} (h : other ≠ key) :
    (obj (before ++ (key, v) :: after)).get? other =
      (obj (before ++ (key, w) :: after)).get? other := by
  unfold get?
  dsimp only
  rw [List.lookup_append, List.lookup_append, Entries.lookup_cons_ite, Entries.lookup_cons_ite]
  simp only [if_neg h]

/-- Two schemas that differ in the value of one key at most. -/
structure DifferAt (key : String) (v w : Json) (es es' : List (String × Json)) : Prop where
  others : ∀ other, other ≠ key → (obj es).get? other = (obj es').get? other
  cases : (∀ other, (obj es).get? other = (obj es').get? other) ∨
    (obj es).get? key = some v ∧ (obj es').get? key = some w

theorem differAt (before after : List (String × Json)) (key : String) (v w : Json) :
    DifferAt key v w (before ++ (key, v) :: after) (before ++ (key, w) :: after) where
  others _ h := get?_of_ne h
  cases := by
    have hget : ∀ u, (obj (before ++ (key, u) :: after)).get? key = (before.lookup key).or (some u) := by
      intro u
      rw [get?, List.lookup_append, List.lookup_cons_self]
    cases hb : before.lookup key with
    | some u =>
      left
      intro other
      by_cases hother : other = key
      · rw [hother, hget, hget, hb]
        rfl
      · exact get?_of_ne hother
    | none =>
      right
      rw [hget, hget, hb]
      exact ⟨rfl, rfl⟩

theorem parallel_of_inside (before after : List (String × Json))
    (h : Inside definitions exchange key v w) :
    (obj (before ++ (key, v) :: after)).Parallel definitions exchange
      (obj (before ++ (key, w) :: after)) := by
  have hrefl : ∀ (other : String) (a : Option Json),
      Option.Rel (Inside definitions exchange other) a a := by
    intro other a
    cases a with
    | none => exact .none
    | some u => exact .some (.refl ..)
  have hdiffer := differAt before after key v w
  intro other
  by_cases hother : other = key
  · subst hother
    rcases hdiffer.cases with hsame | ⟨hv, hw⟩
    · rw [hsame]
      exact hrefl other _
    · rw [hv, hw]
      exact .some h
  · rw [hdiffer.others other hother]
    exact hrefl other _

theorem Slot.parallel {F : Json → Json} (h : Slot F)
    (hvw : v.Interchangeable definitions exchange w) : ∃ es es', F v = obj es ∧ F w = obj es' ∧
      (obj es).Parallel definitions exchange (obj es') := by
  cases h with
  | property before after properties properties' name =>
    refine ⟨_, _, rfl, rfl, parallel_of_inside before after (.properties rfl ?_)⟩
    have hself : ∀ l : List (String × Json), List.Forall₂ (fun p q => p.1 = q.1 ∧
        p.2.get? "default" = q.2.get? "default" ∧ p.2.Fits definitions exchange q.2) l l :=
      fun l => List.forall₂_same.2 fun p _ => ⟨rfl, rfl, (matches_self definitions exchange p.2).fits⟩
    exact List.rel_append (hself properties) (.cons ⟨rfl, hvw.default_eq, hvw.fits⟩ (hself properties'))
  | items before after =>
    obtain ⟨⟨⟨es, rfl⟩, ⟨es', rfl⟩⟩, -, hfits⟩ := hvw
    exact ⟨_, _, rfl, rfl, parallel_of_inside before after (.items rfl hfits)⟩

/-- Two parallel schemas can stand in one place. -/
theorem Parallel.interchangeable {es es' : List (String × Json)}
    (h : (obj es).Parallel definitions exchange (obj es')) :
    (obj es).Interchangeable definitions exchange (obj es') :=
  ⟨⟨⟨es, rfl⟩, ⟨es', rfl⟩⟩, h.get?_eq _ (by decide), h.matches.fits⟩

/-- What stands in a place at any depth makes no difference but there. -/
theorem Position.parallel {F : Json → Json} (h : Position F)
    (hvw : v.Interchangeable definitions exchange w) : ∃ es es', F v = obj es ∧ F w = obj es' ∧
      (obj es).Parallel definitions exchange (obj es') := by
  induction h with
  | slot here => exact here.parallel hvw
  | inSlot here _ ih =>
    obtain ⟨es, es', hv, hw, hp⟩ := ih
    have := here.parallel hp.interchangeable
    rwa [← hv, ← hw] at this
  | inVariant before after variants variants' mem _ ih =>
    obtain ⟨es, es', hv, hw, hp⟩ := ih
    refine ⟨_, _, rfl, rfl, parallel_of_inside before after (.variants mem ?_)⟩
    have hself : ∀ l : List Json, List.Forall₂ (fun v w => v.isNullVariant = w.isNullVariant ∧
        v.Matches definitions exchange w) l l :=
      fun l => List.forall₂_same.2 fun u _ => ⟨rfl, matches_self definitions exchange u⟩
    rw [hv, hw]
    refine List.rel_append (hself variants) (.cons ⟨?_, hp.matches⟩ (hself variants'))
    rw [isNullVariant, isNullVariant, hp.get?_eq _ (by decide)]

theorem Slot.get?_container {F : Json → Json} (h : Slot F) (key : String)
    (hkey : key ∈ Reference.containers) (v w : Json) : (F v).get? key = (F w).get? key := by
  cases h with
  | property | items => exact get?_of_ne (by rintro rfl; revert hkey; decide)

theorem get?_container_of_variantKey {before after : List (String × Json)} {other : String}
    (mem : key ∈ variantKeys) (hother : other ∈ Reference.containers) :
    (obj (before ++ (key, v) :: after)).get? other = (obj (before ++ (key, w) :: after)).get? other := by
  have hapart : ∀ key ∈ variantKeys, key ∉ Reference.containers := by decide
  exact get?_of_ne fun he => hapart _ mem (he ▸ hother)

theorem Position.get?_container {F : Json → Json} (h : Position F) (key : String)
    (hkey : key ∈ Reference.containers) (v w : Json) : (F v).get? key = (F w).get? key := by
  cases h with
  | slot here | inSlot here => exact here.get?_container key hkey _ _
  | inVariant before after variants variants' mem => exact get?_container_of_variantKey mem hkey

end

end Json

end ShapeSdl
