import ShapeSdl.Proofs.Outline

/-!
# The path of a schema's node

A schema's node stands at the path of the schema, unless the schema is a union of one variant or a
list of one type: then it is the node of that variant or type, further down.

* `Json.isSingle` : whether a schema is such a union or list;
* `Json.path?_outline` : where the node stands.
-/

namespace ShapeSdl

/-- Whether a schema is a union of one variant that is not null, or a list of one type. -/
def Json.isSingle (schema : Json) : Bool :=
  match schema.form with
  | .union _ (.arr [variant]) => !variant.isNullVariant
  | .typed (.arr [_]) => true
  | _ => false

namespace Outline

/-- If a node is made at all, it is made at this path. -/
def StandsAt (path : String) (o : Outline) : Prop := ∀ p, o.path? = some p → p = path

/-- If a node is made at all, it is made further down. -/
def StandsBelow (path : String) (o : Outline) : Prop :=
  ∀ p, o.path? = some p → ∃ rest, p = path ++ "/" ++ rest

theorem StandsAt.below {path rest : String} {o : Outline} (h : StandsAt (path ++ "/" ++ rest) o) :
    StandsBelow path o := fun p hp => ⟨rest, h p hp⟩

theorem StandsBelow.below {path rest : String} {o : Outline}
    (h : StandsBelow (path ++ "/" ++ rest) o) : StandsBelow path o := by
  intro p hp
  obtain ⟨rest', rfl⟩ := h p hp
  exact ⟨rest ++ "/" ++ rest', by simp only [String.append_assoc]⟩

theorem standsAt_nullableIf {nullable : Bool} {path : String} {o : Outline}
    (h : nullable = false → StandsAt path o) : StandsAt path (nullableIf nullable path o) := by
  cases nullable with
  | false => exact h rfl
  | true => intro p hp; cases hp; rfl

theorem standsAt_unionOf {path : String} {metadata : List (String × Json)} {os : List Outline}
    (h : os.length ≠ 1) : StandsAt path (unionOf path metadata os) := by
  match os, h with
  | [], _ | _ :: _ :: _, _ => intro p hp; cases hp; rfl
  | [_], h => exact absurd rfl h

theorem standsAt_ofFields (path : String) (metadata : List (String × Json))
    (fields : Except Fault (List (String × Outline))) :
    StandsAt path (ofFields path metadata fields) := by
  intro p hp
  cases fields <;> cases hp
  rfl

end Outline

open Outline

theorem standsAt_enumerationOutline (metadata : List (String × Json)) (path : String)
    (values : Json) : StandsAt path (enumerationOutline metadata path values) := by
  unfold enumerationOutline
  split
  · intro p hp; cases hp
  · split
    · intro p hp; cases hp; rfl
    · exact standsAt_nullableIf fun _ p hp => by cases hp; rfl

theorem standsAt_scalarOutline (format : Json) (metadata : List (String × Json)) (type : Json)
    (path : String) : StandsAt path (scalarOutline format metadata type path) := by
  unfold scalarOutline
  split
  · split
    · intro p hp; cases hp; rfl
    · intro p hp; cases hp
  all_goals intro p hp; cases hp
  all_goals rfl

/-- Whether the kinds of types stand at the paths at which they are read. -/
structure TypeOutlines.Stand (kinds : TypeOutlines) : Prop where
  array : ∀ path, StandsAt path (kinds.array path)
  object : ∀ path, StandsAt path (kinds.object path)
  scalar : ∀ type path, StandsAt path (kinds.scalar type path)

theorem length_typesOutline (kinds : TypeOutlines) (metadata : List (String × Json))
    (path : String) {types : List Json} (h : nullType ∉ types) :
    (typesOutline kinds metadata path types).length = types.length := by
  induction types with
  | nil => rfl
  | cons type rest ih =>
    obtain ⟨hne, hr⟩ := List.ne_and_not_mem_of_not_mem_cons h
    rw [typesOutline, if_neg hne.symm, List.length_cons, ih hr, List.length_cons]

section
variable {kinds : TypeOutlines} (h : kinds.Stand) (metadata : List (String × Json))
include h

theorem standsAt_typeOutline (path : String) {type : Json} (ht : ∀ t, type ≠ .arr [t]) :
    StandsAt path (typeOutline kinds metadata path type) := by
  cases type with
  | arr types =>
    unfold typeOutline
    split
    · intro p hp; cases hp
    · refine standsAt_nullableIf fun hn => standsAt_unionOf ?_
      rw [length_typesOutline kinds metadata path (of_decide_eq_false hn)]
      intro hl
      obtain ⟨t, rfl⟩ := List.length_eq_one_iff.1 hl
      exact ht t rfl
  | str s =>
    unfold typeOutline
    split
    · rename_i he; cases he
    · exact h.array path
    · exact h.object path
    · exact h.scalar _ path
  | _ => exact h.scalar _ path

theorem standsBelow_typeOutline (path : String) (t : Json) :
    StandsBelow path (typeOutline kinds metadata path (.arr [t])) := by
  by_cases hn : t = nullType
  · intro p hp
    subst hn
    cases hp
  · have he : typeOutline kinds metadata path (.arr [t]) =
        typeOutline kinds metadata (path ++ "/" ++ ("type/" ++ t.plain)) t := by
      have hpath : path ++ "/" ++ ("type/" ++ t.plain) = path ++ "/type/" ++ t.plain := by
        rw [show "/type/" = "/" ++ "type/" from rfl]
        simp only [String.append_assoc]
      rw [typeOutline, if_neg (by simpa using hn), hpath]
      simp only [typesOutline, if_neg hn, List.mem_singleton, Ne.symm hn, decide_false]
      rfl
    rw [he]
    by_cases ht : ∃ t', t = .arr [t']
    · obtain ⟨t', rfl⟩ := ht
      exact (standsBelow_typeOutline _ t').below
    · exact (standsAt_typeOutline h metadata _ fun t' e => ht ⟨t', e⟩).below
termination_by sizeOf t

end

namespace Json

theorem stand_kindOutlines (schema : Json) (metadata : List (String × Json)) :
    (schema.kindOutlines metadata).Stand where
  array path := by
    unfold kindOutlines
    dsimp only
    split
    all_goals intro p hp; cases hp
    all_goals rfl
  object path := standsAt_ofFields _ _ _
  scalar type path := standsAt_scalarOutline _ _ _ _

theorem length_variantsOutline (base : String) {variants : List Json} :
    ∀ (index : Nat), variants.any isNullVariant = false →
      (variantsOutline base index variants).length = variants.length := by
  induction variants with
  | nil => intro _ _; rw [variantsOutline]; rfl
  | cons variant rest ih =>
    intro index h
    obtain ⟨hv, hr⟩ := Bool.or_eq_false_iff.1 h
    rw [variantsOutline, if_neg (by simp [hv]), List.length_cons, ih _ hr, List.length_cons]

/-- A schema's node stands at the schema's path, unless the schema is single. -/
theorem standsAt_outline {schema : Json} (hs : schema.isSingle = false) (path : String) :
    StandsAt path (schema.outline path) := by
  cases he : schema.entries with
  | error f => rw [outline, he]; intro p hp; cases hp
  | ok entries =>
    rw [outline_eq he]
    unfold isSingle at hs
    split
    · intro p hp; cases hp
    · intro p hp; cases hp; rfl
    · rename_i keyword variants hf
      rw [hf] at hs
      split
      · intro p hp; cases hp
      · rename_i vs hv
        refine standsAt_nullableIf fun hn => standsAt_unionOf ?_
        rw [length_variantsOutline _ _ hn]
        intro hl
        obtain ⟨v, rfl⟩ := List.length_eq_one_iff.1 hl
        cases variants with
        | arr xs => cases hv; simp_all
        | str s => simp only [schemas] at hv; split at hv <;> cases hv
        | obj es => simp only [schemas] at hv; split at hv <;> cases hv
        | _ => cases hv
    · split
      · intro p hp; cases hp
      · intro p hp; cases hp; rfl
    · exact standsAt_enumerationOutline _ _ _
    · rename_i type hf
      rw [hf] at hs
      apply standsAt_typeOutline (stand_kindOutlines ..) _ path
      rintro t rfl
      cases hs
    · exact standsAt_ofFields _ _ _

theorem outline_of_variant {schema variants variant : Json} {entries : List (String × Json)}
    {keyword : String} (he : schema.entries = .ok entries) (hf : schema.form = .union keyword variants)
    (hv : variants.schemas = .ok [variant]) (hn : variant.isNullVariant = false) (path : String) :
    schema.outline path = variant.outline (path ++ "/" ++ keyword ++ "/" ++ toString 0) := by
  rw [outline_eq he, hf]
  simp only [hv, variantsOutline, hn, List.any_cons, List.any_nil]
  rfl

/-- The node of a single schema stands further down. -/
theorem standsBelow_outline {schema : Json} (hs : schema.isSingle = true) (path : String) :
    StandsBelow path (schema.outline path) := by
  cases he : schema.entries with
  | error f => rw [outline, he]; intro p hp; cases hp
  | ok entries =>
    unfold isSingle at hs
    split at hs
    · rename_i keyword variant hf
      have hlt : sizeOf variant < sizeOf schema := by
        have := sizeOf_lt_of_form_union hf
        simp only [arr.sizeOf_spec, List.cons.sizeOf_spec] at this
        omega
      have hv : variant.isNullVariant = false := by simpa using hs
      have hpath : path ++ "/" ++ keyword ++ "/" ++ toString 0 =
          path ++ "/" ++ (keyword ++ "/" ++ toString 0) := by
        simp only [String.append_assoc]
      rw [outline_of_variant he hf rfl hv, hpath]
      by_cases hvs : variant.isSingle = true
      · exact (standsBelow_outline hvs _).below
      · exact (standsAt_outline (Bool.eq_false_iff.2 hvs) _).below
    · rename_i t hf
      rw [outline_eq he, hf]
      exact standsBelow_typeOutline (stand_kindOutlines ..) _ path t
    · cases hs
termination_by sizeOf schema
decreasing_by exact hlt

end Json

end ShapeSdl
