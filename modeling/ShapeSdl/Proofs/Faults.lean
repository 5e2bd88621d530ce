import ShapeSdl.Proofs.Null
import ShapeSdl.Proofs.Required
import ShapeSdl.Proofs.Stops

/-!
# What schemas are refused for

A schema is refused for what its keywords say, or for what the schemas in it are refused for. If all
keywords have values of the kinds that they are read as, the reason is always that the schema cannot
be expressed.

* `Json.Tidy`, `Json.Visits`, `Json.WellShaped` : keywords with values of the right kinds; a schema
  that is read in another one; schemas with such keywords throughout;
* `Outline.Holds o f` : fault `f` stands in an outline;
* `Json.isTold_of_outline` : what stands in the outline of a schema;
* `Goes.tells`, `Stops.told` : what is met on the way to where reading stops.
-/

namespace ShapeSdl

/-! ## Well-shaped schemas -/

/-- The keyword of a form stands in a schema, with the value of the form. -/
def Form.GivenBy (schema : Json) : Form → Prop
  | .reference v => schema.get? "$ref" = some v
  | .constant v => schema.get? "const" = some v
  | .union keyword v => (keyword = "oneOf" ∨ keyword = "anyOf") ∧ schema.get? keyword = some v
  | .merge v => schema.get? "allOf" = some v
  | .enumeration v => schema.get? "enum" = some v
  | .typed v => schema.get? "type" = some v
  | .untyped => True

namespace Json

def isObject : Json → Bool
  | obj _ => true
  | _ => false

def isListOf (p : Json → Bool) : Json → Bool
  | arr values => values.all p
  | _ => false

def isObjectOf (p : Json → Bool) : Json → Bool
  | obj entries => entries.all fun entry => p entry.2
  | _ => false

/-- A value that may stand under `items`: a schema, a list of schemas, or null. -/
def isItems : Json → Bool
  | obj _ | arr _ | null => true
  | _ => false

/-- A schema whose keywords have values of the kinds that they are read as. Constants, the values of
enums, defaults and extension entries may be anything. -/
structure Tidy (schema : Json) : Prop where
  isObject : schema.isObject = true
  reference : (schema.get? "$ref").all isText = true
  format : (schema.get? "format").all isText = true
  type : (schema.get? "type").all (fun v => v.isText || v.isListOf isText) = true
  required : (schema.get? "required").all (isListOf fun _ => true) = true
  enumeration : (schema.get? "enum").all (isListOf fun _ => true) = true
  oneOf : (schema.get? "oneOf").all (isListOf Json.isObject) = true
  anyOf : (schema.get? "anyOf").all (isListOf Json.isObject) = true
  allOf : (schema.get? "allOf").all (isListOf Json.isObject) = true
  properties : (schema.get? "properties").all (isObjectOf Json.isObject) = true
  items : (schema.get? "items").all isItems = true

/-- A type, or a list of types in which it stands. -/
inductive Names (kind : String) : Json → Prop
  | here : Names kind (.str kind)
  | inside {types type} (mem : type ∈ types) (onward : Names kind type) : Names kind (.arr types)

def ReadsProperties (schema : Json) : Prop :=
  schema.form = .untyped ∨ ∃ type, schema.form = .typed type ∧ type.Names "object"

/-- A schema that is read in another one. -/
inductive Visits (schema : Json) : Json → Prop
  | variant {keyword variants sub} (form : schema.form = .union keyword (.arr variants))
      (mem : sub ∈ variants) (counts : sub.isNullVariant = false) : Visits schema sub
  | part {parts sub} (form : schema.form = .merge (.arr parts)) (mem : sub ∈ parts) :
      Visits schema sub
  | element {type sub} (form : schema.form = .typed type) (isArray : type.Names "array")
      (items : schema.get? "items" = some sub) (notNull : sub ≠ .null)
      (notTuple : ∀ items, sub ≠ .arr items) : Visits schema sub
  | property {entries name sub} (reads : schema.ReadsProperties)
      (properties : schema.get? "properties" = some (.obj entries)) (mem : (name, sub) ∈ entries) :
      Visits schema sub

/-- All schemas that are read in a schema are tidy, its own included. -/
def WellShaped (schema : Json) : Prop := ∀ sub, Relation.ReflTransGen Visits schema sub → sub.Tidy

theorem Visits.sizeOf_lt {schema sub : Json} (h : schema.Visits sub) : sizeOf sub < sizeOf schema := by
  cases h with
  | variant form mem =>
    have := sizeOf_lt_of_form_union form
    have := List.sizeOf_lt_of_mem mem
    simp only [arr.sizeOf_spec] at *
    omega
  | part form mem =>
    have := sizeOf_lt_of_form_merge form
    have := List.sizeOf_lt_of_mem mem
    simp only [arr.sizeOf_spec] at *
    omega
  | element _ _ items => exact sizeOf_lt_of_get? items
  | property _ properties mem =>
    have := sizeOf_lt_of_get? properties
    have := sizeOf_lt_of_mem_entries mem
    simp only [obj.sizeOf_spec] at *
    omega

theorem WellShaped.tidy {schema : Json} (h : schema.WellShaped) : schema.Tidy := h schema .refl

theorem WellShaped.intro {schema : Json} (ht : schema.Tidy)
    (hv : ∀ sub, schema.Visits sub → sub.WellShaped) : schema.WellShaped := by
  intro sub h
  rcases Relation.ReflTransGen.cases_head h with rfl | ⟨next, hnext, h⟩
  · exact ht
  · exact hv next hnext sub h

theorem form_givenBy (schema : Json) : schema.form.GivenBy schema := by
  unfold form
  split
  · assumption
  split
  · assumption
  split
  · exact ⟨.inl rfl, ‹_›⟩
  split
  · exact ⟨.inr rfl, ‹_›⟩
  split
  · assumption
  split
  · assumption
  split
  · assumption
  · trivial

end Json

/-! ## Faults in outlines -/

def Fault.isStructural : Fault → Bool
  | structural _ => true
  | _ => false

def Fault.isCyclic : Fault → Bool
  | structural (.cyclicDefinition _) => true
  | _ => false

namespace Outline

inductive Holds (f : Fault) : Outline → Prop
  | fault : Holds f (.fault f)
  | refused {inner} : Holds f (.refused inner f)
  | notText {ref path} (notText : ref.isText = false) (isMisuse : f = .misuse .notText) :
      Holds f (.reference ref path)
  | inRefused {inner g} (inside : Holds f inner) : Holds f (.refused inner g)
  | wrapper {path kind value inner} (inside : Holds f inner) : Holds f (.wrapper path kind value inner)
  | list {path metadata element} (inside : Holds f element) : Holds f (.list path metadata element)
  | union {path metadata variants o} (mem : o ∈ variants) (inside : Holds f o) :
      Holds f (.union path metadata variants)
  | object {path metadata fields field} (mem : field ∈ fields) (inside : Holds f field.2) :
      Holds f (.object path metadata fields)
  | merge {path metadata parts o} (mem : o ∈ parts) (inside : Holds f o) :
      Holds f (.merge path metadata parts)

variable {f : Fault} {path : String} {metadata : List (String × Json)}

theorem Holds.of_nullableIf {nullable : Bool} {o : Outline} (h : (nullableIf nullable path o).Holds f) :
    o.Holds f := by
  cases nullable with
  | false => exact h
  | true => cases h; assumption

theorem Holds.of_unionOf {os : List Outline} (h : (unionOf path metadata os).Holds f) :
    ∃ o ∈ os, o.Holds f := by
  match os, h with
  | [], .union mem inside => exact ⟨_, mem, inside⟩
  | [o], h => exact ⟨o, List.mem_singleton_self o, h⟩
  | _ :: _ :: _, .union mem inside => exact ⟨_, mem, inside⟩

end Outline

theorem mem_typesOutline {kinds : TypeOutlines} {metadata : List (String × Json)} {path : String}
    {o : Outline} : ∀ {types : List Json}, o ∈ typesOutline kinds metadata path types →
      ∃ type ∈ types, ∃ path', o = typeOutline kinds metadata path' type
  | type :: rest, h => by
    unfold typesOutline at h
    split at h
    · obtain ⟨t, hmem, path', ho⟩ := mem_typesOutline h
      exact ⟨t, List.mem_cons_of_mem _ hmem, path', ho⟩
    · rcases List.mem_cons.1 h with rfl | h
      · exact ⟨type, List.mem_cons_self, _, rfl⟩
      · obtain ⟨t, hmem, path', ho⟩ := mem_typesOutline h
        exact ⟨t, List.mem_cons_of_mem _ hmem, path', ho⟩

/-- What stands in the outline of a type is that null stands alone, or stands in the outline of a
kind of type. -/
theorem Outline.Holds.of_typeOutline {kinds : TypeOutlines} {metadata : List (String × Json)}
    {f : Fault} {path : String} {type : Json} (h : (typeOutline kinds metadata path type).Holds f) :
    (∃ path', f = .structural (.nullOnlyType path')) ∨ ∃ path',
      type.Names "array" ∧ (kinds.array path').Holds f ∨
        type.Names "object" ∧ (kinds.object path').Holds f ∨
          ∃ scalar, (kinds.scalar scalar path').Holds f := by
  cases type with
  | arr types =>
    unfold typeOutline at h
    split at h
    · cases h
      exact .inl ⟨path, rfl⟩
    · obtain ⟨o, hlisted, ho⟩ := h.of_nullableIf.of_unionOf
      obtain ⟨t, hmem, path', rfl⟩ := mem_typesOutline hlisted
      have hlt : sizeOf t < sizeOf (Json.arr types) := by
        have := List.sizeOf_lt_of_mem hmem
        simp only [Json.arr.sizeOf_spec]
        omega
      refine ho.of_typeOutline.imp_right ?_
      rintro ⟨path', ⟨hn, hk⟩ | ⟨hn, hk⟩ | hk⟩
      · exact ⟨path', .inl ⟨.inside hmem hn, hk⟩⟩
      · exact ⟨path', .inr (.inl ⟨.inside hmem hn, hk⟩)⟩
      · exact ⟨path', .inr (.inr hk)⟩
  | str s =>
    unfold typeOutline at h
    split at h
    · cases ‹_ = Json.arr _›
    · rename_i he
      cases he
      exact .inr ⟨path, .inl ⟨.here, h⟩⟩
    · rename_i he
      cases he
      exact .inr ⟨path, .inr (.inl ⟨.here, h⟩)⟩
    · exact .inr ⟨path, .inr (.inr ⟨_, h⟩)⟩
  | _ => exact .inr ⟨path, .inr (.inr ⟨_, h⟩)⟩
termination_by sizeOf type

namespace Json

/-- A fault that a schema may be refused for itself. -/
def Told (schema : Json) (f : Fault) : Prop :=
  f.isCyclic = false ∧ (schema.Tidy → f.isStructural = true)

theorem told_of_not_tidy {schema : Json} {what : Misuse} (h : ¬ schema.Tidy) :
    schema.Told (.misuse what) := ⟨rfl, fun ht => absurd ht h⟩

variable {schema : Json} {f : Fault}

theorem entries_error {v : Json} (h : v.entries = .error f) :
    f = .misuse .notObject ∧ v.isObject = false := by
  cases v <;> cases h <;> exact ⟨rfl, rfl⟩

theorem schemas_error {v : Json} (h : v.schemas = .error f) :
    (∃ what, f = .misuse what) ∧ ∀ p, v.isListOf p = false := by
  cases v with
  | arr values => cases h
  | str text =>
    simp only [schemas] at h
    split at h <;> cases h
    exact ⟨⟨_, rfl⟩, fun _ => rfl⟩
  | obj entries =>
    simp only [schemas] at h
    split at h <;> cases h
    exact ⟨⟨_, rfl⟩, fun _ => rfl⟩
  | _ => cases h; exact ⟨⟨_, rfl⟩, fun _ => rfl⟩

theorem schemas_ok {v sub : Json} {variants : List Json} (h : v.schemas = .ok variants)
    (hmem : sub ∈ variants) : v = .arr variants := by
  cases v with
  | arr values => cases h; rfl
  | str text =>
    simp only [schemas] at h
    split at h <;> cases h
    cases hmem
  | obj entries =>
    simp only [schemas] at h
    split at h <;> cases h
    cases hmem
  | _ => cases h

theorem holds_error {v : Json} {name : String} (h : v.holds name = .error f) :
    (∃ what, f = .misuse what) ∧ v.isListOf (fun _ => true) = false := by
  cases v <;> cases h <;> exact ⟨⟨_, rfl⟩, rfl⟩

theorem items_error {v : Json} (h : v.items = .error f) :
    (∃ what, f = .misuse what) ∧ v.isListOf (fun _ => true) = false := by
  cases v <;> cases h <;> exact ⟨⟨_, rfl⟩, rfl⟩

theorem formatChecks_error {v : Json} (h : formatChecks v = .error f) :
    (∃ what, f = .misuse what) ∧ v.isText = false := by
  unfold formatChecks at h
  split at h <;> cases h <;> exact ⟨⟨_, rfl⟩, rfl⟩

theorem Tidy.union (ht : schema.Tidy) {keyword : String} {v : Json}
    (form : schema.form = .union keyword v) : v.isListOf Json.isObject = true := by
  have hgiven := schema.form_givenBy
  rw [form] at hgiven
  obtain ⟨rfl | rfl, hv⟩ := hgiven
  · simpa [hv] using ht.oneOf
  · simpa [hv] using ht.anyOf

theorem Tidy.merge (ht : schema.Tidy) {v : Json} (form : schema.form = .merge v) :
    v.isListOf Json.isObject = true := by
  have hgiven := schema.form_givenBy
  rw [form] at hgiven
  simpa [show schema.get? "allOf" = some v from hgiven] using ht.allOf

theorem mem_partsOutline {path : String} {o : Outline} : ∀ {index : Nat} {parts : List Json},
    o ∈ partsOutline path index parts → ∃ part ∈ parts, ∃ path', o = part.outline path'
  | _, [], h => by rw [partsOutline] at h; cases h
  | index, part :: rest, h => by
    rw [partsOutline] at h
    rcases List.mem_cons.1 h with rfl | h
    · exact ⟨part, List.mem_cons_self, _, rfl⟩
    · obtain ⟨sub, hmem, path', ho⟩ := mem_partsOutline h
      exact ⟨sub, List.mem_cons_of_mem _ hmem, path', ho⟩

theorem told_of_fieldsOutline {path : String} {metadata : List (String × Json)}
    (hreads : schema.ReadsProperties)
    (h : (Outline.ofFields path metadata (schema.fieldsOutline path)).Holds f) :
    schema.Told f ∨ ∃ sub path', schema.Visits sub ∧ (sub.outline path').Holds f := by
  rw [fieldsOutline_eq] at h
  cases hp : schema.get? "properties" with
  | none =>
    rw [hp] at h
    cases h with
    | object mem => cases mem
  | some properties =>
    rw [hp] at h
    dsimp only at h
    cases he : properties.entries with
    | error g =>
      rw [he] at h
      cases h
      obtain ⟨rfl, hobj⟩ := entries_error he
      refine .inl (told_of_not_tidy fun ht => ?_)
      have hobjects : properties.isObjectOf Json.isObject = true := by simpa [hp] using ht.properties
      cases properties with
      | obj => cases hobj
      | _ => cases hobjects
    | ok entries =>
      obtain rfl : properties = .obj entries := by cases properties <;> cases he; rfl
      rw [he] at h
      cases h with
      | object mem inside =>
        rw [propertiesOutline_eq_map] at mem
        obtain ⟨⟨name, sub⟩, hmem, rfl⟩ := List.mem_map.1 mem
        have hvisits : schema.Visits sub := .property hreads hp hmem
        unfold fieldOutline at inside
        dsimp only at inside
        split at inside
        · cases inside with
          | wrapper inside => exact .inr ⟨sub, _, hvisits, inside⟩
        · split at inside
          · exact .inr ⟨sub, _, hvisits, inside⟩
          · cases inside with
            | wrapper inside => exact .inr ⟨sub, _, hvisits, inside⟩
          · rename_i g hholds
            cases inside with
            | inRefused inside => exact .inr ⟨sub, _, hvisits, inside⟩
            | refused =>
              obtain ⟨⟨what, rfl⟩, hlist⟩ := holds_error hholds
              refine .inl (told_of_not_tidy fun ht => ?_)
              have hrequired := ht.required
              cases hr : schema.get? "required" with
              | none => rw [hr] at hlist; cases hlist
              | some v =>
                rw [hr] at hlist hrequired
                cases hrequired.symm.trans hlist

/-- What stands in the outline of a kind of type of a schema. -/
theorem told_of_scalarOutline {metadata : List (String × Json)} {scalar : Json} {path : String}
    (h : (scalarOutline ((schema.get? "format").getD (.str "")) metadata scalar path).Holds f) :
    schema.Told f := by
  unfold scalarOutline at h
  split at h
  · split at h
    · cases h
    · rename_i g hg
      cases h
      obtain ⟨⟨what, rfl⟩, htext⟩ := formatChecks_error hg
      refine told_of_not_tidy fun ht => ?_
      have hformat := ht.format
      cases hv : schema.get? "format" with
      | none => rw [hv] at htext; cases htext
      | some v => rw [hv] at htext hformat; exact absurd (hformat.symm.trans htext) nofun
  · cases h
  · cases h
  · cases h
  · cases h
    exact ⟨rfl, fun _ => rfl⟩

theorem told_of_array {metadata : List (String × Json)} {type : Json} {path : String}
    (form : schema.form = .typed type) (hn : type.Names "array")
    (h : ((schema.kindOutlines metadata).array path).Holds f) :
    schema.Told f ∨ ∃ sub path', schema.Visits sub ∧ (sub.outline path').Holds f := by
  unfold kindOutlines at h
  dsimp only at h
  split at h
  · cases h with
    | list inside => cases inside with | object mem => cases mem
  · cases h with
    | list inside => cases inside with | object mem => cases mem
  · cases h
    exact .inl ⟨rfl, fun _ => rfl⟩
  · rename_i sub hnull htuple items
    cases h with
    | list inside => exact .inr ⟨sub, _, .element form hn items hnull htuple, inside⟩

theorem not_holds_constant {path : String} {o : Outline} (hf : o.Holds f) : ∀ {index : Nat}
    {values : List Json}, o ∉ constantsOutline path index values
  | _, [] => nofun
  | _, v :: rest => by
    have hrest : ∀ index, o ∉ constantsOutline path index rest := fun _ => not_holds_constant hf
    unfold constantsOutline
    split
    · exact nofun
    · rename_i he
      cases he
      exact hrest _
    · rename_i he
      cases he
      refine fun h => (List.mem_cons.1 h).elim ?_ (hrest _)
      rintro rfl
      cases hf

/-- What stands in the outline of a schema is a fault of its own, or stands in that of a schema that
is read in it. -/
theorem told_or_visits {path : String} (h : (schema.outline path).Holds f) :
    schema.Told f ∨ ∃ sub path', schema.Visits sub ∧ (sub.outline path').Holds f := by
  cases he : schema.entries with
  | error g =>
    rw [outline, he] at h
    cases h
    obtain ⟨rfl, hobj⟩ := entries_error he
    exact .inl (told_of_not_tidy fun ht => by rw [ht.isObject] at hobj; cases hobj)
  | ok entries =>
    have hgiven := schema.form_givenBy
    rw [outline_eq he] at h
    split at h
    all_goals rename_i form
    all_goals rw [form] at hgiven
    · rename_i ref
      cases h with
      | notText notText isMisuse =>
        rw [isMisuse]
        refine .inl (told_of_not_tidy fun ht => ?_)
        have hreference := ht.reference
        rw [show schema.get? "$ref" = some ref from hgiven] at hreference
        exact absurd (hreference.symm.trans notText) nofun
    · cases h
    · split at h
      · rename_i g hg
        cases h
        obtain ⟨⟨what, rfl⟩, hlist⟩ := schemas_error hg
        refine .inl (told_of_not_tidy fun ht => ?_)
        exact absurd ((ht.union form).symm.trans (hlist _)) nofun
      · rename_i variants listed
        obtain ⟨o, hmem, ho⟩ := h.of_nullableIf.of_unionOf
        obtain ⟨sub, hsub, path', rfl⟩ := exists_mem_left (variantsOutline_forall₂ _ _ _) hmem
        obtain ⟨hsub, hcounts⟩ := List.mem_filter.1 hsub
        cases schemas_ok listed hsub
        exact .inr ⟨sub, path', .variant form hsub (by simpa using hcounts), ho⟩
    · split at h
      · rename_i g hg
        cases h
        obtain ⟨⟨what, rfl⟩, hlist⟩ := schemas_error hg
        refine .inl (told_of_not_tidy fun ht => ?_)
        exact absurd ((ht.merge form).symm.trans (hlist _)) nofun
      · rename_i parts listed
        cases h with
        | merge mem inside =>
          obtain ⟨sub, hsub, path', rfl⟩ := mem_partsOutline mem
          cases schemas_ok listed hsub
          exact .inr ⟨sub, path', .part form hsub, inside⟩
    · rename_i values
      unfold enumerationOutline at h
      split at h
      · rename_i g hg
        cases h
        obtain ⟨⟨what, rfl⟩, hlist⟩ := items_error hg
        refine .inl (told_of_not_tidy fun ht => ?_)
        have henumeration := ht.enumeration
        rw [show schema.get? "enum" = some values from hgiven] at henumeration
        exact absurd (henumeration.symm.trans hlist) nofun
      · split at h
        · cases h
        · cases h.of_nullableIf with
          | union mem inside => exact absurd mem (not_holds_constant inside)
    · rename_i type
      rcases h.of_typeOutline with ⟨path', rfl⟩ | ⟨path', ⟨hn, hk⟩ | ⟨hn, hk⟩ | ⟨scalar, hk⟩⟩
      · exact .inl ⟨rfl, fun _ => rfl⟩
      · exact told_of_array form hn hk
      · exact told_of_fieldsOutline (.inr ⟨type, form, hn⟩) hk
      · exact .inl (told_of_scalarOutline hk)
    · exact told_of_fieldsOutline (.inl form) h

/-- What stands in the outline of a schema is a fault of a schema that is read in it. -/
theorem told_of_outline {schema : Json} {path : String} (h : (schema.outline path).Holds f) :
    ∃ sub, Relation.ReflTransGen Visits schema sub ∧ sub.Told f := by
  rcases told_or_visits h with htold | ⟨sub, path', hvisits, hsub⟩
  · exact ⟨schema, .refl, htold⟩
  · have := hvisits.sizeOf_lt
    obtain ⟨last, hlast, htold⟩ := told_of_outline hsub
    exact ⟨last, .head hvisits hlast, htold⟩
termination_by sizeOf schema

/-- No schema is refused for a definition that refers to itself. -/
theorem not_isCyclic_of_outline {path : String} (h : (schema.outline path).Holds f) :
    f.isCyclic = false := by
  obtain ⟨sub, -, htold⟩ := told_of_outline h
  exact htold.1

theorem WellShaped.isStructural (hw : schema.WellShaped) {path : String}
    (h : (schema.outline path).Holds f) : f.isStructural = true := by
  obtain ⟨sub, hsub, htold⟩ := told_of_outline h
  exact htold.2 (hw sub hsub)

end Json

/-! ## Faults on the way to where reading stops -/

section
variable {P : Fault → Prop} {definitions : Definitions} {v w : Visit} {f : Fault} {t : Session}

/-- Every fault that stands in a job is as `P` says. -/
def Job.Tells (P : Fault → Prop) : Job → Prop
  | outline o => ∀ f, o.Holds f → P f
  | definition _ => True

def Task.Tells (P : Fault → Prop) : Task → Prop
  | one job => job.Tells P
  | all jobs => ∀ job ∈ jobs, job.Tells P

def Definitions.Tells (P : Fault → Prop) (definitions : Definitions) : Prop :=
  ∀ name body, definitions.lookup name = some body →
    ∀ path f, (body.outline path).Holds f → P f

theorem Goes.tells (h : Goes definitions v w) (hd : definitions.Tells P) (hv : v.task.Tells P) :
    w.task.Tells P := by
  cases h with
  | wrapper => exact fun f hf => hv f (.wrapper hf)
  | refused => exact fun f hf => hv f (.inRefused hf)
  | list => exact fun f hf => hv f (.list hf)
  | union =>
    refine List.forall_mem_map.2 fun o hmem f hf => ?_
    exact hv f (.union hmem hf)
  | object =>
    refine List.forall_mem_map.2 fun field hmem f hf => ?_
    exact hv f (.object hmem hf)
  | merge => exact fun f hf => hv f (.merge (List.mem_append_right _ List.mem_cons_self) hf)
  | reference => exact trivial
  | @plain _ _ name _ _ _ _ _ _ defined _ outlined =>
    refine List.forall_mem_map.2 fun field hmem f hf => hd name _ defined (Definitions.path name) f ?_
    rw [outlined]
    exact .object hmem hf
  | other _ _ defined => exact fun f hf => hd _ _ defined _ f hf
  | first => exact hv _ List.mem_cons_self
  | rest => exact fun job hmem => hv job (List.mem_cons_of_mem _ hmem)

theorem Goes.tells_of_reaches (h : Relation.ReflTransGen (Goes definitions) v w)
    (hd : definitions.Tells P) (hv : v.task.Tells P) : w.task.Tells P := by
  induction h with
  | refl => exact hv
  | tail _ hlast ih => exact hlast.tells hd ih

/-- Reading stops at a fault that stands in the task or in a definition, at a definition that is no
object, or because what is read cannot be expressed. A definition is refused for referring to itself
only if it is being read and has no node. -/
theorem Stops.told (h : Stops definitions v f t) (hd : definitions.Tells P) (hv : v.task.Tells P) :
    P f ∨ (∃ name body, definitions.lookup name = some body ∧ body.isPlainObject = .error f) ∨
      ∃ cause, f = .structural cause ∧ ∀ name, cause = .cyclicDefinition name →
        v.task = .one (.definition name) ∧ v.session.known.get? name = none ∧ name ∈ v.stack := by
  cases h with
  | fault => exact .inl (hv _ .fault)
  | refused => exact .inl (hv _ .refused)
  | notText notText => exact .inl (hv _ (.notText notText rfl))
  | part | external | unresolved => exact .inr (.inr ⟨_, rfl, nofun⟩)
  | cyclic unknown busy =>
    refine .inr (.inr ⟨_, rfl, ?_⟩)
    rintro name ⟨⟩
    exact ⟨rfl, unknown, busy⟩
  | body _ _ defined misshaped => exact .inr (.inl ⟨_, _, defined, misshaped⟩)
  | @fields _ _ name _ _ _ _ _ _ defined _ misshaped =>
    refine .inl (hd name _ defined (Definitions.path name) _ ?_)
    rw [misshaped]
    exact .fault

end

theorem Json.tells_visit {P : Fault → Prop} {schema : Json} {definitions : Definitions}
    {root : String} (h : ∀ o, schema.rootOutline root = some o → ∀ f, o.Holds f → P f) (s : Session) :
    (schema.visit definitions root s).task.Tells P := by
  refine List.forall_mem_append.2 ⟨List.forall_mem_map.2 fun _ _ => trivial, ?_⟩
  refine List.forall_mem_map.2 fun o ho => ?_
  exact h o (Option.mem_toList.1 ho)

theorem Json.isPlainObject_error {schema : Json} {f : Fault} (h : schema.isPlainObject = .error f) :
    (∃ what, f = .misuse what) ∧ schema.isObject = false := by
  unfold isPlainObject at h
  split at h
  all_goals first
    | (cases h; exact ⟨⟨_, rfl⟩, rfl⟩)
    | (split at h <;> cases h)

end ShapeSdl
