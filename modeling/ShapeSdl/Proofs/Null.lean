import ShapeSdl.Proofs.Alias
import Mathlib.Data.List.Forall2

/-!
# Schemas that admit null

* `Json.AdmitsNull definitions through` : a schema admits null by its type, its values, a variant, or
  the definition that it refers to. A variant counts among those of a union if `through` holds of
  their number: all count for `fun _ => True`, and for `(· = 1)` only one that stands alone;
* `Outline.Nullable` : an outline has a wrapper that admits null around it;
* `Json.nullable_outline_iff` : the outlines with such a wrapper are those of the schemas that admit
  null, when only a variant that stands alone counts;
* `Definitions.Root.nullable_iff` : an alias is nullable exactly if the definition it stands for is.
-/

namespace ShapeSdl

/-! ## Schemas -/

/-- A type that admits null: a list of types with null beside another one, or with a type that
admits null among `n` others that are not null, if `through n`. A list of null alone is refused. -/
inductive Json.TypeAdmitsNull (through : Nat → Prop) : Json → Prop
  | null {types type} (listed : nullType ∈ types) (other : type ∈ types) (proper : type ≠ nullType) :
      TypeAdmitsNull through (.arr types)
  | inside {types type} (mem : type ∈ types.filter (· ≠ nullType))
      (counts : through (types.filter (· ≠ nullType)).length)
      (onward : TypeAdmitsNull through type) : TypeAdmitsNull through (.arr types)

/-- A schema that admits null, by the keyword that decides how it is read. -/
inductive Json.AdmitsNull (definitions : Definitions) (through : Nat → Prop) : Json → Prop
  | reference {schema ref name body} (form : schema.form = .reference ref)
      (means : ref.referred? = some name) (defined : definitions.lookup name = some body)
      (onward : AdmitsNull definitions through body) : AdmitsNull definitions through schema
  | null {schema keyword v variants} (form : schema.form = .union keyword v)
      (listed : v.schemas = .ok variants) (null : variants.any Json.isNullVariant = true) :
      AdmitsNull definitions through schema
  | variant {schema keyword v variants variant} (form : schema.form = .union keyword v)
      (listed : v.schemas = .ok variants)
      (mem : variant ∈ variants.filter fun v => !v.isNullVariant)
      (counts : through (variants.filter fun v => !v.isNullVariant).length)
      (onward : AdmitsNull definitions through variant) : AdmitsNull definitions through schema
  | value {schema v values} (form : schema.form = .enumeration v) (listed : v.items = .ok values)
      (mem : .null ∈ values) : AdmitsNull definitions through schema
  | type {schema type} (form : schema.form = .typed type)
      (admits : Json.TypeAdmitsNull through type) : AdmitsNull definitions through schema

namespace Json

variable {definitions : Definitions} {through through' : Nat → Prop} {schema : Json}

theorem TypeAdmitsNull.imp (h : TypeAdmitsNull through schema)
    (ht : ∀ n, through n → through' n) : TypeAdmitsNull through' schema := by
  induction h with
  | null listed other proper => exact .null listed other proper
  | inside mem counts _ ih => exact .inside mem (ht _ counts) ih

theorem AdmitsNull.imp (h : AdmitsNull definitions through schema)
    (ht : ∀ n, through n → through' n) : AdmitsNull definitions through' schema := by
  induction h with
  | reference form means defined _ ih => exact .reference form means defined ih
  | null form listed null => exact .null form listed null
  | variant form listed mem counts _ ih => exact .variant form listed mem (ht _ counts) ih
  | value form listed mem => exact .value form listed mem
  | type form admits => exact .type form (admits.imp ht)

end Json

/-! ## Outlines -/

namespace Outline

/-- One of the wrappers around an outline admits null, references followed. -/
inductive Nullable (definitions : Definitions) : Outline → Prop
  | here {path kind value inner} (admits : kind.isNullable = true) :
      Nullable definitions (.wrapper path kind value inner)
  | inside {path kind value inner} (onward : Nullable definitions inner) :
      Nullable definitions (.wrapper path kind value inner)
  | reference {ref path name body} (means : ref.referred? = some name)
      (defined : definitions.lookup name = some body)
      (onward : Nullable definitions (body.outline (Definitions.path name))) :
      Nullable definitions (.reference ref path)

variable {definitions : Definitions} {path : String} {metadata : List (String × Json)} {o : Outline}

theorem nullable_wrapper_iff {kind : WrapperKind} {value : Json} :
    (wrapper path kind value o).Nullable definitions ↔
      kind.isNullable = true ∨ o.Nullable definitions := by
  constructor
  · rintro (⟨admits⟩ | ⟨onward⟩)
    · exact .inl admits
    · exact .inr onward
  · rintro (admits | onward)
    · exact .here admits
    · exact .inside onward

theorem nullable_reference_iff {ref body : Json} {name : String} (means : ref.referred? = some name)
    (defined : definitions.lookup name = some body) : (reference ref path).Nullable definitions ↔
      (body.outline (Definitions.path name)).Nullable definitions := by
  constructor
  · intro h
    cases h with
    | reference means' defined' onward =>
      cases means.symm.trans means'
      cases defined.symm.trans defined'
      exact onward
  · exact .reference means defined

theorem nullable_nullableIf_iff {nullable : Bool} :
    (nullableIf nullable path o).Nullable definitions ↔
      nullable = true ∨ o.Nullable definitions := by
  cases nullable with
  | false => exact ⟨.inr, fun h => h.resolve_left nofun⟩
  | true => exact ⟨fun _ => .inl rfl, fun _ => .here rfl⟩

/-- A union is nullable if it has one variant, and that is nullable. -/
theorem nullable_unionOf_iff {α : Type} {P : α → Prop} {l : List α} {os : List Outline}
    (h : List.Forall₂ (fun a o => o.Nullable definitions ↔ P a) l os) :
    (unionOf path metadata os).Nullable definitions ↔ l.length = 1 ∧ ∃ a ∈ l, P a := by
  cases h with
  | nil =>
    refine iff_of_false (fun h => by cases h) ?_
    rintro ⟨h, -⟩
    cases h
  | @cons a o l os ha hrest =>
    cases hrest with
    | nil =>
      rw [unionOf]
      simpa using ha
    | cons =>
      refine iff_of_false (fun h => by cases h) ?_
      rintro ⟨h, -⟩
      cases h

end Outline

/-! ## Types -/

/-- No kind of type admits null. -/
structure TypeOutlines.Bare (definitions : Definitions) (kinds : TypeOutlines) : Prop where
  array : ∀ path, ¬ (kinds.array path).Nullable definitions
  object : ∀ path, ¬ (kinds.object path).Nullable definitions
  scalar : ∀ type path, ¬ (kinds.scalar type path).Nullable definitions

namespace Outline

variable {definitions : Definitions} {kinds : TypeOutlines} {metadata : List (String × Json)}

mutual

theorem nullable_typeOutline_iff (hk : kinds.Bare definitions) (path : String) : ∀ (type : Json),
    (typeOutline kinds metadata path type).Nullable definitions ↔ type.TypeAdmitsNull (· = 1)
  | .arr types => by
    have hinside : (unionOf path metadata (typesOutline kinds metadata path types)).Nullable
        definitions ↔ _ := nullable_unionOf_iff (nullable_typesOutline hk path types)
    unfold typeOutline
    split
    · rename_i hall
      rw [List.all_eq_true] at hall
      have hnull : ∀ type ∈ types, type = nullType := fun type h => of_decide_eq_true (hall type h)
      refine iff_of_false nofun fun h => ?_
      cases h with
      | null _ other proper => exact proper (hnull _ other)
      | inside mem =>
        obtain ⟨mem, proper⟩ := List.mem_filter.1 mem
        exact of_decide_eq_true proper (hnull _ mem)
    · rename_i hall
      rw [nullable_nullableIf_iff, hinside, decide_eq_true_iff]
      constructor
      · rintro (listed | ⟨counts, type, mem, onward⟩)
        · obtain ⟨type, other, proper⟩ : ∃ type ∈ types, type ≠ nullType := by simpa using hall
          exact .null listed other proper
        · exact .inside mem counts onward
      · intro h
        cases h with
        | null listed => exact .inl listed
        | inside mem counts onward => exact .inr ⟨counts, _, mem, onward⟩
  | .str s => by
    refine iff_of_false (fun h => ?_) nofun
    unfold typeOutline at h
    split at h
    · cases ‹_ = Json.arr _›
    · exact hk.array path h
    · exact hk.object path h
    · exact hk.scalar _ path h
  | .null | .bool _ | .int _ | .float _ | .obj _ => iff_of_false (hk.scalar _ path) nofun

theorem nullable_typesOutline (hk : kinds.Bare definitions) (path : String) : ∀ (types : List Json),
    List.Forall₂ (fun type o => o.Nullable definitions ↔ type.TypeAdmitsNull (· = 1))
      (types.filter (· ≠ nullType)) (typesOutline kinds metadata path types)
  | [] => .nil
  | type :: rest => by
    have htype := nullable_typeOutline_iff hk (path ++ "/type/" ++ type.plain) type
    have hrest := nullable_typesOutline hk path rest
    unfold typesOutline
    by_cases hn : type = nullType
    · rw [if_pos hn, List.filter_cons_of_neg (by simpa using hn)]
      exact hrest
    · rw [if_neg hn, List.filter_cons_of_pos (by simpa using hn)]
      exact .cons htype hrest

end

theorem not_nullable_ofFields {path : String} (fields : Except Fault (List (String × Outline))) :
    ¬ (ofFields path metadata fields).Nullable definitions := by
  cases fields <;> exact nofun

end Outline

namespace Json

variable {definitions : Definitions} {schema : Json} {path : String}

theorem bare_kindOutlines (schema : Json) (metadata : List (String × Json)) :
    (schema.kindOutlines metadata).Bare definitions where
  array path := by
    unfold kindOutlines
    dsimp only
    split <;> (intro h; cases h)
  object path := Outline.not_nullable_ofFields _
  scalar type path := by
    show ¬ (scalarOutline _ metadata type path).Nullable definitions
    unfold scalarOutline
    split
    · split <;> (intro h; cases h)
    all_goals (intro h; cases h)

/-- The outlines of the variants of a union are those of the variants that are not null. -/
theorem variantsOutline_forall₂ (base : String) : ∀ (index : Nat) (variants : List Json),
    List.Forall₂ (fun variant o => ∃ path, o = variant.outline path)
      (variants.filter fun v => !v.isNullVariant) (variantsOutline base index variants)
  | _, [] => by
    rw [variantsOutline]
    exact .nil
  | index, variant :: rest => by
    have hrest := variantsOutline_forall₂ base (index + 1) rest
    rw [variantsOutline]
    by_cases hn : variant.isNullVariant = true
    · rw [if_pos hn, List.filter_cons_of_neg (by simpa using hn)]
      exact hrest
    · rw [if_neg hn, List.filter_cons_of_pos (by simpa using hn)]
      exact .cons ⟨_, rfl⟩ hrest

theorem nullable_enumerationOutline_iff {metadata : List (String × Json)} {v : Json} :
    (enumerationOutline metadata path v).Nullable definitions ↔
      ∃ values, v.items = .ok values ∧ .null ∈ values := by
  unfold enumerationOutline
  cases v.items with
  | error f => exact ⟨nofun, fun ⟨_, h, _⟩ => nomatch h⟩
  | ok values =>
    dsimp only
    have hvalues : (∃ values', (Except.ok values : Except Fault _) = .ok values' ∧ .null ∈ values') ↔
        Json.null ∈ values := ⟨fun ⟨_, h, hmem⟩ => by cases h; exact hmem, fun hmem => ⟨_, rfl, hmem⟩⟩
    rw [hvalues]
    split
    · rename_i hall
      refine iff_of_false nofun fun hmem => ?_
      cases List.all_eq_true.1 hall _ hmem
    · rw [Outline.nullable_nullableIf_iff, decide_eq_true_iff]
      exact or_iff_left nofun

theorem outline_of_unionOf {o : Outline} (h : o.Nullable definitions)
    {metadata : List (String × Json)} {variants : List Json} {os : List Outline}
    (hall : List.Forall₂ (fun variant o => ∃ path, o = variant.outline path) variants os)
    (ho : Outline.unionOf path metadata os = o) :
    ∃ variant path', variants = [variant] ∧ o = variant.outline path' := by
  cases hall with
  | nil =>
    cases ho
    cases h
  | cons hfirst hrest =>
    cases hrest with
    | nil =>
      obtain ⟨path', he⟩ := hfirst
      exact ⟨_, path', rfl, ho.symm.trans he⟩
    | cons =>
      cases ho
      cases h

theorem exists_entries_of_form (h : schema.form ≠ .untyped) :
    ∃ entries, schema.entries = .ok entries := by
  cases schema with
  | obj entries => exact ⟨entries, rfl⟩
  | _ => exact absurd rfl h

/-- A schema whose outline is nullable admits null, if its references mean schemas that do. -/
theorem admitsNull_of_outline {o : Outline} (h : o.Nullable definitions)
    (href : ∀ ref path, o = .reference ref path → ∃ name body, ref.referred? = some name ∧
      definitions.lookup name = some body ∧ body.AdmitsNull definitions (· = 1)) :
    ∀ {schema : Json} {path : String}, schema.outline path = o →
      schema.AdmitsNull definitions (· = 1) := by
  intro schema
  -- A union of one variant has the outline of that variant.
  induction hn : sizeOf schema using Nat.strongRecOn generalizing schema with
  | ind n ih =>
    subst hn
    intro path ho
    cases he : schema.entries with
    | error f =>
      rw [outline, he] at ho
      cases ho
      cases h
    | ok entries =>
      rw [outline_eq he] at ho
      split at ho
      · rename_i ref form
        obtain ⟨name, body, means, defined, onward⟩ := href ref path ho.symm
        exact .reference form means defined onward
      · cases ho
        cases h
      · rename_i keyword v form
        split at ho
        · cases ho
          cases h
        · rename_i variants listed
          by_cases hnull : variants.any isNullVariant = true
          · exact .null form listed hnull
          · rw [Bool.not_eq_true] at hnull
            obtain ⟨variant, path', hl, rfl⟩ := outline_of_unionOf h
              (variantsOutline_forall₂ (path ++ "/" ++ keyword ++ "/") 0 variants)
              (by rwa [hnull] at ho)
            have hmem : variant ∈ variants.filter fun v => !v.isNullVariant := by
              rw [hl]
              exact List.mem_singleton_self _
            have hlt : sizeOf variant < sizeOf schema := by
              have := List.sizeOf_lt_of_mem (List.mem_filter.1 hmem).1
              have := sizeOf_schemas_le listed
              have := sizeOf_lt_of_form_union form
              omega
            exact .variant form listed hmem (by rw [hl]; rfl) (ih _ hlt rfl rfl)
      · split at ho <;> cases ho <;> cases h
      · rename_i v form
        rw [← ho, nullable_enumerationOutline_iff] at h
        obtain ⟨values, listed, mem⟩ := h
        exact .value form listed mem
      · rename_i type form
        rw [← ho, Outline.nullable_typeOutline_iff (bare_kindOutlines schema _)] at h
        exact .type form h
      · rw [← ho] at h
        exact absurd h (Outline.not_nullable_ofFields _)

end Json

theorem Json.AdmitsNull.outline {definitions : Definitions} {schema : Json}
    (h : schema.AdmitsNull definitions (· = 1)) : ∀ (path : String),
      (schema.outline path).Nullable definitions := by
  induction h with
  | reference form means defined _ ih =>
    intro path
    obtain ⟨entries, he⟩ := exists_entries_of_form (by rw [form]; nofun)
    rw [outline_of_ref he form]
    exact .reference means defined (ih _)
  | null form listed null =>
    intro path
    obtain ⟨entries, he⟩ := exists_entries_of_form (by rw [form]; nofun)
    rw [outline_eq he, form]
    dsimp only
    rw [listed]
    exact Outline.nullable_nullableIf_iff.2 (.inl null)
  | @variant schema keyword v variants variant form listed mem counts _ ih =>
    intro path
    obtain ⟨entries, he⟩ := exists_entries_of_form (by rw [form]; nofun)
    rw [outline_eq he, form]
    dsimp only
    rw [listed]
    have hall := variantsOutline_forall₂ (path ++ "/" ++ keyword ++ "/") 0 variants
    obtain ⟨only, hl⟩ := List.length_eq_one_iff.1 counts
    rw [hl] at mem hall
    cases List.mem_singleton.1 mem
    obtain ⟨o, _, ⟨path', rfl⟩, hnil, hos⟩ := List.forall₂_cons_left_iff.1 hall
    cases hnil
    refine Outline.nullable_nullableIf_iff.2 (.inr ?_)
    rw [hos]
    exact ih path'
  | value form listed mem =>
    intro path
    obtain ⟨entries, he⟩ := exists_entries_of_form (by rw [form]; nofun)
    rw [outline_eq he, form]
    exact nullable_enumerationOutline_iff.2 ⟨_, listed, mem⟩
  | type form admits =>
    intro path
    obtain ⟨entries, he⟩ := exists_entries_of_form (by rw [form]; nofun)
    rw [outline_eq he, form]
    exact (Outline.nullable_typeOutline_iff (bare_kindOutlines _ _) path _).2 admits

/-- A nullable outline is that of a schema that admits null. -/
theorem Outline.Nullable.admitsNull {definitions : Definitions} {o : Outline}
    (h : o.Nullable definitions) : ∀ {schema : Json} {path : String}, schema.outline path = o →
      schema.AdmitsNull definitions (· = 1) := by
  induction h with
  | here admits => exact Json.admitsNull_of_outline (.here admits) nofun
  | inside onward => exact Json.admitsNull_of_outline (.inside onward) nofun
  | reference means defined onward ih =>
    refine Json.admitsNull_of_outline (.reference means defined onward) fun _ _ he => ?_
    cases he
    exact ⟨_, _, means, defined, ih rfl⟩

/-- The nullable outlines are those of the schemas that admit null, when only a variant that stands
alone counts. -/
theorem Json.nullable_outline_iff {definitions : Definitions} {schema : Json} {path : String} :
    (schema.outline path).Nullable definitions ↔ schema.AdmitsNull definitions (· = 1) :=
  ⟨fun h => h.admitsNull rfl, fun h => h.outline path⟩

theorem Definitions.Root.nullable_iff {definitions : Definitions} {name root : String}
    (h : definitions.Root name root) {body : Json} (hd : definitions.lookup root = some body)
    {body' : Json} (hd' : definitions.lookup name = some body') :
    (body'.outline (path name)).Nullable definitions ↔
      (body.outline (path root)).Nullable definitions := by
  induction h generalizing body' with
  | self =>
    cases hd.symm.trans hd'
    rfl
  | step defined hands means onward ih =>
    cases defined.symm.trans hd'
    obtain ⟨next, hnext⟩ : ∃ next, definitions.lookup _ = some next := by
      cases onward with
      | self defined => exact ⟨_, defined⟩
      | step defined => exact ⟨_, defined⟩
    rw [hands, Outline.nullable_reference_iff means hnext, ih hd hnext]

end ShapeSdl
