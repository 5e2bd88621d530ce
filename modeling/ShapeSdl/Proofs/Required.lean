import ShapeSdl.Proofs.FieldNames
import ShapeSdl.Proofs.Null
import ShapeSdl.Proofs.TypeNames

/-!
# Fields that are never null

* `TypeExpr.isRequired` : whether a type is marked as never null;
* `Settled.nullable_iff` : a node has a wrapper around it that admits null exactly if its outline is
  nullable;
* `Json.properties`, `Json.mayLack` : the properties of an object, and whether one may be left out;
* `Settled.fields_nullable` : the fields of an object definition and the properties they were read
  from;
* `Options.Unmarked` : no name ends with the mark, as is the case without options
  (`TypeName.not_isMarked_pascal`, `Options.unmarked_default`);
* `fields_required` : the field of a property is not marked exactly if the property may be left out
  or its schema admits null;
* `mixedUnion_required` : null in one variant of several is lost.
-/

namespace ShapeSdl

/-! ## Marks -/

def TypeExpr.isRequired : TypeExpr → Bool
  | required _ => true
  | _ => false

theorem Context.HasBase.isRequired {cx : Context} {r : Ref} {t : TypeExpr} (h : cx.HasBase r t) :
    t.isRequired = false := by
  cases h <;> rfl

theorem Context.HasType.isRequired {cx : Context} {r : Ref} {t : TypeExpr} (h : cx.HasType r t) :
    ∃ e nullable, cx.graph.Unwraps r e nullable ∧ (t.isRequired = false ↔ nullable = true) := by
  cases h with
  | @intro inner nullable t inside type =>
    refine ⟨inner, nullable, inside, ?_⟩
    cases nullable with
    | false => exact iff_of_false nofun nofun
    | true => exact iff_of_true type.isRequired rfl

/-! ## Wrappers in the graph -/

namespace Built

variable {definitions : Definitions} {s : Session} {unfinished own : List NodeId} {o : Outline}
  {id : NodeId}

theorem of_wrapper (h : Built s unfinished (.one (.outline o)) [id] own)
    (hr : o.isReference = false) {kind : WrapperKind} {inner : Ref} {value : Json}
    (hs : s.graph.shape? (some id) = some (.wrapper kind inner value)) :
    ∃ path i o' own', inner = some i ∧ o = .wrapper path kind value o' ∧
      Built s unfinished (.one (.outline o')) [i] own' := by
  cases h with
  | @leaf n hleaf _ node =>
    rw [Graph.shape?, node, Option.map_some, Option.some.injEq] at hs
    rw [hs] at hleaf
    cases hleaf
  | wrapper inside node =>
    rw [Graph.shape?, node] at hs
    cases hs
    exact ⟨_, _, _, _, rfl, rfl, inside⟩
  | list _ node | union _ node | object _ node | merge _ node =>
    rw [Graph.shape?, node] at hs
    cases hs
  | reference => cases hr

theorem not_nullable (h : Built s unfinished (.one (.outline o)) [id] own)
    (hr : o.isReference = false) (hw : s.graph.isWrapper (some id) = false) :
    ¬ o.Nullable definitions := by
  intro hn
  cases hn with
  | here | inside =>
    cases h with
    | wrapper _ node =>
      rw [Graph.isWrapper, Graph.shape?, node] at hw
      cases hw
  | reference => cases hr

end Built

namespace Settled

variable {definitions : Definitions} {own : String → List NodeId} {s : Session}
  {unfinished mine : List NodeId} {o : Outline} {id : NodeId}

theorem exists_built (S : Settled definitions own s)
    (h : Built s unfinished (.one (.outline o)) [id] mine) : ∃ o' unfinished' mine',
      Built s unfinished' (.one (.outline o')) [id] mine' ∧ o'.isReference = false ∧
        (o.Nullable definitions ↔ o'.Nullable definitions) := by
  cases hr : o.isReference with
  | false => exact ⟨o, unfinished, mine, h, hr, .rfl⟩
  | true =>
    obtain ⟨ref, path, rfl⟩ := Outline.isReference_iff.1 hr
    obtain ⟨name, means, known⟩ := h.of_reference
    obtain ⟨body, _, hbody, -⟩ := S.built name id known List.not_mem_nil
    obtain ⟨root, hroot, hk⟩ := S.rooted _ _ known
    obtain ⟨rootBody, _, hd, -, hb⟩ := S.built root id hk List.not_mem_nil
    refine ⟨_, _, _, hb, ?_, ?_⟩
    · have ha := hroot.isAlias
      rwa [Definitions.isAlias, hd] at ha
    · rw [Outline.nullable_reference_iff means hbody, hroot.nullable_iff hd hbody]

/-- A node has a wrapper around it that admits null exactly if its outline is nullable. -/
theorem nullable_iff (S : Settled definitions own s) {e : Ref} {nullable : Bool}
    (hu : s.graph.Unwraps (some id) e nullable)
    (h : Built s unfinished (.one (.outline o)) [id] mine) :
    nullable = true ↔ o.Nullable definitions := by
  generalize hr : some id = r at hu
  -- The node of a reference is that of a root, so every step begins with an outline that makes it.
  induction hu generalizing id o unfinished mine with
  | here bare =>
    subst hr
    obtain ⟨o', _, _, hb, href, hn⟩ := S.exists_built h
    rw [hn]
    exact iff_of_false nofun (hb.not_nullable href bare)
  | wrapper node _ ih =>
    subst hr
    obtain ⟨o', _, _, hb, href, hn⟩ := S.exists_built h
    obtain ⟨path, i, inner, _, rfl, rfl, hinner⟩ := hb.of_wrapper href node
    rw [hn, Outline.nullable_wrapper_iff, Bool.or_eq_true, ih hinner rfl]

end Settled

/-! ## Properties -/

namespace Json

def properties (schema : Json) : Entries String Json :=
  match schema.get? "properties" with
  | some (.obj properties) => .ofList properties
  | _ => ∅

/-- Whether a property may be left out: it has no default and is not required. -/
def mayLack (schema : Json) (property : String × Json) : Prop :=
  property.2.get? "default" = none ∧
    ((schema.get? "required").getD (.arr [])).holds property.1 = .ok false

theorem propertiesOutline_eq_map (required : Json) (base : String)
    (properties : List (String × Json)) : propertiesOutline required base properties =
      properties.map fun p =>
        (p.1, fieldOutline required p.1 p.2 (base ++ p.1) (p.2.outline (base ++ p.1))) := by
  induction properties with
  | nil => rw [propertiesOutline, List.map_nil]
  | cons property rest ih => rw [propertiesOutline, List.map_cons, ih]

end Json

/-- What has been built of a property is nullable if the property may be left out or its schema is. -/
theorem Built.nullable_fieldOutline_iff {definitions : Definitions} {s : Session}
    {unfinished own : List NodeId} {required schema : Json} {name path : String} {o : Outline}
    {id : NodeId}
    (h : Built s unfinished (.one (.outline (fieldOutline required name schema path o))) [id] own) :
    (fieldOutline required name schema path o).Nullable definitions ↔
      (schema.get? "default" = none ∧ required.holds name = .ok false) ∨ o.Nullable definitions := by
  unfold fieldOutline at h ⊢
  cases hd : schema.get? "default" with
  | some value =>
    dsimp only
    rw [Outline.nullable_wrapper_iff]
    exact or_congr_left (iff_of_false nofun nofun)
  | none =>
    cases hr : required.holds name with
    | error f =>
      rw [hd, hr] at h
      cases h
    | ok holds =>
      cases holds with
      | true => exact (or_iff_right nofun).symm
      | false =>
        dsimp only
        rw [Outline.nullable_wrapper_iff]
        exact or_congr_left (iff_of_true rfl ⟨rfl, rfl⟩)

theorem Built.forall₂_fields {s : Session} {unfinished : List NodeId} :
    ∀ {outlines : List (String × Outline)} {ids own : List NodeId},
      Built s unfinished (.all (Outline.fieldJobs outlines)) ids own →
        List.Forall₂ (fun field f => field.1 = f.1 ∧ ∃ id own, f.2 = some id ∧
            Built s unfinished (.one (.outline field.2)) [id] own)
          outlines ((outlines.map Prod.fst).zip (ids.map some))
  | [], _, _, _ => .nil
  | field :: outlines, _, _, h => by
    cases h with
    | cons first rest => exact .cons ⟨rfl, _, _, rfl, first⟩ rest.forall₂_fields

namespace Settled

variable {definitions : Definitions} {own : String → List NodeId} {s : Session}

/-- The fields of an object definition are those of its properties, and the wrappers around each say
whether the property may be left out or admits null. -/
theorem fields_nullable (S : Settled definitions own s) {name : String} {body : Json} {id : NodeId}
    (hbody : definitions.lookup name = some body) (hp : body.isPlainObject = .ok true)
    (hk : s.known.get? name = some id) : ∃ fields, s.graph.shape? (some id) = some (.object fields) ∧
      List.Forall₂ (fun p f => p.1 = f.1 ∧ ∀ e nullable, s.graph.Unwraps f.2 e nullable →
          (nullable = true ↔ body.mayLack p ∨ p.2.AdmitsNull definitions (· = 1)))
        body.properties.toList fields.toList := by
  obtain ⟨body', unfinished, hbody', -, hb⟩ := S.built name id hk List.not_mem_nil
  cases hbody.symm.trans hbody'
  obtain ⟨entries, -, ho⟩ := Json.outline_of_isPlainObject hp
  rw [ho] at hb
  cases hf : body.fieldsOutline (Definitions.path name) with
  | error f =>
    rw [hf] at hb
    cases hb
  | ok outlines =>
    rw [hf] at hb
    generalize own name = mine at hb
    cases hb with
    | @object _ _ _ ids _ _ inside node =>
      refine ⟨_, by rw [Graph.shape?, node]; rfl, ?_⟩
      have hfields := inside.forall₂_fields
      rw [Json.fieldsOutline_eq] at hf
      unfold Json.properties
      cases hprops : body.get? "properties" with
      | none =>
        rw [hprops] at hf
        cases hf
        exact .nil
      | some properties =>
        rw [hprops] at hf
        cases properties with
        | obj properties =>
          cases hf
          rw [Json.propertiesOutline_eq_map, List.forall₂_map_left_iff] at hfields
          refine Entries.forall₂_putAll (fun _ _ h => h.1) .nil ?_
          rw [Json.propertiesOutline_eq_map]
          refine hfields.imp fun p f hpf => ?_
          obtain ⟨hname, i, _, hi, hbuilt⟩ := hpf
          refine ⟨hname, fun e nullable hu => ?_⟩
          rw [hi] at hu
          rw [S.nullable_iff hu hbuilt, hbuilt.nullable_fieldOutline_iff, Json.nullable_outline_iff]
          rfl
        | _ => cases hf

end Settled

/-! ## Marks in texts -/

/-- Whether a text ends with the mark of what is never null. -/
def Text.IsMarked (s : String) : Prop := s.toList.getLast? = some '!'

/-- No name is given beforehand, and no scalar has a name that ends with the mark. -/
structure Options.Unmarked (o : Options) : Prop where
  seeds : o.seeds = .none
  scalars : ∀ key name, o.scalarName key = .ok name → ¬ Text.IsMarked name.plain

theorem Options.unmarked_default : ({} : Options).Unmarked where
  seeds := rfl
  scalars key name h := by
    obtain ⟨n, hn, he⟩ := scalarName_default key
    cases he.symm.trans h
    have hall : ∀ n ∈ builtinNames, n.toList.getLast? ≠ some '!' := by decide
    exact hall n hn

namespace TypeName

theorem not_isMarked_pascal (s : String) : ¬ Text.IsMarked (pascal s) := by
  intro h
  exact absurd (isAlphanum_of_mem_pascal (List.mem_of_getLast? h)) (by decide)

end TypeName

theorem exists_pascal_of_readDocument {schema : Json} {root : String} {s t : Session} {batch : Batch}
    (h : readDocument schema root s = .ok batch t) {name : String} {r : Ref}
    (hr : batch.get? name = some r) : ∃ x, name = TypeName.pascal x := by
  obtain ⟨definitions, _, _, hd, -, -⟩ := readDocument_eq_ok_iff.1 h
  obtain ⟨x, -, hx⟩ := (mem_keys_readDocument hd h).1
    (List.mem_map_of_mem (Entries.mem_toList_iff.2 hr))
  exact ⟨x, hx.symm⟩

namespace TypeExpr

theorem isMarked_required (t : TypeExpr) : Text.IsMarked (required t).text := by
  have he : (required t).text.toList = t.text.toList ++ ['!'] := by simp [text]
  rw [Text.IsMarked, he, List.getLast?_concat]

theorem not_isMarked_list (t : TypeExpr) : ¬ Text.IsMarked (list t).text := by
  have he : (list t).text.toList = ('[' :: t.text.toList) ++ [']'] := by simp [text]
  rw [Text.IsMarked, he, List.getLast?_concat]
  decide

end TypeExpr

namespace Context

variable {cx : Context} {r : Ref} {t : TypeExpr}

/-- The text of a field's type ends with the mark exactly if the type is marked. -/
theorem HasType.isMarked_iff (h : cx.HasType r t)
    (hn : ∀ e name, cx.Names e name → ¬ Text.IsMarked name.plain) :
    Text.IsMarked t.text ↔ t.isRequired = true := by
  cases h with
  | @intro inner nullable t inside type =>
    cases nullable with
    | false => exact iff_of_true t.isMarked_required rfl
    | true =>
      refine iff_of_false ?_ (by rw [TypeExpr.unlessNullable, if_pos rfl, type.isRequired]; nofun)
      cases type with
      | named _ names => exact hn _ _ names
      | list => exact TypeExpr.not_isMarked_list _

end Context

/-! ## The theorem -/

/-- The field of a property is not marked exactly if the property may be left out or its schema
admits null, where a variant of a union counts only if it stands alone. What is not marked may indeed
be null. The marks are those of the text, unless names bring their own. -/
theorem fields_required {schema : Json} {root : String} {s t : Session} {batch : Batch}
    {definitions : Definitions} (hd : schema.definitions = .ok definitions)
    (h : readDocument schema root s = .ok batch t) {o : Options} {document : Document} {w w' : Walk}
    (hc : compileBatch t.graph o batch w = .ok document w') {name type : String} {body : Json}
    {id : NodeId} (hbody : definitions.lookup name = some body) (hp : body.isPlainObject = .ok true)
    (hk : t.known.get? name = some id) (ht : batch.get? type = some (some id)) :
    ∃ typed, .type type typed ∈ document ∧ List.Forall₂ (fun p f => p.1 = f.1 ∧
      (f.2.isRequired = false ↔ body.mayLack p ∨ p.2.AdmitsNull definitions (· = 1)) ∧
      (f.2.isRequired = false → body.mayLack p ∨ p.2.AdmitsNull definitions fun _ => True) ∧
      (o.Unmarked → (Text.IsMarked f.2.text ↔ f.2.isRequired = true)))
      body.properties.toList typed := by
  obtain ⟨own, S⟩ := readDocument_settled hd h
  obtain ⟨fields, hs, hfields⟩ := S.fields_nullable hbody hp hk
  obtain ⟨registry, hreg, -, hdeclared, -⟩ := compileBatch_sound hc
  obtain ⟨d, hmem, hdecl⟩ := exists_mem_right hdeclared (Entries.mem_toList_iff.2 ht)
  have hnames : o.Unmarked → ∀ e name, Context.Names ⟨t.graph, registry, o⟩ e name →
      ¬ Text.IsMarked name.plain := by
    intro ho e name hname
    cases hname with
    | @registered n hn =>
      unfold Options.batchRegistry Options.registry at hreg
      rw [ho.seeds] at hreg
      cases hreg
      obtain ⟨x, rfl⟩ := exists_pascal_of_readDocument h (Batch.get?_of_registry hn)
      exact TypeName.not_isMarked_pascal x
    | scalar _ _ written => exact ho.scalars _ _ written
  cases hdecl with
  | type node types =>
    cases hs.symm.trans node
    refine ⟨_, hmem, forall₂_comp hfields types fun p f typed hpf hft => ?_⟩
    obtain ⟨hname, hnull⟩ := hpf
    obtain ⟨hname', htype⟩ := hft
    obtain ⟨e, nullable, hu, hrequired⟩ := htype.isRequired
    have hiff := hrequired.trans (hnull e nullable hu)
    refine ⟨hname.trans hname'.symm, hiff, fun hf => (hiff.1 hf).imp_right ?_, fun ho => ?_⟩
    · exact fun hadmits => hadmits.imp fun _ _ => trivial
    · exact htype.isMarked_iff (hnames ho)
  | enumeration node | union node => cases hs.symm.trans node

def account : Json := .obj [("$defs", .obj [
  ("account", .obj [("type", .str "object"),
    ("properties", .obj [("mail", .obj [("$ref", .str "#/$defs/mail")]),
      ("name", .obj [("type", .str "string")])]),
    ("required", .arr [.str "mail", .str "name"])]),
  ("mail", .obj [("type", .arr [.str "string", .str "null"])])])]

theorem fields_required_account : ∃ batch t document w mail name,
    readDocument account "" {} = .ok batch t ∧ compileBatch t.graph {} batch {} = .ok document w ∧
      .type "Account" [("mail", mail), ("name", name)] ∈ document ∧
      ¬ Text.IsMarked mail.text ∧ Text.IsMarked name.text := by
  obtain ⟨definitions, body, mail, hd, hbody, hp, hmail, hprops, hlists⟩ :
      ∃ definitions body mail, account.definitions = .ok definitions ∧
        definitions.lookup "account" = some body ∧ body.isPlainObject = .ok true ∧
        definitions.lookup "mail" = some mail ∧ body.properties.toList =
          [("mail", .obj [("$ref", .str "#/$defs/mail")]), ("name", .obj [("type", .str "string")])] ∧
        mail.form = .typed (.arr [.str "string", .str "null"]) ∧
        ((body.get? "required").getD (.arr [])).holds "name" = .ok true :=
    ⟨_, _, _, rfl, rfl, by decide, rfl, rfl, rfl, by decide⟩
  obtain ⟨hform, hholds⟩ := hlists
  have hcompiled : (Compilation.ofSchema account "" {}).result = .ok [.type "Account"
      [("mail", .named (.str "String")), ("name", .required (.named (.str "String")))]] := by
    decide +kernel
  obtain ⟨batch, t, w, h, hc⟩ := Compilation.result_eq_ok_iff.1 hcompiled
  obtain ⟨_, _, h', ht⟩ := Reading.exists_ok (x := readDocument account "" {})
    (p := fun batch t => decide (t.known.get? "account" = some 0 ∧
      batch.get? "Account" = some (some 0))) (by decide +kernel)
  cases h.symm.trans h'
  obtain ⟨hk, hn⟩ := of_decide_eq_true ht
  obtain ⟨typed, hmem, hall⟩ := fields_required hd h hc hbody hp hk hn
  rw [hprops] at hall
  obtain ⟨⟨_, mailType⟩, _, ⟨rfl, hnullable, -, hmailText⟩, hrest, rfl⟩ :=
    List.forall₂_cons_left_iff.1 hall
  obtain ⟨⟨_, nameType⟩, _, ⟨rfl, hproper, -, hnameText⟩, hnil, rfl⟩ :=
    List.forall₂_cons_left_iff.1 hrest
  cases hnil
  have hmailAdmits : mail.AdmitsNull definitions (· = 1) :=
    .type hform (.null (by decide) List.mem_cons_self (by decide))
  have hunmarked := hnullable.2 (.inr (.reference rfl (by decide +kernel) hmail hmailAdmits))
  have hmarked : nameType.isRequired = true := by
    rw [← Bool.not_eq_false]
    intro hf
    rcases hproper.1 hf with ⟨-, hlack⟩ | hadmits
    · cases hholds.symm.trans hlack
    · cases hadmits with
      | type form admits =>
        cases form
        cases admits
      | reference form | null form | variant form | value form => cases form
  refine ⟨batch, t, _, w, mailType, nameType, h, hc, hmem, ?_, ?_⟩
  · rw [hmailText Options.unmarked_default, hunmarked]
    nofun
  · exact (hnameText Options.unmarked_default).2 hmarked

/-- A text or a mail address, of which the text may be null. -/
def mixedUnion : Json := .obj [("$defs", .obj [
  ("a", .obj [("type", .str "object"),
    ("properties", .obj [("x", .obj [("oneOf", .arr [
      .obj [("type", .arr [.str "string", .str "null"])],
      .obj [("type", .str "string"), ("format", .str "email")]])])]),
    ("required", .arr [.str "x"])])])]

/-- Null is lost in one variant of several: the field is marked, and its schema admits null. -/
theorem mixedUnion_required :
    (Compilation.ofSchema mixedUnion "" {}).result =
      .ok [.type "A" [("x", .required (.named (.str "String")))]] ∧
    ∃ definitions body x, mixedUnion.definitions = .ok definitions ∧
      definitions.lookup "a" = some body ∧ body.isPlainObject = .ok true ∧
      body.properties.get? "x" = some x ∧ x.AdmitsNull definitions fun _ => True := by
  refine ⟨by decide +kernel, _, _, _, rfl, rfl, by decide, rfl, ?_⟩
  exact .variant rfl rfl List.mem_cons_self trivial
    (.type rfl (.null (by decide) List.mem_cons_self (by decide)))

end ShapeSdl
