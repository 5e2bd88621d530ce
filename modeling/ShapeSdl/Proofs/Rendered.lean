import ShapeSdl.Proofs.Cited
import ShapeSdl.Proofs.Descent
import ShapeSdl.Proofs.Places

/-!
# How references to definitions are rendered

A field that refers to a definition is rendered under the definition's type name, through lists and
aliases.

* `Session.OwnsName` : definitions of the kinds that are declared under their own type names, and
  their nodes under no other (`Settled.get?_declared_iff`);
* `Outline.ComesTo` : what a schema with that outline refers to in the end, through wrappers, lists
  and aliases (`Json.HandsOn.comesTo`, `Json.comesTo_of_items`, `Json.comesTo_propertyOutline`);
* `Settled.endsAt_of_comesTo` : the walk from what has been built so ends at the definition's node;
* `Settled.innermost_eq` : its type has the name of the definition.
-/

namespace ShapeSdl

/-! ## Definitions with names of their own -/

/-- A definition of a kind that is declared: a plain object, a merged object, an enum of texts, or a
union of several variants that all are objects, none of them null. -/
inductive Session.OwnsName (definitions : Definitions) (s : Session) (name : String) : Prop
  | plain (isPlain : definitions.IsPlain name)
  | merged {body parts} (defined : definitions.lookup name = some body)
      (form : body.form = .merge parts)
  | enumeration {body v values} (defined : definitions.lookup name = some body)
      (form : body.form = .enumeration v) (listed : v.items = .ok values)
      (texts : values.all Json.isText = true)
  | union {body keyword v variants} (defined : definitions.lookup name = some body)
      (form : body.form = .union keyword v) (listed : v.schemas = .ok variants)
      (several : 2 ≤ variants.length) (nonnull : variants.any Json.isNullVariant = false)
      (objects : ∀ id, s.known.get? name = some id →
        ∀ r ∈ s.graph.links (some id), s.graph.isObject r = true)

theorem Json.isSingle_of_isPlainObject {schema : Json} (h : schema.isPlainObject = .ok true) :
    schema.isSingle = false := by
  cases schema with
  | obj entries =>
    simp only [isPlainObject] at h
    unfold isSingle
    split at h
    · rename_i type hf
      simp only [Except.ok.injEq, decide_eq_true_eq] at h
      rw [hf, h]
    · rename_i hf
      rw [hf]
    · cases h
  | _ => cases h

theorem Graph.isObject_of_get?_fields {g : Graph} {r v : Ref} {k : String}
    (h : (g.fields r).get? k = some v) : g.isObject r = true := by
  unfold fields at h
  split at h
  · exact isObject_iff.2 ⟨_, ‹_›⟩
  · cases h

/-- The node of a declarable definition ends every walk. -/
theorem Graph.next?_of_isDeclarable {g : Graph} {id : NodeId} {named : Ref → Bool}
    (h : g.isDeclarable id = true) : g.next? named (some id) = none := by
  unfold isDeclarable at h
  unfold next?
  cases hs : g.shape? (some id) with
  | none => rfl
  | some shape =>
    rw [hs] at h
    cases shape with
    | wrapper | list => cases h
    | _ => rfl

namespace Json

variable {schema v : Json} {keyword : String} {values variants : List Json}

theorem outline_of_merge (form : schema.form = .merge v) (path : String) :
    (∃ f, schema.outline path = .fault f) ∨
      ∃ metadata parts, schema.outline path = .merge path metadata parts := by
  obtain ⟨entries, he⟩ := exists_entries_of_form (by rw [form]; nofun)
  rw [outline_eq he, form]
  dsimp only
  split
  · exact .inl ⟨_, rfl⟩
  · exact .inr ⟨_, _, rfl⟩

theorem outline_of_texts (form : schema.form = .enumeration v) (listed : v.items = .ok values)
    (texts : values.all isText = true) (path : String) :
    ∃ metadata, schema.outline path = .leaf ⟨path, metadata, .enumeration values⟩ rfl := by
  obtain ⟨entries, he⟩ := exists_entries_of_form (by rw [form]; nofun)
  rw [outline_eq he, form]
  dsimp only [enumerationOutline]
  rw [listed]
  dsimp only
  rw [if_pos texts]
  exact ⟨_, rfl⟩

theorem outline_of_variants (form : schema.form = .union keyword v) (listed : v.schemas = .ok variants)
    (several : 2 ≤ variants.length) (nonnull : variants.any isNullVariant = false) (path : String) :
    ∃ metadata o rest, schema.outline path = .union path metadata (o :: rest) := by
  obtain ⟨entries, he⟩ := exists_entries_of_form (by rw [form]; nofun)
  rw [outline_eq he, form]
  dsimp only
  rw [listed]
  dsimp only
  rw [← length_variantsOutline (path ++ "/" ++ keyword ++ "/") 0 nonnull] at several
  rw [nonnull]
  match variantsOutline (path ++ "/" ++ keyword ++ "/") 0 variants, several with
  | o :: o' :: rest, _ => exact ⟨_, o, o' :: rest, rfl⟩

theorem isSingle_of_variants (form : schema.form = .union keyword v)
    (listed : v.schemas = .ok variants) (several : 2 ≤ variants.length) :
    schema.isSingle = false := by
  unfold isSingle
  rw [form]
  split
  · rename_i heq
    cases heq
    cases listed
    exact absurd several (Nat.lt_irrefl 1)
  · cases ‹Form.union _ _ = .typed _›
  · rfl

end Json

namespace Settled

variable {definitions : Definitions} {own : String → List NodeId} {s : Session} {name : String}
  {id : NodeId}

/-- A definition with a name of its own is no alias, its node stands at its path, and it can be
declared. -/
theorem isDeclarable_of_ownsName (S : Settled definitions own s) (h : s.OwnsName definitions name)
    (hk : s.known.get? name = some id) : s.graph.isDeclarable id = true ∧
      definitions.Root name name ∧
        ∃ body, definitions.lookup name = some body ∧ body.isSingle = false := by
  obtain ⟨body, _, hd, -, hb⟩ := S.built name id hk List.not_mem_nil
  have hroot : (body.outline (Definitions.path name)).isReference = false →
      definitions.Root name name := .self hd
  generalize own name = mine at hb
  cases h with
  | plain isPlain =>
    obtain ⟨body', hd', hp⟩ := isPlain
    cases hd.symm.trans hd'
    obtain ⟨metadata, fields, ho⟩ := hb.eq_object hp
    rw [ho] at hb hroot
    refine ⟨?_, hroot rfl, body, hd, Json.isSingle_of_isPlainObject hp⟩
    cases hb with
    | object _ node => rw [Graph.isDeclarable, Graph.shape?, node]; rfl
  | merged hd' form =>
    cases hd.symm.trans hd'
    rcases Json.outline_of_merge form (Definitions.path name) with ⟨f, ho⟩ | ⟨metadata, parts, ho⟩
    · rw [ho] at hb
      cases hb
    · rw [ho] at hb hroot
      refine ⟨?_, hroot rfl, body, hd, by rw [Json.isSingle, form]⟩
      cases hb with
      | merge _ node => rw [Graph.isDeclarable, Graph.shape?, node]; rfl
  | enumeration hd' form listed texts =>
    cases hd.symm.trans hd'
    obtain ⟨metadata, ho⟩ := Json.outline_of_texts form listed texts (Definitions.path name)
    rw [ho] at hb hroot
    refine ⟨?_, hroot rfl, body, hd, by rw [Json.isSingle, form]⟩
    cases hb with
    | leaf node => rw [Graph.isDeclarable, Graph.shape?, node]; rfl
  | union hd' form listed several nonnull objects =>
    cases hd.symm.trans hd'
    obtain ⟨metadata, o, rest, ho⟩ :=
      Json.outline_of_variants form listed several nonnull (Definitions.path name)
    rw [ho] at hb hroot
    refine ⟨?_, hroot rfl, body, hd, Json.isSingle_of_variants form listed several⟩
    cases hb with
    | @union _ _ _ is _ _ inside node =>
      have hs : s.graph.shape? (some id) = some (.union (is.map some)) := by
        rw [Graph.shape?, node]
        rfl
      have hall := objects id hk
      rw [Graph.links_of_shape? hs] at hall
      have hlinks : ∀ r ∈ is.map some, s.graph.isObject r = true := hall
      have hne : is ≠ [] := by
        rintro rfl
        cases inside.forall₂_all
      rw [Graph.isDeclarable, hs]
      simpa [hne] using hlinks

/-- A definition with a name of its own is declared under that name, and its node under no other. -/
theorem get?_declared_iff (S : Settled definitions own s)
    (hn : (definitions.map fun d => TypeName.pascal d.1).Nodup) (h : s.OwnsName definitions name)
    (hk : s.known.get? name = some id) {k : String} :
    (Entries.ofList (s.graph.declared (s.nodes definitions))).get? k = some (some id) ↔
      k = TypeName.pascal name := by
  obtain ⟨hdecl, hself, body, hd, hs⟩ := S.isDeclarable_of_ownsName h hk
  rw [Graph.get?_declared_iff hn]
  constructor
  · rintro ⟨⟨other, i⟩, hmem, hdeclares, rfl, hi⟩
    cases hi
    have hother := (Session.mem_nodes.1 hmem).2
    obtain ⟨root, hr, -⟩ := S.rooted _ _ hother
    cases S.root_eq hother hk hr hself
    by_contra hne
    have hne' : other ≠ name := fun e => hne (congrArg TypeName.pascal e)
    rw [S.not_declares_alias hother hr hd hs hne'] at hdeclares
    cases hdeclares
  · rintro rfl
    refine ⟨(name, id), ?_, ?_, rfl, rfl⟩
    · exact Session.mem_nodes.2 ⟨⟨body, Definitions.mem_of_lookup hd⟩, hk⟩
    · rw [S.declares_root hk hself hd hs, hdecl]

end Settled

theorem Graph.isDeclarable_of_get?_declared {g : Graph} {nodes : List (String × NodeId)} {k : String}
    {r : Ref} (h : (Entries.ofList (g.declared nodes)).get? k = some r) :
    ∃ d ∈ nodes, g.isDeclarable d.2 = true ∧ r = some d.2 := by
  have hmem := Entries.mem_of_get?_ofList h
  rw [declared_eq] at hmem
  obtain ⟨d, hd, he⟩ := List.mem_map.1 hmem
  cases he
  obtain ⟨hd, hdeclares⟩ := List.mem_filter.1 hd
  exact ⟨d, hd, (Bool.and_eq_true_iff.1 hdeclares).2, rfl⟩

theorem Graph.lastName?_list {g : Graph} {nodes : List (String × NodeId)} {r element : Ref}
    (hs : g.shape? r = some (.list element)) :
    Batch.lastName? (Entries.ofList (g.declared nodes)) r = none := by
  rw [Option.eq_none_iff_forall_not_mem]
  intro name hname
  obtain ⟨d, -, hdecl, rfl⟩ := isDeclarable_of_get?_declared (Batch.get?_of_lastName? hname)
  rw [isDeclarable, hs] at hdecl
  cases hdecl

/-- The last name of the node of a definition with a name of its own is that name. -/
theorem Settled.lastName?_eq {definitions : Definitions} {own : String → List NodeId} {s : Session}
    {name : String} {id : NodeId} (S : Settled definitions own s)
    (hn : (definitions.map fun d => TypeName.pascal d.1).Nodup) (h : s.OwnsName definitions name)
    (hk : s.known.get? name = some id) :
    Batch.lastName? (Entries.ofList (s.graph.declared (s.nodes definitions))) (some id) =
      some (TypeName.pascal name) := by
  have hget := (S.get?_declared_iff hn h hk).2 rfl
  obtain ⟨last, hlast⟩ := Batch.exists_lastName?
    (List.mem_map_of_mem (f := Prod.snd) (Entries.mem_toList_iff.2 hget))
  rw [hlast, (S.get?_declared_iff hn h hk).1 (Batch.get?_of_lastName? hlast)]

/-! ## What a field refers to -/

def Json.propertyOutline (body : Json) (path key : String) (schema : Json) : Outline :=
  fieldOutline ((body.get? "required").getD (.arr [])) key schema (path ++ "/properties/" ++ key)
    (schema.outline (path ++ "/properties/" ++ key))

/-- In the end a schema refers to definition `target`: through wrappers and lists, and through
references to definitions that are wrappers or lists. -/
inductive Outline.ComesTo (definitions : Definitions) : Outline → String → Prop
  | wrapper {path kind value inner target} (inside : ComesTo definitions inner target) :
      ComesTo definitions (.wrapper path kind value inner) target
  | list {path metadata element target} (inside : ComesTo definitions element target) :
      ComesTo definitions (.list path metadata element) target
  | reference {ref path name target} (means : ref.referred? = some name)
      (rooted : definitions.Root name target) : ComesTo definitions (.reference ref path) target
  | through {ref path name root body target} (means : ref.referred? = some name)
      (rooted : definitions.Root name root) (defined : definitions.lookup root = some body)
      (onward : ComesTo definitions (body.outline (Definitions.path root)) target) :
      ComesTo definitions (.reference ref path) target

section
variable {definitions : Definitions} {schema : Json} {target : String}

/-- A reference to a definition comes to its root, and so does what hands it on. -/
theorem Json.HandsOn.comesTo {ref : Json} {name : String} (h : schema.HandsOn ref)
    (means : ref.referred? = some name) (rooted : definitions.Root name target) (path : String) :
    (schema.outline path).ComesTo definitions target := by
  obtain ⟨path', ho⟩ := h.outline path
  rw [ho]
  exact .reference means rooted

theorem Json.comesTo_of_items {element : Json} (form : schema.form = .typed (.str "array"))
    (items : schema.get? "items" = some element) (hnull : element ≠ .null)
    (harr : ∀ elements, element ≠ .arr elements)
    (h : ∀ path, (element.outline path).ComesTo definitions target) (path : String) :
    (schema.outline path).ComesTo definitions target := by
  obtain ⟨entries, he⟩ := exists_entries_of_form (by rw [form]; nofun)
  rw [outline_eq he, form]
  show ((schema.kindOutlines (metadata entries)).array path).ComesTo definitions target
  unfold kindOutlines
  dsimp only
  rw [items]
  split
  · cases ‹_›
  · exact absurd (Option.some.inj ‹_›) hnull
  · exact absurd (Option.some.inj ‹_›) (harr _)
  · cases ‹some element = some _›
    exact .list (h _)

theorem Json.comesTo_propertyOutline {body : Json} {key : String} {holds : Bool}
    (h : ∀ path, (schema.outline path).ComesTo definitions target)
    (hr : ((body.get? "required").getD (.arr [])).holds key = .ok holds) (path : String) :
    (body.propertyOutline path key schema).ComesTo definitions target := by
  unfold propertyOutline fieldOutline
  split
  · exact .wrapper (h _)
  · rw [hr]
    cases holds with
    | true => exact h _
    | false => exact .wrapper (h _)

end

/-- The options name no list that the walk from `r` leads through. -/
def Options.NamesNoList (o : Options) (g : Graph) (r : Ref) : Prop :=
  ∀ n e element, Steps (g.next? Graph.noneNamed) n r e → g.shape? e = some (.list element) →
    o.seedName? e = none

theorem Options.NamesNoList.next {o : Options} {g : Graph} {r m : Ref} (h : o.NamesNoList g r)
    (hn : g.next? Graph.noneNamed r = some m) : o.NamesNoList g m :=
  fun n e element hs => h (n + 1) e element (.step hn hs)

/-- The walk of what has been built so ends at the node of the definition, if it ends there and no
list on the way has a name. -/
theorem Settled.endsAt_of_comesTo {definitions : Definitions} {own : String → List NodeId}
    {s : Session} (S : Settled definitions own s) {options : Options} {batch : Batch}
    (hlists : ∀ r element, s.graph.shape? r = some (.list element) → batch.lastName? r = none)
    {o : Outline} {target : String} (h : o.ComesTo definitions target)
    (hend : ∀ id, s.known.get? target = some id →
      s.graph.next? (options.isNamed batch) (some id) = none) :
    ∀ {unfinished mine : List NodeId} {id : NodeId}, options.NamesNoList s.graph (some id) →
      Built s unfinished (.one (.outline o)) [id] mine →
        ∃ e, s.known.get? target = some e ∧
          s.graph.EndsAt (options.isNamed batch) (some id) (some e) := by
  induction h with
  | wrapper _ ih =>
    intro _ _ _ hnone hb
    cases hb with
    | wrapper inside node =>
      have hnext : ∀ named, s.graph.next? named _ = some _ := fun named => by
        rw [Graph.next?, Graph.shape?, node]
        rfl
      obtain ⟨e, he, hends⟩ := ih hend (hnone.next (hnext _)) inside
      exact ⟨e, he, .step (hnext _) hends⟩
  | list _ ih =>
    intro _ _ id hnone hb
    cases hb with
    | @list _ _ _ i _ _ inside node =>
      have hs : s.graph.shape? (some id) = some (.list (some i)) := by
        rw [Graph.shape?, node]
        rfl
      have hnext : ∀ named : Ref → Bool, named (some id) = false →
          s.graph.next? named (some id) = some (some i) := fun named hnamed => by
        rw [Graph.next?, hs]
        dsimp only
        rw [hnamed]
        rfl
      obtain ⟨e, he, hends⟩ := ih hend (hnone.next (hnext _ rfl)) inside
      refine ⟨e, he, .step (hnext _ ?_) hends⟩
      rw [Options.isNamed, hlists _ _ hs, hnone 0 _ _ .here hs]
      rfl
  | reference means rooted =>
    intro _ _ id _ hb
    obtain ⟨_, means', hk⟩ := hb.of_reference
    cases means.symm.trans means'
    have hroot := S.known_root hk rooted
    exact ⟨id, hroot, .here (hend id hroot)⟩
  | through means rooted defined _ ih =>
    intro _ _ id hnone hb
    obtain ⟨_, means', hk⟩ := hb.of_reference
    cases means.symm.trans means'
    obtain ⟨_, _, hd, -, hbuilt⟩ := S.built _ id (S.known_root hk rooted) List.not_mem_nil
    cases defined.symm.trans hd
    exact ih hend hnone hbuilt

/-- A field that comes to a definition with a name of its own is rendered under that name. -/
theorem Settled.innermost_eq {definitions : Definitions} {own : String → List NodeId} {t : Session}
    {batch : Batch} (S : Settled definitions own t)
    (hn : (definitions.map fun d => TypeName.pascal d.1).Nodup)
    (hb : batch = .ofList (t.graph.declared (t.nodes definitions))) {o : Options}
    {registry : Registry} (hreg : o.batchRegistry batch = .ok registry) {p : Outline}
    {target : String} (hp : p.ComesTo definitions target) (ht : t.OwnsName definitions target)
    {unfinished mine : List NodeId} {i : NodeId} (hlists : o.NamesNoList t.graph (some i))
    (hbuilt : Built t unfinished (.one (.outline p)) [i] mine) {type : TypeExpr}
    (htype : Context.HasType ⟨t.graph, registry, o⟩ (some i) type) :
    type.innermost = .str (TypeName.pascal target) := by
  have hunnamed : ∀ r element, t.graph.shape? r = some (.list element) →
      batch.lastName? r = none := fun r element hs => by rw [hb, Graph.lastName?_list hs]
  have hends : ∀ id, t.known.get? target = some id →
      t.graph.next? (o.isNamed batch) (some id) = none :=
    fun id hk => Graph.next?_of_isDeclarable (S.isDeclarable_of_ownsName ht hk).1
  obtain ⟨e, hk, hend⟩ := S.endsAt_of_comesTo hunnamed hp hends hlists hbuilt
  obtain ⟨e', he', hnames⟩ := htype.endsAt
  rw [Options.isNamed_eq hreg] at he'
  cases hend.unique he'
  apply hnames.eq_of_registered
  show registry.get? (some e) = _
  rw [Options.get?_batchRegistry_eq hreg, hb, S.lastName?_eq hn ht hk]
  rfl

end ShapeSdl
