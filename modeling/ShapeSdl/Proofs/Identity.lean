import ShapeSdl.Proofs.Rendered

/-!
# References keep identity

All references to one definition have its node, and in the output they have its name.

* `Session.PropertyAt` : the field has been read from a property of the document. Every field of an
  object has (`Complete.exists_property`), those that it has from the parts of a merge included;
* `references_keep_identity` : references have the same node exactly if they lead to the same
  definition, and fields that refer to it are rendered under its type name.
-/

namespace ShapeSdl

/-! ## Where fields come from -/

section
variable {definitions : Definitions} {root : Option Outline} {rootId : Option NodeId} {s : Session}
  {name : String} {body : Json} {id : NodeId}

theorem Session.Place.definition (hd : definitions.lookup name = some body)
    (hk : s.known.get? name = some id) :
    s.Place definitions root rootId (body.outline (Definitions.path name)) id := by
  have ho : definitions.outlineAt root (some name) = some (body.outline (Definitions.path name)) := by
    rw [Definitions.outlineAt, hd]
    rfl
  exact .start ho hk

theorem Json.outline_of_properties {properties : List (String × Json)}
    (hp : body.isPlainObject = .ok true) (h : body.get? "properties" = some (.obj properties)) :
    ∃ metadata, ∀ path, body.outline path =
      .object path metadata (properties.map fun p => (p.1, body.propertyOutline path p.1 p.2)) := by
  obtain ⟨entries, -, ho⟩ := outline_of_isPlainObject hp
  refine ⟨metadata entries, fun path => ?_⟩
  rw [ho, fieldsOutline_eq, h]
  dsimp only [Json.entries]
  rw [propertiesOutline_eq_map]
  rfl

theorem Entries.get?_ofList_map {β γ : Type} {ps : List (String × β)} (f : String → β → γ)
    {k : String} {v : β} (h : (Entries.ofList ps).get? k = some v) :
    (Entries.ofList (ps.map fun p => (p.1, f p.1 p.2))).get? k = some (f k v) := by
  rw [get?_ofList_eq_find?, Option.map_eq_some_iff] at h
  obtain ⟨p, hp, rfl⟩ := h
  have hk : p.1 = k := by simpa using List.find?_some hp
  rw [get?_ofList, ← List.map_reverse, lookup_map Prod.fst fun p => f p.1 p.2, hp, ← hk]
  rfl

theorem Json.propertyOutline_eq {schema : Json} {key : String} (hd : schema.get? "default" = none)
    (hr : ((body.get? "required").getD (.arr [])).holds key = .ok true) (path : String) :
    body.propertyOutline path key schema = schema.outline (path ++ "/properties/" ++ key) := by
  unfold propertyOutline fieldOutline
  rw [hd, hr]

/-- The field has been read from a property with outline `p` of an object schema. -/
def Session.PropertyAt (definitions : Definitions) (root : Option Outline) (rootId : Option NodeId)
    (s : Session) (field : String × Ref) (p : Outline) : Prop :=
  ∃ path metadata fields id i, s.Place definitions root rootId (.object path metadata fields) id ∧
    (Entries.ofList fields).get? field.1 = some p ∧
    (s.graph.fields (some id)).get? field.1 = some field.2 ∧ field.2 = some i

theorem Session.PropertyAt.place {field : String × Ref} {p : Outline}
    (h : s.PropertyAt definitions root rootId field p) :
    ∃ i, field.2 = some i ∧ s.Place definitions root rootId p i := by
  obtain ⟨path, metadata, fields, id, i, hplace, hp, hlink, hi⟩ := h
  exact ⟨i, hi, hplace.field hp (hlink.trans (by rw [hi]))⟩

/-- The fields of an object definition have been read from its properties. -/
theorem Session.propertyAt_of_isPlainObject {key : String} {schema : Json}
    {properties : List (String × Json)} {i : NodeId} (hd : definitions.lookup name = some body)
    (hp : body.isPlainObject = .ok true)
    (hprops : body.get? "properties" = some (.obj properties))
    (hkey : (Entries.ofList properties).get? key = some schema)
    (hk : s.known.get? name = some id)
    (hget : (s.graph.fields (some id)).get? key = some (some i)) :
    s.PropertyAt definitions root rootId (key, some i)
      (body.propertyOutline (Definitions.path name) key schema) := by
  obtain ⟨metadata, ho⟩ := Json.outline_of_properties hp hprops
  have hplace : s.Place definitions root rootId _ id := .definition hd hk
  rw [ho] at hplace
  exact ⟨_, _, _, id, i, hplace,
    Entries.get?_ofList_map (body.propertyOutline (Definitions.path name)) hkey, hget, rfl⟩

end

namespace Complete

variable {definitions : Definitions} {root : Option Outline} {rootId : Option NodeId}
  {own : Option String → List NodeId} {s : Session} {o p : Outline} {id : NodeId}
  {field : String × Ref}

theorem built_of_propertyAt (C : Complete definitions root rootId own s) (hm : s.MergedOnce)
    (h : s.PropertyAt definitions root rootId field p) :
    ∃ i unfinished mine, field.2 = some i ∧ Built s unfinished (.one (.outline p)) [i] mine := by
  obtain ⟨i, hi, hplace⟩ := h.place
  obtain ⟨unfinished, mine, hb⟩ := C.built_of_place hm hplace
  exact ⟨i, unfinished, mine, hi, hb⟩

/-- The node at a reference is at the place of the definition's root, too. -/
theorem exists_place_of_isReference (C : Complete definitions root rootId own s) (hm : s.MergedOnce)
    (h : s.Place definitions root rootId o id) :
    ∃ o', s.Place definitions root rootId o' id ∧ o'.isReference = false := by
  cases hr : o.isReference with
  | false => exact ⟨o, h, hr⟩
  | true =>
    obtain ⟨ref, path, rfl⟩ := Outline.isReference_iff.1 hr
    obtain ⟨_, _, hb⟩ := C.built_of_place hm h
    obtain ⟨name, -, hk⟩ := hb.of_reference
    obtain ⟨r, hroot, hkr⟩ := C.settled.rooted _ _ hk
    obtain ⟨body, hd⟩ := hroot.lookup
    have ha := hroot.isAlias
    rw [Definitions.isAlias, hd] at ha
    exact ⟨body.outline (Definitions.path r), .definition hd hkr, ha⟩

/-- Every field of an object has been read from a property: one of its own, or one of a part that it
was merged from. -/
theorem exists_property (C : Complete definitions root rootId own s) (hm : s.MergedOnce)
    (h : s.Place definitions root rootId o id)
    (hget : (s.graph.fields (some id)).get? field.1 = some field.2) :
    ∃ p, s.PropertyAt definitions root rootId field p := by
  -- A part of a merged object is an older node.
  induction id using Nat.strongRecOn generalizing o with
  | ind id ih =>
    obtain ⟨o, hplace, hr⟩ := C.exists_place_of_isReference hm h
    obtain ⟨unfinished, mine, hb⟩ := C.built_of_place hm hplace
    have hobject : o.MeansObject definitions :=
      hb.meansObject hr (Graph.isObject_of_get?_fields hget)
    cases hobject with
    | reference => cases hr
    | object =>
      obtain ⟨p, hp, i, _, hi, -⟩ := hb.related_fields_object.exists_left hget
      exact ⟨p, _, _, _, id, i, hplace, hp, hget, hi⟩
    | merge =>
      cases hb with
      | merge inside _ merged =>
        have hkeeps := C.settled.merged.keeps _ merged
        rw [Graph.fields, hkeeps.shape] at hget
        obtain ⟨part, hpart, hget⟩ := Graph.exists_of_get?_merged hget
        obtain ⟨o', hmem⟩ := exists_mem_zip_left inside.forall₂_all (List.mem_filter.1 hpart).1
        exact ih part (hkeeps.finished_lt hpart)
          (Session.Place.merged (m := ⟨_, _, _⟩) hplace merged hmem) hget

end Complete

/-! ## The theorem -/

section
variable {schema : Json} {root : String} {s t : Session} {batch : Batch} {definitions : Definitions}

/-- Every place of a document that is read has a node. Two references have the same node exactly if
the definitions that they mean have the same root. If the type names of the definitions differ and
there is no root, every field of a declared object has been read from a property, and if that refers
to a definition with a name of its own, by itself or as the items of lists that the options do not
name, the field is rendered under that name. -/
theorem references_keep_identity (hd : schema.definitions = .ok definitions)
    (h : readDocument schema root s = .ok batch t) :
    ∃ rootId, batch = t.graph.batch (t.nodes definitions) root rootId ∧
      (∀ key o, definitions.outlineAt (schema.rootOutline root) key = some o →
        ∃ id, t.nodeAt rootId key = some id) ∧
      (∀ o part id, t.Place definitions (schema.rootOutline root) rootId o id → part.Part o →
        ∃ i, t.Place definitions (schema.rootOutline root) rootId part i) ∧
      (∀ ref ref' path path' name name' id id',
        t.Place definitions (schema.rootOutline root) rootId (.reference ref path) id →
        t.Place definitions (schema.rootOutline root) rootId (.reference ref' path') id' →
        ref.referred? = some name → ref'.referred? = some name' →
          (id = id' ↔ ∃ r, definitions.Root name r ∧ definitions.Root name' r)) ∧
      (root = "" → (definitions.map fun d => TypeName.pascal d.1).Nodup → ∀ o document w w',
        compileBatch t.graph o batch w = .ok document w' →
        ∀ type typed, .type type typed ∈ document → ∃ r, batch.get? type = some r ∧
          List.Forall₂ (fun field f => f.1 = field.1 ∧
            (∃ p, t.PropertyAt definitions (schema.rootOutline root) rootId field p) ∧
            ∀ p target, t.PropertyAt definitions (schema.rootOutline root) rootId field p →
              p.ComesTo definitions target → t.OwnsName definitions target →
                o.NamesNoList t.graph field.2 → f.2.innermost = .str (TypeName.pascal target))
            (t.graph.fields r).toList typed) := by
  obtain ⟨rootId, own, C, hb⟩ := readDocument_complete hd (fun _ => rfl) h
  have hm := readDocument_mergedOnce h
  refine ⟨rootId, hb, fun key o ho => ?_, fun o part id ho hp => C.exists_place hm ho hp, ?_, ?_⟩
  · obtain ⟨id, -, hid, -⟩ := C.built key o ho
    exact ⟨id, hid⟩
  · intro ref ref' path path' name name' id id' ho ho' means means'
    exact C.place_eq_iff hm ho ho' means means'
  · rintro rfl hn o document w w' hc type typed hmem
    have hnone : schema.rootOutline "" = none := if_neg fun happ => happ.2 rfl
    have hroot : rootId = none := (C.unread none hnone).1
    subst hroot
    obtain ⟨registry, hreg, -, hdeclared, -⟩ := compileBatch_sound hc
    obtain ⟨⟨_, r⟩, hentry, hdecl⟩ := exists_mem_left hdeclared hmem
    cases hdecl with
    | @type _ _ fields _ node types =>
      have hget := Entries.mem_toList_iff.1 hentry
      obtain ⟨d, hdnode, -, rfl⟩ := Graph.isDeclarable_of_get?_declared (hb ▸ hget)
      have hk := (Session.mem_nodes.1 hdnode).2
      obtain ⟨body, _, hbody, -⟩ := C.settled.built _ _ hk List.not_mem_nil
      have hplace : t.Place definitions (schema.rootOutline "") none
          (body.outline (Definitions.path d.1)) d.2 := .definition hbody hk
      have hfields : t.graph.fields (some d.2) = fields := by rw [Graph.fields, node]
      refine ⟨some d.2, hget, ?_⟩
      rw [hfields]
      refine forall₂_imp_of_mem types fun field hfield f hf => ?_
      obtain ⟨hname, htype⟩ := hf
      refine ⟨hname, ?_, ?_⟩
      · apply C.exists_property hm hplace
        rw [hfields]
        exact Entries.mem_toList_iff.1 hfield
      · intro p target hprop hp ht hlists
        obtain ⟨i, unfinished, mine, hi, hbuilt⟩ := C.built_of_propertyAt hm hprop
        rw [hi] at htype hlists
        exact C.settled.innermost_eq hn hb hreg hp ht hlists hbuilt htype

end

/-- The reference that a schema is, or that the only variant of a union is. -/
def Json.directReference? (schema : Json) : Option Json :=
  match schema.form with
  | .reference ref => some ref
  | .union _ v => match v.schemas with
    | .ok [variant] => match variant.form with
      | .reference ref => some ref
      | _ => none
    | _ => none
  | _ => none

/-- An owner with a first animal and pets. Every animal is a pet, by a union inside a union. -/
def kennel : Json := .obj [("$defs", .obj [
  ("owner", .obj [("type", .str "object"), ("properties", .obj [
    ("first", .obj [("$ref", .str "#/$defs/animal")]),
    ("pets", .obj [("type", .str "array"), ("items", .obj [("$ref", .str "#/$defs/pet")])])]),
    ("required", .arr [.str "first"])]),
  ("animal", .obj [("oneOf", .arr [.obj [("anyOf", .arr [.obj [("$ref", .str "#/$defs/pet")]])]])]),
  ("pet", .obj [("type", .str "object")])])]

theorem kennel_definitions : ∃ definitions owner animal pet, kennel.definitions = .ok definitions ∧
    definitions.lookup "owner" = some owner ∧ definitions.lookup "animal" = some animal ∧
    definitions.lookup "pet" = some pet ∧ owner.isPlainObject = .ok true ∧
    pet.isPlainObject = .ok true ∧ animal.HandsOn (.str "#/$defs/pet") ∧
    owner.get? "properties" = some (.obj [("first", .obj [("$ref", .str "#/$defs/animal")]),
      ("pets", .obj [("type", .str "array"), ("items", .obj [("$ref", .str "#/$defs/pet")])])]) ∧
    ((owner.get? "required").getD (.arr [])).holds "first" = .ok true ∧
    ((owner.get? "required").getD (.arr [])).holds "pets" = .ok false ∧
    (definitions.map fun d => TypeName.pascal d.1).Nodup ∧
    animal.directReference? = none ∧ pet.directReference? = none :=
  ⟨_, _, _, _, rfl, rfl, rfl, rfl, by decide, by decide,
    .variant rfl rfl rfl (.variant rfl rfl rfl (.reference rfl)), rfl, by decide, by decide,
    by decide +kernel, rfl, rfl⟩

theorem references_keep_identity_kennel : ∃ batch t document w first pets,
    readDocument kennel "" {} = .ok batch t ∧ compileBatch t.graph {} batch {} = .ok document w ∧
      .type "Owner" [("first", first), ("pets", pets)] ∈ document ∧
      first.innermost = .str "Pet" ∧ pets.innermost = .str "Pet" := by
  obtain ⟨definitions, owner, animal, pet, hd, howner, hanimal, hpet, hownerPlain, hpetPlain, hhands,
    hproperties, hrequired, hfree, hnames, -⟩ := kennel_definitions
  have hcompiled : (Compilation.ofSchema kennel "" {}).result = .ok [.type "Owner"
      [("first", .required (.named (.str "Pet"))), ("pets", .list (.required (.named (.str "Pet"))))],
      .type "Pet" []] := by
    decide +kernel
  obtain ⟨batch, t, w, h, hc⟩ := Compilation.result_eq_ok_iff.1 hcompiled
  obtain ⟨_, _, h', ht⟩ := Reading.exists_ok (x := readDocument kennel "" {})
    (p := fun batch t => decide (t.known.get? "owner" = some 0 ∧
      batch.get? "Owner" = some (some 0) ∧
      (t.graph.fields (some 0)).toList = [("first", some 1), ("pets", some 3)])) (by decide +kernel)
  cases h.symm.trans h'
  obtain ⟨hk, hn, hfields⟩ := of_decide_eq_true ht
  have hget : ∀ field ∈ [("first", some 1), ("pets", some 3)],
      (t.graph.fields (some 0)).get? field.1 = some field.2 :=
    fun field hmem => Entries.mem_toList_iff.1 (hfields ▸ hmem)
  obtain ⟨rootId, -, -, -, -, hrendered⟩ := references_keep_identity hd h
  obtain ⟨r, hr, hall⟩ := hrendered rfl hnames {} _ {} w hc "Owner" _ List.mem_cons_self
  cases hn.symm.trans hr
  rw [hfields] at hall
  obtain ⟨⟨-, -, hfirst⟩, hrest⟩ := List.forall₂_cons.1 hall
  obtain ⟨⟨-, -, hpets⟩, -⟩ := List.forall₂_cons.1 hrest
  -- Both fields refer to definition `pet` in the end.
  have hplain : definitions.IsPlain "pet" := ⟨pet, hpet, hpetPlain⟩
  have hmeans : (Json.str "#/$defs/pet").referred? = some "pet" := by decide +kernel
  have hroot : definitions.Root "animal" "pet" := by
    obtain ⟨_, ho⟩ := hhands.outline (Definitions.path "animal")
    exact .step hanimal ho hmeans hplain.root_self
  have hfirstComes : ∀ path, ((Json.obj [("$ref", .str "#/$defs/animal")]).outline path).ComesTo
      definitions "pet" := (Json.HandsOn.reference rfl).comesTo (by decide +kernel) hroot
  have hpetComes : ∀ path, ((Json.obj [("$ref", .str "#/$defs/pet")]).outline path).ComesTo
      definitions "pet" := (Json.HandsOn.reference rfl).comesTo hmeans hplain.root_self
  have hpetsComes : ∀ path, ((Json.obj [("type", .str "array"),
      ("items", .obj [("$ref", .str "#/$defs/pet")])]).outline path).ComesTo definitions "pet" :=
    Json.comesTo_of_items rfl rfl nofun nofun hpetComes
  have hpascal : TypeName.pascal "pet" = "Pet" := by decide +kernel
  refine ⟨batch, t, _, w, _, _, h, hc, List.mem_cons_self, ?_, ?_⟩
  · have hname := hfirst _ "pet" (Session.propertyAt_of_isPlainObject howner hownerPlain hproperties
      rfl hk (hget ("first", some 1) List.mem_cons_self))
      (Json.comesTo_propertyOutline hfirstComes hrequired _) (.plain hplain) fun _ _ _ _ _ => rfl
    rwa [hpascal] at hname
  · have hname := hpets _ "pet" (Session.propertyAt_of_isPlainObject howner hownerPlain hproperties
      rfl hk (hget ("pets", some 3) (List.mem_cons_of_mem _ List.mem_cons_self)))
      (Json.comesTo_propertyOutline hpetsComes hfree _) (.plain hplain) fun _ _ _ _ _ => rfl
    rwa [hpascal] at hname

/-- The definition at the end of a chain of aliases, where a union of one variant is an alias only if
that variant is itself a reference. -/
inductive Definitions.DirectRoot (definitions : Definitions) : String → String → Prop
  | self {name body} (defined : definitions.lookup name = some body)
      (stays : body.directReference? = none) : DirectRoot definitions name name
  | step {name body ref next root} (defined : definitions.lookup name = some body)
      (hands : body.directReference? = some ref) (means : ref.referred? = some next)
      (onward : DirectRoot definitions next root) : DirectRoot definitions name root

theorem Definitions.DirectRoot.eq_self {definitions : Definitions} {name root : String} {body : Json}
    (h : definitions.DirectRoot name root) (hd : definitions.lookup name = some body)
    (hb : body.directReference? = none) : root = name := by
  cases h with
  | self => rfl
  | step defined hands =>
    cases hd.symm.trans defined
    cases hb.symm.trans hands

/-- A union of one variant hands on a node also if the variant is such a union: references to `animal`
and to `pet` have the same node. And a list that the options name hides what its items refer to. -/
theorem kennel_shares_nested : ∃ definitions batch t id path path' document w,
    kennel.definitions = .ok definitions ∧ readDocument kennel "" {} = .ok batch t ∧
    t.Place definitions (kennel.rootOutline "") none (.reference (.str "#/$defs/animal") path) id ∧
    t.Place definitions (kennel.rootOutline "") none (.reference (.str "#/$defs/pet") path') id ∧
    (¬ ∃ r, definitions.DirectRoot "animal" r ∧ definitions.DirectRoot "pet" r) ∧
    compileBatch t.graph { seeds := .pairs [(some 2, some "Litter")] } batch {} = .ok document w ∧
    .type "Owner" [("first", .required (.named (.str "Pet"))), ("pets", .named (.str "Litter"))] ∈
      document := by
  obtain ⟨definitions, owner, animal, pet, hd, howner, hanimal, hpet, hownerPlain, -, hhands,
    hproperties, hrequired, -, -, hanimalDirect, hpetDirect⟩ := kennel_definitions
  have hcompiled : (Compilation.ofSchema kennel ""
      { seeds := .pairs [(some 2, some "Litter")] }).result = .ok [
        .type "Owner" [("first", .required (.named (.str "Pet"))), ("pets", .named (.str "Litter"))],
        .type "Pet" []] := by
    decide +kernel
  obtain ⟨batch, t, w, h, hc⟩ := Compilation.result_eq_ok_iff.1 hcompiled
  obtain ⟨_, _, h', ht⟩ := Reading.exists_ok (x := readDocument kennel "" {})
    (p := fun _ t => decide (t.known.get? "owner" = some 0 ∧ t.known.get? "animal" = some 1 ∧
      (t.graph.fields (some 0)).get? "first" = some (some 1))) (by decide +kernel)
  cases h.symm.trans h'
  obtain ⟨hk, hkAnimal, hget⟩ := of_decide_eq_true ht
  -- The reference of field `first`, and the one inside `animal`.
  have hfirst : t.PropertyAt definitions (kennel.rootOutline "") none ("first", some 1) _ :=
    Session.propertyAt_of_isPlainObject howner hownerPlain hproperties rfl hk hget
  obtain ⟨_, hi, hfirstPlace⟩ := hfirst.place
  cases hi
  rw [Json.propertyOutline_eq rfl hrequired, Json.outline_of_ref rfl rfl] at hfirstPlace
  obtain ⟨path', ho⟩ := hhands.outline (Definitions.path "animal")
  have hanimalPlace : t.Place definitions (kennel.rootOutline "") none _ 1 :=
    .definition hanimal hkAnimal
  rw [ho] at hanimalPlace
  refine ⟨definitions, batch, t, 1, _, path', _, w, hd, h, hfirstPlace, hanimalPlace, ?_, hc,
    List.mem_cons_self⟩
  rintro ⟨r, hr, hr'⟩
  rw [hr.eq_self hanimal hanimalDirect] at hr'
  exact absurd (hr'.eq_self hpet hpetDirect) (by decide)

end ShapeSdl
