import ShapeSdl.Proofs.Pointers
import ShapeSdl.Proofs.Required

/-!
# The nodes at the places of a document

Every place of a document that is read has its node in the graph: the node of a definition, what a
wrapper or a list holds, a variant, a field, a part that was merged.

* `Json.HandsOn`, `Definitions.isAlias_iff` : an alias is a reference, or a union of one variant that
  is in turn a reference or such a union;
* `Outline.Part` : the outlines directly inside another one;
* `Session.Place` : the node at a place, found from the definitions and the root downwards;
* `Complete.exists_place` : every place has a node;
* `Complete.place_eq_iff` : two references have the same node exactly if the definitions that they
  mean have the same root.
-/

namespace ShapeSdl

/-! ## Aliases by their schemas -/

/-- A schema that has no node of its own and hands on that of reference `ref`: a reference, or a
union of one variant that does so. -/
inductive Json.HandsOn : Json → Json → Prop
  | reference {schema ref} (form : schema.form = .reference ref) : HandsOn schema ref
  | variant {schema keyword v variant ref} (form : schema.form = .union keyword v)
      (listed : v.schemas = .ok [variant]) (nonnull : variant.isNullVariant = false)
      (onward : HandsOn variant ref) : HandsOn schema ref

namespace Outline

variable {path : String} {metadata : List (String × Json)}

/-- A reference among the outlines of a union is its only variant. -/
theorem eq_singleton_of_unionOf {nullable : Bool} {os : List Outline} {ref : Json} {path' : String}
    (h : nullableIf nullable path (unionOf path metadata os) = .reference ref path') :
    nullable = false ∧ os = [.reference ref path'] := by
  cases nullable with
  | true => cases h
  | false =>
    match os, h with
    | [o], h => exact ⟨rfl, congrArg (fun o => [o]) h⟩

theorem isReference_kindOutlines (schema : Json) (metadata : List (String × Json)) :
    (∀ path, ((schema.kindOutlines metadata).array path).isReference = false) ∧
    (∀ path, ((schema.kindOutlines metadata).object path).isReference = false) ∧
    ∀ type path, ((schema.kindOutlines metadata).scalar type path).isReference = false := by
  refine ⟨fun path => ?_, fun path => ?_, fun type path => ?_⟩
  · unfold Json.kindOutlines
    dsimp only
    split <;> rfl
  · show (ofFields path metadata (schema.fieldsOutline path)).isReference = false
    cases schema.fieldsOutline path <;> rfl
  · show (scalarOutline _ metadata type path).isReference = false
    unfold scalarOutline
    split
    · split <;> rfl
    all_goals rfl

mutual

theorem isReference_typeOutline (schema : Json) (metadata : List (String × Json)) (path : String) :
    ∀ (type : Json),
      (typeOutline (schema.kindOutlines metadata) metadata path type).isReference = false
  | .arr types => by
    rw [Bool.eq_false_iff, Ne, isReference_iff]
    rintro ⟨ref, path', h⟩
    unfold typeOutline at h
    split at h
    · cases h
    · have hall := isReference_typesOutline schema metadata path types
      rw [(eq_singleton_of_unionOf h).2] at hall
      cases hall _ List.mem_cons_self
  | .str s => by
    obtain ⟨harray, hobject, hscalar⟩ := isReference_kindOutlines schema metadata
    unfold typeOutline
    split
    · cases ‹_ = Json.arr _›
    · exact harray path
    · exact hobject path
    · exact hscalar _ path
  | .null | .bool _ | .int _ | .float _ | .obj _ =>
    (isReference_kindOutlines schema metadata).2.2 _ path

theorem isReference_typesOutline (schema : Json) (metadata : List (String × Json)) (path : String) :
    ∀ (types : List Json), ∀ o ∈ typesOutline (schema.kindOutlines metadata) metadata path types,
      o.isReference = false
  | [] => by
    rw [typesOutline]
    nofun
  | type :: rest => by
    have htype := isReference_typeOutline schema metadata (path ++ "/type/" ++ type.plain) type
    have hrest := isReference_typesOutline schema metadata path rest
    rw [typesOutline]
    split
    · exact hrest
    · exact List.forall_mem_cons.2 ⟨htype, hrest⟩

end

end Outline

namespace Json

variable {schema ref : Json} {path path' : String}

theorem HandsOn.outline (h : schema.HandsOn ref) : ∀ (path : String),
    ∃ path', schema.outline path = .reference ref path' := by
  induction h with
  | reference form =>
    intro path
    obtain ⟨entries, he⟩ := exists_entries_of_form (by rw [form]; nofun)
    exact ⟨path, outline_of_ref he form path⟩
  | variant form listed nonnull _ ih =>
    intro path
    obtain ⟨entries, he⟩ := exists_entries_of_form (by rw [form]; nofun)
    rw [outline_of_variant he form listed nonnull]
    exact ih _

theorem handsOn_of_outline : ∀ {schema : Json} {path : String},
    schema.outline path = .reference ref path' → schema.HandsOn ref := by
  intro schema
  induction hn : sizeOf schema using Nat.strongRecOn generalizing schema with
  | ind n ih =>
    subst hn
    intro path ho
    cases he : schema.entries with
    | error f =>
      rw [Json.outline, he] at ho
      cases ho
    | ok entries =>
      rw [outline_eq he] at ho
      split at ho
      · cases ho
        exact .reference ‹_›
      · cases ho
      · rename_i keyword v form
        split at ho
        · cases ho
        · rename_i variants listed
          obtain ⟨hnull, hos⟩ := Outline.eq_singleton_of_unionOf ho
          have hfilter : variants.filter (fun v => !v.isNullVariant) = variants := by
            simpa using hnull
          have hall := variantsOutline_forall₂ (path ++ "/" ++ keyword ++ "/") 0 variants
          rw [hos, hfilter] at hall
          obtain ⟨variant, _, ⟨path'', hv⟩, hrest, rfl⟩ := List.forall₂_cons_right_iff.1 hall
          cases hrest
          have hlt : sizeOf variant < sizeOf schema := by
            have := sizeOf_schemas_le listed
            have := sizeOf_lt_of_form_union form
            simp only [List.cons.sizeOf_spec] at *
            omega
          exact .variant form listed (by simpa using hnull) (ih _ hlt rfl hv.symm)
      · split at ho <;> cases ho
      · unfold enumerationOutline at ho
        split at ho
        · cases ho
        · split at ho
          · cases ho
          · rename_i values _ _
            cases hn : decide (Json.null ∈ values) <;> rw [hn] at ho <;> cases ho
      · rename_i type _
        have hno := Outline.isReference_typeOutline schema (metadata entries) path type
        rw [ho] at hno
        cases hno
      · cases hf : schema.fieldsOutline path <;> rw [hf] at ho <;> cases ho

end Json

theorem Definitions.isAlias_iff {definitions : Definitions} {name : String} :
    definitions.isAlias name = true ↔
      ∃ body ref, definitions.lookup name = some body ∧ body.HandsOn ref := by
  rw [isAlias, Option.any_eq_true]
  constructor
  · rintro ⟨body, hbody, h⟩
    obtain ⟨ref, path, ho⟩ := Outline.isReference_iff.1 h
    exact ⟨body, ref, hbody, Json.handsOn_of_outline ho⟩
  · rintro ⟨body, ref, hbody, h⟩
    obtain ⟨path', ho⟩ := h.outline (path name)
    exact ⟨body, hbody, by rw [ho]; rfl⟩

/-! ## Merged objects are merged once -/

/-- No node has been merged twice. -/
def Session.MergedOnce (s : Session) : Prop := (s.merges.map Merge.node).Nodup

theorem Session.MergedOnce.eq {s : Session} (h : s.MergedOnce) {m m' : Merge} (hm : m ∈ s.merges)
    (hm' : m' ∈ s.merges) (hn : m.node = m'.node) : m = m' :=
  List.inj_on_of_nodup_map h hm hm' hn

/-- A merged object is a new node. -/
theorem Reads.mergedOnce {definitions : Definitions} {stack : List String} {task : Task}
    {s t : Session} {ids : List NodeId} (h : Reads definitions stack task s ids t) (hs : s.Sane)
    (hm : s.Merged) (ho : s.MergedOnce) : t.MergedOnce := by
  induction h with
  | leaf | known | nil => exact ho
  | wrapper _ ih | list _ ih | union _ ih | object _ ih | reference _ _ _ ih => exact ih hs hm ho
  | merge inside _ ih =>
    refine List.nodup_cons.2 ⟨fun hmem => ?_, ih hs hm ho⟩
    obtain ⟨m, hm', he⟩ := List.mem_map.1 hmem
    exact absurd ((inside.merged hs hm).keeps m hm').node_lt (by rw [he]; exact Nat.lt_irrefl _)
  | plain hu _ _ _ _ _ ih =>
    exact ih (Session.sane_openObject hs _ _ _) (hm.openObject hu _ _) ho
  | other _ _ _ _ _ ih => exact ih hs (hm.of_grows (.refl _) rfl rfl) ho
  | cons first _ ih₁ ih₂ => exact ih₂ (first.sane hs) (first.merged hs hm) (ih₁ hs hm ho)

theorem readDocument_mergedOnce {schema : Json} {root : String} {s t : Session} {batch : Batch}
    (h : readDocument schema root s = .ok batch t) : t.MergedOnce := by
  obtain ⟨definitions, ids, u, -, hr, h⟩ := readDocument_eq_ok_iff.1 h
  have hb := s.sane_begin
  have hm := (Settled.begin definitions s).merged
  have hu := hr.mergedOnce hb hm List.nodup_nil
  dsimp only at h
  split at h
  · obtain ⟨id, hi, -⟩ := h
    exact hi.mergedOnce (hr.sane hb) (hr.merged hb hm) hu
  · obtain ⟨-, rfl⟩ := h
    exact hu

/-! ## Places -/

section
variable {α β : Type} {R : α → β → Prop} {l : List α} {l' : List β}

theorem exists_mem_zip_right (h : List.Forall₂ R l l') {a : α} (ha : a ∈ l) :
    ∃ b, (a, b) ∈ l.zip l' := by
  induction h with
  | nil => cases ha
  | cons _ _ ih =>
    rcases List.mem_cons.1 ha with rfl | ha
    · exact ⟨_, List.mem_cons_self⟩
    · obtain ⟨b, hb⟩ := ih ha
      exact ⟨b, List.mem_cons_of_mem _ hb⟩

theorem exists_mem_zip_left (h : List.Forall₂ R l l') {b : β} (hb : b ∈ l') :
    ∃ a, (a, b) ∈ l.zip l' := by
  induction h with
  | nil => cases hb
  | cons _ _ ih =>
    rcases List.mem_cons.1 hb with rfl | hb
    · exact ⟨_, List.mem_cons_self⟩
    · obtain ⟨a, ha⟩ := ih hb
      exact ⟨a, List.mem_cons_of_mem _ ha⟩

end

namespace Entries

variable {α β γ : Type} [DecidableEq α] {V : β → γ → Prop} {e : Entries α β} {f : Entries α γ} {k : α}

theorem Related.exists_right (h : Related V e f) {v : β} (hv : e.get? k = some v) :
    ∃ w, f.get? k = some w ∧ V v w := by
  obtain ⟨⟨_, w⟩, hmem, rfl, hvw⟩ := exists_mem_right h (mem_toList_iff.2 hv)
  exact ⟨w, mem_toList_iff.1 hmem, hvw⟩

theorem Related.exists_left (h : Related V e f) {w : γ} (hw : f.get? k = some w) :
    ∃ v, e.get? k = some v ∧ V v w := by
  obtain ⟨⟨_, v⟩, hmem, rfl, hvw⟩ := exists_mem_left h (mem_toList_iff.2 hw)
  exact ⟨v, mem_toList_iff.1 hmem, hvw⟩

end Entries

/-- The outlines directly inside another one. -/
inductive Outline.Part : Outline → Outline → Prop
  | wrapper {path kind value inner} : Part inner (.wrapper path kind value inner)
  | list {path metadata element} : Part element (.list path metadata element)
  | variant {path metadata variants o} (mem : o ∈ variants) :
      Part o (.union path metadata variants)
  | field {path metadata fields name o} (mem : (Entries.ofList fields).get? name = some o) :
      Part o (.object path metadata fields)
  | merged {path metadata parts o} (mem : o ∈ parts) : Part o (.merge path metadata parts)

/-- Node `id` is at a place with outline `o`: it is the node of a definition or of the root, or the
node around it refers to it there. What has been merged is on record. -/
inductive Session.Place (definitions : Definitions) (root : Option Outline) (rootId : Option NodeId)
    (s : Session) : Outline → NodeId → Prop
  | start {key o id} (outlined : definitions.outlineAt root key = some o)
      (node : s.nodeAt rootId key = some id) : Place definitions root rootId s o id
  | wrapper {path kind value inner id i}
      (around : Place definitions root rootId s (.wrapper path kind value inner) id)
      (link : s.graph.shape? (some id) = some (.wrapper kind (some i) value)) :
      Place definitions root rootId s inner i
  | list {path metadata element id i}
      (around : Place definitions root rootId s (.list path metadata element) id)
      (link : s.graph.shape? (some id) = some (.list (some i))) :
      Place definitions root rootId s element i
  | variant {path metadata variants refs id o i}
      (around : Place definitions root rootId s (.union path metadata variants) id)
      (link : s.graph.shape? (some id) = some (.union refs)) (mem : (o, some i) ∈ variants.zip refs) :
      Place definitions root rootId s o i
  | field {path metadata fields id name o i}
      (around : Place definitions root rootId s (.object path metadata fields) id)
      (outlined : (Entries.ofList fields).get? name = some o)
      (link : (s.graph.fields (some id)).get? name = some (some i)) :
      Place definitions root rootId s o i
  | merged {path metadata parts m o i}
      (around : Place definitions root rootId s (.merge path metadata parts) m.node)
      (link : m ∈ s.merges) (mem : (o, i) ∈ parts.zip m.parts) :
      Place definitions root rootId s o i

namespace Built

variable {s : Session} {unfinished : List NodeId}

theorem forall₂_all : ∀ {os : List Outline} {ids own : List NodeId},
    Built s unfinished (.all (os.map .outline)) ids own →
      List.Forall₂ (fun o id => ∃ own', Built s unfinished (.one (.outline o)) [id] own') os ids
  | [], _, _, h => by
    cases h
    exact .nil
  | o :: os, _, _, h => by
    cases h with
    | cons first rest => exact .cons ⟨_, first⟩ rest.forall₂_all

/-- The fields of an object are built of those of its outline, name by name. -/
theorem related_fields_object {path : String} {metadata : List (String × Json)}
    {fields : List (String × Outline)} {id : NodeId} {own : List NodeId}
    (h : Built s unfinished (.one (.outline (.object path metadata fields))) [id] own) :
    Entries.Related (fun o r => ∃ i own', r = some i ∧ Built s unfinished (.one (.outline o)) [i] own')
      (Entries.ofList fields) (s.graph.fields (some id)) := by
  cases h with
  | object inside node =>
    rw [Graph.fields, Graph.shape?, node]
    refine Entries.Related.putAll Entries.Related.empty (inside.forall₂_fields.imp ?_)
    rintro field f ⟨hname, i, own', hi, hb⟩
    exact ⟨hname, i, own', hi, hb⟩

end Built

namespace Complete

variable {definitions : Definitions} {root : Option Outline} {rootId : Option NodeId}
  {own : Option String → List NodeId} {s : Session} {o o' : Outline} {id id' : NodeId}

/-- The node at a place has been built of its outline. -/
theorem built_of_place (C : Complete definitions root rootId own s) (hm : s.MergedOnce)
    (h : s.Place definitions root rootId o id) :
    ∃ unfinished own', Built s unfinished (.one (.outline o)) [id] own' := by
  induction h with
  | start outlined node =>
    obtain ⟨id', unfinished, hid, -, hb⟩ := C.built _ _ outlined
    cases node.symm.trans hid
    exact ⟨unfinished, _, hb⟩
  | wrapper _ link ih =>
    obtain ⟨unfinished, _, hb⟩ := ih
    cases hb with
    | wrapper inside node =>
      rw [Graph.shape?, node] at link
      cases link
      exact ⟨unfinished, _, inside⟩
  | list _ link ih =>
    obtain ⟨unfinished, _, hb⟩ := ih
    cases hb with
    | list inside node =>
      rw [Graph.shape?, node] at link
      cases link
      exact ⟨unfinished, _, inside⟩
  | variant _ link mem ih =>
    obtain ⟨unfinished, _, hb⟩ := ih
    cases hb with
    | union inside node =>
      rw [Graph.shape?, node] at link
      cases link
      rw [List.zip_map_right] at mem
      obtain ⟨⟨o, i⟩, mem, he⟩ := List.mem_map.1 mem
      cases he
      exact ⟨unfinished, (List.forall₂_iff_zip.1 inside.forall₂_all).2 mem⟩
  | field _ outlined link ih =>
    obtain ⟨unfinished, _, hb⟩ := ih
    obtain ⟨_, hget, i, own', rfl, hbuilt⟩ := hb.related_fields_object.exists_right outlined
    cases link.symm.trans hget
    exact ⟨unfinished, own', hbuilt⟩
  | merged _ link mem ih =>
    obtain ⟨unfinished, _, hb⟩ := ih
    cases hb with
    | merge inside _ merged =>
      rw [← hm.eq merged link rfl] at mem
      exact ⟨unfinished, (List.forall₂_iff_zip.1 inside.forall₂_all).2 mem⟩

/-- Every place inside a place has a node. -/
theorem exists_place (C : Complete definitions root rootId own s) (hm : s.MergedOnce)
    (h : s.Place definitions root rootId o id) (hp : o'.Part o) :
    ∃ i, s.Place definitions root rootId o' i := by
  obtain ⟨unfinished, _, hb⟩ := C.built_of_place hm h
  cases hp with
  | wrapper =>
    cases hb with
    | wrapper inside node => exact ⟨_, h.wrapper (by rw [Graph.shape?, node]; rfl)⟩
  | list =>
    cases hb with
    | list inside node => exact ⟨_, h.list (by rw [Graph.shape?, node]; rfl)⟩
  | variant mem =>
    cases hb with
    | union inside node =>
      obtain ⟨i, hi⟩ := exists_mem_zip_right inside.forall₂_all mem
      refine ⟨i, h.variant (by rw [Graph.shape?, node]; rfl) ?_⟩
      rw [List.zip_map_right]
      exact List.mem_map.2 ⟨_, hi, rfl⟩
  | field mem =>
    obtain ⟨_, hget, i, _, rfl, -⟩ := hb.related_fields_object.exists_right mem
    exact ⟨i, h.field mem hget⟩
  | merged mem =>
    cases hb with
    | merge inside _ merged =>
      obtain ⟨i, hi⟩ := exists_mem_zip_right inside.forall₂_all mem
      exact ⟨i, Session.Place.merged (m := ⟨_, _, _⟩) h merged hi⟩

theorem known_of_place (C : Complete definitions root rootId own s) (hm : s.MergedOnce) {ref : Json}
    {path name : String} (h : s.Place definitions root rootId (.reference ref path) id)
    (means : ref.referred? = some name) : s.known.get? name = some id := by
  obtain ⟨_, _, hb⟩ := C.built_of_place hm h
  obtain ⟨name', means', hk⟩ := hb.of_reference
  cases means.symm.trans means'
  exact hk

/-- Two references have the same node exactly if the definitions that they mean have the same
root. -/
theorem place_eq_iff (C : Complete definitions root rootId own s) (hm : s.MergedOnce)
    {ref ref' : Json} {path path' name name' : String}
    (h : s.Place definitions root rootId (.reference ref path) id)
    (h' : s.Place definitions root rootId (.reference ref' path') id')
    (means : ref.referred? = some name) (means' : ref'.referred? = some name') :
    id = id' ↔ ∃ r, definitions.Root name r ∧ definitions.Root name' r := by
  have hk := C.known_of_place hm h means
  have hk' := C.known_of_place hm h' means'
  obtain ⟨r, hr, hroot⟩ := C.settled.rooted _ _ hk
  obtain ⟨r', hr', hroot'⟩ := C.settled.rooted _ _ hk'
  constructor
  · rintro rfl
    cases C.settled.root_eq hk hk' hr hr'
    exact ⟨r, hr, hr'⟩
  · rintro ⟨r'', h₁, h₂⟩
    cases hr.unique h₁
    cases hr'.unique h₂
    exact Option.some.inj (hroot.symm.trans hroot')

end Complete

theorem Json.referred?_plain {container name : String} (hc : '/' ∉ container.toList)
    (hn : '/' ∉ name.toList) :
    (Json.str ("#/" ++ container ++ "/" ++ name)).referred? = some name := by
  have hsplit : Text.split '/' ("#/" ++ container ++ "/" ++ name) = ["#", container, name] :=
    Pointer.split_eq_triple.2 ⟨rfl, by decide, hc, hn⟩
  have hstart : Text.startsWith "#" ("#/" ++ container ++ "/" ++ name) = true := by
    unfold Text.startsWith
    simp only [String.toList_append]
    rfl
  rw [referred?, if_pos hstart, Pointer.definitionName_of_split hsplit]

end ShapeSdl
