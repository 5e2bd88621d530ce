import ShapeSdl.Proofs.Alike
import ShapeSdl.Proofs.Sound
import Mathlib.Data.List.Zip

/-!
# A document read twice

Whatever order its definitions are read in, a document gives the same nodes up to their positions:
each definition makes its own nodes in one order, and so does the root.

* `Complete definitions root rootId own s` : the whole document has been read, and `own` are the
  nodes of each definition and of the root;
* `Twin own own'` : two nodes that are made at the same point of the same definition;
* `Complete.alike` : twins are alike;
* `Session.Whole` : no object has been merged before its parts had their fields;
* `Complete.related_fields` : definitions have related fields both times, if none has been merged
  too early;
* `Complete.wholeBeside_of_unrolled` : none that shows has, if every definition that leads to itself
  is an object definition.
-/

namespace ShapeSdl

/-- What a document is read from: its definitions by name, and its root under no name. -/
def Definitions.outlineAt (definitions : Definitions) (root : Option Outline) :
    Option String → Option Outline
  | none => root
  | some name => (definitions.lookup name).map fun body => body.outline (path name)

/-- The node of a definition, or of the root. -/
def Session.nodeAt (s : Session) (rootId : Option NodeId) : Option String → Option NodeId
  | none => rootId
  | some name => s.known.get? name

/-- The objects that have led to a definition; nothing leads to the root. -/
def Session.LedAt (definitions : Definitions) (s : Session) (unfinished : List NodeId) :
    Option String → Prop
  | none => unfinished = []
  | some name => s.Led definitions unfinished name

/-- The whole document has been read: the definitions, and the root if it applies. -/
structure Complete (definitions : Definitions) (root : Option Outline) (rootId : Option NodeId)
    (own : Option String → List NodeId) (s : Session) : Prop where
  settled : Settled definitions (fun name => own (some name)) s
  built : ∀ key o, definitions.outlineAt root key = some o → ∃ id unfinished,
    s.nodeAt rootId key = some id ∧ s.LedAt definitions unfinished key ∧
      Built s unfinished (.one (.outline o)) [id] (own key)
  unread : ∀ key, definitions.outlineAt root key = none → s.nodeAt rootId key = none ∧ own key = []
  apart : ∀ key other i, i ∈ own key → i ∈ own other → key = other
  nodup : ∀ key, (own key).Nodup

/-- Two nodes that are made at the same point of the same definition, or of the root. -/
def Twin (own own' : Option String → List NodeId) (i j : NodeId) : Prop :=
  ∃ key, (i, j) ∈ (own key).zip (own' key)

theorem Twin.symm {own own' : Option String → List NodeId} {i j : NodeId} (h : Twin own own' i j) :
    Twin own' own j i := by
  obtain ⟨key, hmem⟩ := h
  refine ⟨key, ?_⟩
  rw [← List.zip_swap]
  exact List.mem_map.2 ⟨(i, j), hmem, rfl⟩

namespace Complete

variable {definitions : Definitions} {root : Option Outline} {rootId rootId' : Option NodeId}
  {own own' : Option String → List NodeId} {s s' : Session} {i j k : NodeId} {key : Option String}

theorem of_settled {own : String → List NodeId} {mine : List NodeId} (S : Settled definitions own s)
    (hk : ∀ name, (definitions.lookup name).isSome → s.Knows name)
    (hroot : ∀ o, root = some o → ∃ id, rootId = some id ∧
      Built s [] (.one (.outline o)) [id] mine)
    (hnone : root = none → rootId = none ∧ mine = []) (hn : mine.Nodup)
    (hap : ∀ name, ∀ i ∈ mine, i ∉ own name) :
    Complete definitions root rootId (fun key => key.elim mine own) s where
  settled := S
  built key o ho := by
    cases key with
    | none =>
      obtain ⟨id, hid, hb⟩ := hroot o ho
      exact ⟨id, [], hid, rfl, hb⟩
    | some name =>
      obtain ⟨body, hd, rfl⟩ := Option.map_eq_some_iff.1 ho
      obtain ⟨id, hid⟩ := hk name (by rw [hd]; rfl)
      obtain ⟨body', unfinished, hd', hl, hb⟩ := S.built name id hid List.not_mem_nil
      cases hd.symm.trans hd'
      exact ⟨id, unfinished, hid, hl, hb⟩
  unread key ho := by
    cases key with
    | none => exact hnone ho
    | some name =>
      have hu : s.known.get? name = none := by
        cases hid : s.known.get? name with
        | none => rfl
        | some id =>
          obtain ⟨body, _, hd, -⟩ := S.built name id hid List.not_mem_nil
          rw [Definitions.outlineAt, hd] at ho
          cases ho
      exact ⟨hu, S.unread name (.inl hu)⟩
  apart key other i hi hi' := by
    cases key <;> cases other
    · rfl
    · exact absurd hi' (hap _ i hi)
    · exact absurd hi (hap _ i hi')
    · exact congrArg some (S.apart _ _ i hi hi')
  nodup key := by
    cases key with
    | none => exact hn
    | some name => exact S.nodup name

theorem length_eq (C : Complete definitions root rootId own s)
    (C' : Complete definitions root rootId' own' s') (key : Option String) :
    (own key).length = (own' key).length := by
  cases ho : definitions.outlineAt root key with
  | none => rw [(C.unread key ho).2, (C'.unread key ho).2]
  | some o =>
    obtain ⟨_, _, -, -, hb⟩ := C.built key o ho
    obtain ⟨_, _, -, -, hb'⟩ := C'.built key o ho
    exact hb.length_eq hb'

theorem forall₂_twin (C : Complete definitions root rootId own s)
    (C' : Complete definitions root rootId' own' s') (key : Option String) :
    List.Forall₂ (Twin own own') (own key) (own' key) :=
  List.forall₂_iff_zip.2 ⟨C.length_eq C' key, fun h => ⟨key, h⟩⟩

theorem twin_unique (C : Complete definitions root rootId own s)
    (C' : Complete definitions root rootId' own' s') (h : Twin own own' i j)
    (h' : Twin own own' i k) : j = k := by
  obtain ⟨key, hj⟩ := h
  obtain ⟨other, hk⟩ := h'
  cases C.apart key other i (List.of_mem_zip hj).1 (List.of_mem_zip hk).1
  have hn : (((own key).zip (own' key)).map Prod.fst).Nodup := by
    rw [List.map_fst_zip (Nat.le_of_eq (C.length_eq C' key))]
    exact C.nodup key
  exact Option.some.inj ((Entries.lookup_of_mem hn hj).symm.trans (Entries.lookup_of_mem hn hk))

/-- What is made last of a definition that is no alias is its node. -/
theorem mem_zip_of_node (C : Complete definitions root rootId own s)
    (C' : Complete definitions root rootId' own' s') {o : Outline}
    (ho : definitions.outlineAt root key = some o) (hr : o.isReference = false)
    (hi : s.nodeAt rootId key = some i) (hj : s'.nodeAt rootId' key = some j) :
    (i, j) ∈ (own key).zip (own' key) := by
  have hne : ∀ ref path, o ≠ .reference ref path := by
    rintro ref path rfl
    cases hr
  obtain ⟨_, _, hi', -, hb⟩ := C.built key o ho
  obtain ⟨_, _, hj', -, hb'⟩ := C'.built key o ho
  cases hi.symm.trans hi'
  cases hj.symm.trans hj'
  obtain ⟨path, hp⟩ := hb.path? hne
  obtain ⟨⟨inner, he⟩, -⟩ := hb.last hp
  obtain ⟨⟨inner', he'⟩, -⟩ := hb'.last hp
  have hl := C.length_eq C' key
  rw [he, he', List.length_append, List.length_append] at hl
  rw [he, he', List.zip_append (Nat.add_right_cancel hl)]
  exact List.mem_append_right _ (List.mem_singleton_self _)

theorem exists_root (C : Complete definitions root rootId own s) {name : String}
    (hk : s.known.get? name = some i) : ∃ other o, definitions.Root name other ∧
      definitions.outlineAt root (some other) = some o ∧ o.isReference = false := by
  obtain ⟨other, hroot, -⟩ := C.settled.rooted name i hk
  obtain ⟨body, hd⟩ := hroot.lookup
  have ha := hroot.isAlias
  rw [Definitions.isAlias, hd] at ha
  exact ⟨other, _, hroot, by rw [Definitions.outlineAt, hd]; rfl, ha⟩

theorem twin_known (C : Complete definitions root rootId own s)
    (C' : Complete definitions root rootId' own' s') {name : String}
    (hi : s.known.get? name = some i) (hj : s'.known.get? name = some j) : Twin own own' i j := by
  obtain ⟨other, o, hroot, ho, hr⟩ := C.exists_root hi
  exact ⟨some other, C.mem_zip_of_node C' ho hr (C.settled.known_root hi hroot)
    (C'.settled.known_root hj hroot)⟩

/-- The nodes of the root are twins. -/
theorem twin_root (C : Complete definitions root (some i) own s)
    (C' : Complete definitions root (some j) own' s') : Twin own own' i j := by
  cases ho : root with
  | none => cases (C.unread none ho).1
  | some o =>
    cases hr : o.isReference with
    | false => exact ⟨none, C.mem_zip_of_node C' ho hr rfl rfl⟩
    | true =>
      obtain ⟨ref, path, rfl⟩ := Outline.isReference_iff.1 hr
      obtain ⟨_, _, hi, -, hb⟩ := C.built none _ ho
      obtain ⟨_, _, hj, -, hb'⟩ := C'.built none _ ho
      cases hi
      cases hj
      obtain ⟨name, means, known⟩ := hb.of_reference
      obtain ⟨name', means', known'⟩ := hb'.of_reference
      cases means.symm.trans means'
      exact C.twin_known C' known known'

/-- Twins are alike, but for the fields of objects. -/
theorem alike (C : Complete definitions root rootId own s)
    (C' : Complete definitions root rootId' own' s') (h : Twin own own' i j) :
    s.graph.Alike (Twin own own') (fun _ _ => True) s'.graph i j := by
  obtain ⟨key, hmem⟩ := h
  cases ho : definitions.outlineAt root key with
  | none =>
    rw [(C.unread key ho).2] at hmem
    cases hmem
  | some o =>
    obtain ⟨_, _, -, -, hb⟩ := C.built key o ho
    obtain ⟨_, _, -, -, hb'⟩ := C'.built key o ho
    have hall := hb.alike hb' (C.forall₂_twin C' key) fun name _ i j hi hj => C.twin_known C' hi hj
    exact (hall.2 i j hmem).imp (fun _ _ h => h) fun _ _ _ => trivial

/-! ## The fields of twins -/

end Complete

theorem Graph.Alike.related_fields {V : Ref → Ref → Prop} {R : NodeId → NodeId → Prop}
    {F : Entries String Ref → Entries String Ref → Prop} {g h : Graph} {i j : NodeId}
    (hij : g.Alike R F h i j)
    (hf : ∀ e f, g.shape? (some i) = some (.object e) → h.shape? (some j) = some (.object f) →
      F e f → Entries.Related V e f) :
    Entries.Related V (g.fields (some i)) (h.fields (some j)) := by
  obtain ⟨path, metadata, a, b, ha, hb, hab⟩ := hij
  have ha' : g.shape? (some i) = some a := by rw [Graph.shape?, ha]; rfl
  have hb' : h.shape? (some j) = some b := by rw [Graph.shape?, hb]; rfl
  rw [Graph.fields, Graph.fields, ha', hb']
  cases hab with
  | leaf isLeaf => cases a <;> first | exact .empty | cases isLeaf
  | wrapper | list | union => exact .empty
  | object inside => exact hf _ _ ha' hb' inside

theorem Built.related_fields {R : NodeId → NodeId → Prop} {s s' : Session}
    {unfinished unfinished' own own' : List NodeId} {path : String} {metadata : List (String × Json)}
    {fields : List (String × Outline)} {i j : NodeId}
    (h : Built s unfinished (.one (.outline (.object path metadata fields))) [i] own)
    (h' : Built s' unfinished' (.one (.outline (.object path metadata fields))) [j] own')
    (hown : List.Forall₂ R own own')
    (hknown : ∀ name i j, s.known.get? name = some i → s'.known.get? name = some j → R i j) :
    Entries.Related (Ref.Rel R) (s.graph.fields (some i)) (s'.graph.fields (some j)) := by
  cases h with
  | object inside node =>
    cases h' with
    | object inside' node' =>
      obtain ⟨hin, -⟩ := forall₂_of_append (inside.length_eq inside') hown
      obtain ⟨hids, -⟩ := inside.alike inside' hin fun name _ => hknown name
      rw [Graph.fields, Graph.shape?, node, Graph.fields, Graph.shape?, node']
      exact Outline.related_fieldRefs fields hids

theorem Built.eq_object {s : Session} {unfinished own : List NodeId} {body : Json} {path : String}
    {id : NodeId} (h : Built s unfinished (.one (.outline (body.outline path))) [id] own)
    (hp : body.isPlainObject = .ok true) :
    ∃ metadata fields, body.outline path = .object path metadata fields := by
  obtain ⟨entries, -, ho⟩ := Json.outline_of_isPlainObject hp
  rw [ho] at h ⊢
  cases hf : body.fieldsOutline path with
  | error f =>
    rw [hf] at h
    cases h
  | ok fields => exact ⟨_, fields, rfl⟩

/-- Not an object definition: the root, or a definition of another kind. -/
def Definitions.IsOther (definitions : Definitions) (key : Option String) : Prop :=
  ∀ name, key = some name → ¬ definitions.IsPlain name

theorem Definitions.isOther_none (definitions : Definitions) : definitions.IsOther none := nofun

/-- A node that an outline may merge: one that comes of no object definition, or that of a
definition that the outline mentions. -/
def Outline.Merges (definitions : Definitions) (o : Outline) (own : Option String → List NodeId)
    (s : Session) (i : NodeId) : Prop :=
  (∃ key, definitions.IsOther key ∧ i ∈ own key) ∨ ∃ name ∈ o.mentions, s.known.get? name = some i

def Outline.MergesTwins (definitions : Definitions) (o : Outline)
    (own own' : Option String → List NodeId) (s s' : Session) (i j : NodeId) : Prop :=
  (∃ key, definitions.IsOther key ∧ (i, j) ∈ (own key).zip (own' key)) ∨
    ∃ name ∈ o.mentions, s.known.get? name = some i ∧ s'.known.get? name = some j

theorem Outline.MergesTwins.left {definitions : Definitions} {o : Outline}
    {own own' : Option String → List NodeId} {s s' : Session} {i j : NodeId}
    (h : o.MergesTwins definitions own own' s s' i j) : o.Merges definitions own s i :=
  h.imp (fun ⟨key, hk, hmem⟩ => ⟨key, hk, (List.of_mem_zip hmem).1⟩)
    fun ⟨name, hn, hi, _⟩ => ⟨name, hn, hi⟩

theorem Outline.MergesTwins.right {definitions : Definitions} {o : Outline}
    {own own' : Option String → List NodeId} {s s' : Session} {i j : NodeId}
    (h : o.MergesTwins definitions own own' s s' i j) : o.Merges definitions own' s' j :=
  h.imp (fun ⟨key, hk, hmem⟩ => ⟨key, hk, (List.of_mem_zip hmem).2⟩)
    fun ⟨name, hn, _, hj⟩ => ⟨name, hn, hj⟩

/-- Every merged object has the fields that its parts have in the end. -/
def Session.Whole (s : Session) : Prop :=
  ∀ m ∈ s.merges, s.graph.fields (some m.node) = s.graph.merged m.parts
deriving Decidable

/-- Every merged object that comes of no object definition has the fields that its parts have in the
end. What is merged inside an object definition has no name, so its fields do not show. -/
def Session.WholeBeside (definitions : Definitions) (root : Option Outline)
    (own : Option String → List NodeId) (s : Session) : Prop :=
  ∀ key o m, definitions.outlineAt root key = some o → definitions.IsOther key →
    s.LedAt definitions m.unfinished key → m ∈ s.merges →
      (∀ p ∈ m.parts, o.Merges definitions own s p) →
        s.graph.fields (some m.node) = s.graph.merged m.parts

theorem Session.Whole.beside {definitions : Definitions} {root : Option Outline}
    {own : Option String → List NodeId} {s : Session} (h : s.Whole) :
    s.WholeBeside definitions root own := fun _ _ m _ _ _ hm _ => h m hm

namespace Complete

variable {definitions : Definitions} {root : Option Outline} {rootId rootId' : Option NodeId}
  {own own' : Option String → List NodeId} {s s' : Session} {i j : NodeId} {key : Option String}

/-- What is merged in the body of a definition that does not lead to itself has been read before. -/
theorem not_unfinished (C : Complete definitions root rootId own s) (hself : definitions.Unrolled)
    {o : Outline} {unfinished : List NodeId} (ho : definitions.outlineAt root key = some o)
    (hk : definitions.IsOther key) (hl : s.LedAt definitions unfinished key)
    (hi : o.Merges definitions own s i) : i ∉ unfinished := by
  intro hmem
  cases key with
  | none =>
    rw [show unfinished = [] from hl] at hmem
    cases hmem
  | some name =>
    obtain ⟨plain, hplain, hknown, hleads⟩ := hl i hmem
    rcases hi with ⟨other, hother, hown⟩ | ⟨next, hnext, hk'⟩
    · have hmine := C.settled.mem_own hplain.isAlias List.not_mem_nil hknown
      exact hother plain (C.apart other (some plain) i hown hmine) hplain
    · obtain ⟨body, hd, rfl⟩ := Option.map_eq_some_iff.1 ho
      obtain ⟨top, htop, -⟩ := C.settled.rooted next i hk'
      cases C.settled.root_eq hk' hknown htop hplain.root_self
      refine hk name rfl (hself name ?_)
      exact .head' ⟨body, hd, hnext⟩ (htop.leads.trans hleads)

/-- If every definition that leads to itself is an object definition, the parts of what is merged
elsewhere are all finished. -/
theorem wholeBeside_of_unrolled (C : Complete definitions root rootId own s)
    (hself : definitions.Unrolled) : s.WholeBeside definitions root own := by
  intro key o m ho hk hl hm hp
  have hall : m.finished = m.parts := List.filter_eq_self.2 fun p hmem =>
    decide_eq_true (C.not_unfinished hself ho hk hl (hp p hmem))
  rw [Graph.fields, (C.settled.merged.keeps m hm).shape, hall]

/-- The nodes of an object definition have related fields. -/
theorem related_fields_plain (C : Complete definitions root rootId own s)
    (C' : Complete definitions root rootId' own' s') {name : String} (hp : definitions.IsPlain name)
    (hi : s.known.get? name = some i) (hj : s'.known.get? name = some j) :
    Entries.Related (Ref.Rel (Twin own own')) (s.graph.fields (some i))
      (s'.graph.fields (some j)) := by
  obtain ⟨body, hd, hp⟩ := hp
  have ho : definitions.outlineAt root (some name) = some (body.outline (Definitions.path name)) := by
    rw [Definitions.outlineAt, hd]
    rfl
  obtain ⟨_, _, hi', -, hb⟩ := C.built _ _ ho
  obtain ⟨_, _, hj', -, hb'⟩ := C'.built _ _ ho
  cases hi.symm.trans hi'
  cases hj.symm.trans hj'
  obtain ⟨metadata, fields, hout⟩ := hb.eq_object hp
  rw [hout] at hb hb'
  exact hb.related_fields hb' (C.forall₂_twin C' _) fun name i j hi hj => C.twin_known C' hi hj

theorem mergesTwins_twin (C : Complete definitions root rootId own s)
    (C' : Complete definitions root rootId' own' s') {o : Outline}
    (h : o.MergesTwins definitions own own' s s' i j) : Twin own own' i j := by
  rcases h with ⟨key, -, hmem⟩ | ⟨name, -, hi, hj⟩
  · exact ⟨key, hmem⟩
  · exact C.twin_known C' hi hj

/-- The nodes of definitions have related fields if all earlier ones have that come of no object
definition. -/
theorem related_fields_of_other (C : Complete definitions root rootId own s)
    (C' : Complete definitions root rootId' own' s') {name : String}
    (hi : s.known.get? name = some i) (hj : s'.known.get? name = some j)
    (hother : ∀ key, definitions.IsOther key → (i, j) ∈ (own key).zip (own' key) →
      Entries.Related (Ref.Rel (Twin own own')) (s.graph.fields (some i))
        (s'.graph.fields (some j))) :
    Entries.Related (Ref.Rel (Twin own own')) (s.graph.fields (some i))
      (s'.graph.fields (some j)) := by
  obtain ⟨top, o, htop, ho, hr⟩ := C.exists_root hi
  have hi' := C.settled.known_root hi htop
  have hj' := C'.settled.known_root hj htop
  by_cases hp : definitions.IsPlain top
  · exact C.related_fields_plain C' hp hi' hj'
  · refine hother (some top) ?_ (C.mem_zip_of_node C' ho hr hi' hj')
    rintro _ ⟨⟩
    exact hp

/-- The nodes that come of a definition of another kind, or of the root, have related fields. -/
theorem related_fields_other (C : Complete definitions root rootId own s)
    (C' : Complete definitions root rootId' own' s') (hw : s.WholeBeside definitions root own)
    (hw' : s'.WholeBeside definitions root own')
    (hk : definitions.IsOther key) (hmem : (i, j) ∈ (own key).zip (own' key)) :
    Entries.Related (Ref.Rel (Twin own own')) (s.graph.fields (some i))
      (s'.graph.fields (some j)) := by
  -- The parts of a merged object come before it.
  induction i using Nat.strongRecOn generalizing j key with
  | ind i ih =>
    cases ho : definitions.outlineAt root key with
    | none =>
      rw [(C.unread key ho).2] at hmem
      cases hmem
    | some o =>
      obtain ⟨_, unfinished, -, hl, hb⟩ := C.built key o ho
      obtain ⟨_, unfinished', -, hl', hb'⟩ := C'.built key o ho
      have hown : List.Forall₂ (o.MergesTwins definitions own own' s s') (own key) (own' key) :=
        List.forall₂_iff_zip.2 ⟨C.length_eq C' key, fun h => .inl ⟨key, hk, h⟩⟩
      have halike := (hb.alike hb' hown fun name hn p q hp hq => .inr ⟨name, hn, hp, hq⟩).2 i j hmem
      apply halike.related_fields
      intro e f he hf hef
      cases hef with
      | fields related =>
        apply related.imp
        intro v w h
        cases h with
        | some h => exact .some (C.mergesTwins_twin C' h)
      | @merge is js parts left right =>
        have hfields := hw key o ⟨i, is, unfinished⟩ ho hk hl left
          ((List.forall₂_and_left _ _).1 (parts.imp fun _ _ h => ⟨h.left, h⟩)).1
        have hfields' := hw' key o ⟨j, js, unfinished'⟩ ho hk hl' right
          ((List.forall₂_and_left _ _).1
            ((List.Forall₂.flip (R := flip _) parts).imp fun _ _ h =>
              ⟨Outline.MergesTwins.right h, h⟩)).1
        rw [Graph.fields, he] at hfields
        rw [Graph.fields, hf] at hfields'
        dsimp only at hfields hfields'
        rw [hfields, hfields']
        refine Graph.related_merged (List.forall₂_iff_zip.2 ⟨parts.length_eq, fun {p q} hpq => ?_⟩)
        have hlt : p < i := (C.settled.merged.keeps _ left).parts_lt p (List.of_mem_zip hpq).1
        rcases List.forall₂_zip parts hpq with ⟨other, hother, hz⟩ | ⟨name, -, hp, hq⟩
        · exact ih p hlt hother hz
        · exact C.related_fields_of_other C' hp hq fun _ hother hz => ih p hlt hother hz

/-- The nodes of a definition, and those of the root, have related fields. -/
theorem related_fields (C : Complete definitions root rootId own s)
    (C' : Complete definitions root rootId' own' s') (hw : s.WholeBeside definitions root own)
    (hw' : s'.WholeBeside definitions root own')
    (hi : s.nodeAt rootId key = some i) (hj : s'.nodeAt rootId' key = some j) :
    Entries.Related (Ref.Rel (Twin own own')) (s.graph.fields (some i))
      (s'.graph.fields (some j)) := by
  have hknown : ∀ name, s.known.get? name = some i → s'.known.get? name = some j →
      Entries.Related (Ref.Rel (Twin own own')) (s.graph.fields (some i))
        (s'.graph.fields (some j)) := fun name hi hj =>
    C.related_fields_of_other C' hi hj fun _ hother hz => C.related_fields_other C' hw hw' hother hz
  cases key with
  | some name => exact hknown name hi hj
  | none =>
    cases ho : root with
    | none => cases hi.symm.trans (C.unread none ho).1
    | some o =>
      cases hr : o.isReference with
      | false =>
        exact C.related_fields_other C' hw hw' definitions.isOther_none
          (C.mem_zip_of_node C' ho hr hi hj)
      | true =>
        obtain ⟨ref, path, rfl⟩ := Outline.isReference_iff.1 hr
        obtain ⟨_, _, hi', -, hb⟩ := C.built none _ ho
        obtain ⟨_, _, hj', -, hb'⟩ := C'.built none _ ho
        cases hi.symm.trans hi'
        cases hj.symm.trans hj'
        obtain ⟨name, means, known⟩ := hb.of_reference
        obtain ⟨name', means', known'⟩ := hb'.of_reference
        cases means.symm.trans means'
        exact hknown name known known'

end Complete

end ShapeSdl
