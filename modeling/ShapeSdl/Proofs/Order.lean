import ShapeSdl.Proofs.Agree
import ShapeSdl.Proofs.Batches
import ShapeSdl.Proofs.Container
import Mathlib.Data.List.Nodup
import Mathlib.Data.Option.Basic
import Mathlib.Data.List.Perm.Basic

/-!
# The order of definitions

Whatever order its definitions are written in, a document that can be read compiles to the same
declarations. It can be read in every order, provided that the definitions that lead back to
themselves are object definitions. Any other would be met again while it is read, if it came first.

* `Json.Reordered` : two documents that differ in the order of their definitions only;
* `Reordered.compiles_of_read` : if both can be read, one compiles if the other does, to the same
  declarations in another order;
* `Reordered.read` : one can be read if the other can, if only object definitions lead to
  themselves;
* `Reads.isPlain_of_leads` : what comes first and leads to itself is an object definition;
* `compile_reordered` : the order of definitions makes no difference, and when it may make one;
* `listCircle`, `variantOwner` : definitions for which it does.
-/

namespace ShapeSdl

/-! ## Compiling in another order -/

/-- A declaration that comes out, whatever has been logged before. -/
def Context.Declares (cx : Context) (entry : String × Ref) (d : Declaration) : Prop :=
  ∀ w : Walk, w.active = [] → ∃ w', w'.active = [] ∧ cx.declare entry.1 entry.2 w = .ok d w'

open Fault (bind_eq_ok pure_eq_ok)

namespace Context

variable {cx cx' : Context} {l l' : List (String × Ref)} {document : Document}

theorem mapM_declares (h : List.Forall₂ cx.Declares l document) {w : Walk} (hw : w.active = []) :
    ∃ w', (l.mapM fun (name, r) => cx.declare name r) w = .ok document w' := by
  induction h generalizing w with
  | nil => exact ⟨w, rfl⟩
  | cons hfirst _ ih =>
    obtain ⟨u, hu, hd⟩ := hfirst w hw
    obtain ⟨w', hrest⟩ := ih hu
    refine ⟨w', ?_⟩
    rw [List.mapM_cons, bind_eq_ok]
    exact ⟨_, u, hd, bind_eq_ok.2 ⟨_, w', hrest, rfl⟩⟩

theorem declares_of_mapM {V : Ref → Ref → Prop} {Q : String × Ref → String × Ref → Prop}
    (hl : List.Forall₂ Q l l')
    (hq : ∀ p q, Q p q → Compiling.Agree V (cx.declare p.1 p.2) (cx'.declare q.1 q.2))
    {w u : Walk} (hw : w.active = [])
    (h : (l.mapM fun (name, r) => cx.declare name r) w = .ok document u) :
    List.Forall₂ cx'.Declares l' document := by
  induction hl generalizing w document with
  | nil => cases h; exact .nil
  | @cons p q _ _ hpq _ ih =>
    rw [List.mapM_cons, bind_eq_ok] at h
    obtain ⟨d, v, hd, h⟩ := h
    obtain ⟨rest, v', hrest, h⟩ := bind_eq_ok.1 h
    obtain ⟨rfl, rfl⟩ := pure_eq_ok.1 h
    change cx.declare p.1 p.2 w = .ok d v at hd
    have hsame : ∀ w' : Walk, w'.active = [] →
        v.active = [] ∧ ∃ v', v'.active = [] ∧ cx'.declare q.1 q.2 w' = .ok d v' := by
      intro w' hw'
      have hend := hq p q hpq w w' (by rw [hw, hw']; exact .nil)
      rw [hd, hw, hw'] at hend
      generalize cx'.declare q.1 q.2 w' = r at hend ⊢
      cases hend with
      | ok left right => exact ⟨left, _, right, rfl⟩
    exact .cons (fun w' hw' => (hsame w' hw').2) (ih (hsame w hw).1 hrest)

/-- What compiles in one context compiles in the other in any order. -/
theorem mapM_perm {V : Ref → Ref → Prop} {Q : String × Ref → String × Ref → Prop}
    {m : List (String × Ref)} (hl : List.Forall₂ Q l m) (hm : m.Perm l')
    (hq : ∀ p q, Q p q → Compiling.Agree V (cx.declare p.1 p.2) (cx'.declare q.1 q.2))
    {w u : Walk} (hw : w.active = [])
    (h : (l.mapM fun (name, r) => cx.declare name r) w = .ok document u) :
    ∃ document', document.Perm document' ∧ ∀ w : Walk, w.active = [] → ∃ u,
      (l'.mapM fun (name, r) => cx'.declare name r) w = .ok document' u := by
  have hdecl := declares_of_mapM hl hq hw h
  obtain ⟨document', hdecl', hp⟩ := List.perm_comp_forall₂ hm.symm hdecl
  exact ⟨document', hp.symm, fun _ hw => mapM_declares hdecl' hw⟩

end Context

theorem Entries.exists_perm {α β γ : Type} [DecidableEq α] {e : Entries α β} {f : Entries α γ}
    {V : β → γ → Prop} (h : ∀ k v, e.get? k = some v → ∃ w, f.get? k = some w ∧ V v w)
    (h' : ∀ k w, f.get? k = some w → ∃ v, e.get? k = some v) :
    ∃ m, m.Perm f.toList ∧ List.Forall₂ (fun p q => p.1 = q.1 ∧ V p.2 q.2) e.toList m := by
  have key : ∀ l : List (α × β), (∀ p ∈ l, p ∈ e.toList) → ∃ m : List (α × γ),
      (∀ q ∈ m, q ∈ f.toList) ∧ m.map Prod.fst = l.map Prod.fst ∧
        List.Forall₂ (fun p q => p.1 = q.1 ∧ V p.2 q.2) l m := by
    intro l hl
    induction l with
    | nil => exact ⟨[], by simp, rfl, .nil⟩
    | cons p rest ih =>
      obtain ⟨hp, hrest⟩ := List.forall_mem_cons.1 hl
      obtain ⟨m, hm, hkeys, hall⟩ := ih hrest
      obtain ⟨w, hw, hv⟩ := h p.1 p.2 (mem_toList_iff.1 hp)
      refine ⟨(p.1, w) :: m, List.forall_mem_cons.2 ⟨mem_toList_iff.2 hw, hm⟩, ?_,
        .cons ⟨rfl, hv⟩ hall⟩
      rw [List.map_cons, List.map_cons, hkeys]
  obtain ⟨m, hm, hkeys, hall⟩ := key e.toList fun _ hp => hp
  have hn : (m.map Prod.fst).Nodup := by
    rw [hkeys]
    exact e.nodup_keys
  refine ⟨m, ?_, hall⟩
  rw [List.perm_ext_iff_of_nodup (List.Nodup.of_map _ hn) (List.Nodup.of_map _ f.nodup_keys)]
  refine fun q => ⟨hm q, fun hq => ?_⟩
  obtain ⟨v, hv⟩ := h' q.1 q.2 (mem_toList_iff.1 hq)
  have hk : q.1 ∈ m.map Prod.fst := by
    rw [hkeys]
    exact List.mem_map_of_mem (mem_toList_iff.2 hv)
  obtain ⟨⟨k, w⟩, hp, hk⟩ := List.mem_map.1 hk
  cases hk
  have hw := (mem_toList_iff.1 (hm _ hp)).symm.trans (mem_toList_iff.1 hq)
  rwa [Option.some.inj hw] at hp

/-! ## A document read twice is compiled twice -/

namespace Complete

variable {definitions : Definitions} {root : Option Outline} {rootId rootId' : Option NodeId}
  {own own' : Option String → List NodeId} {s s' : Session} {ds ds' : Definitions} {i j : NodeId}
  {name : String}

theorem get?_batch_of_twin (C : Complete definitions root rootId own s)
    (C' : Complete definitions root rootId' own' s') (hmem : ∀ d, d ∈ ds ↔ d ∈ ds')
    (hn : (ds.map fun d => TypeName.pascal d.1).Nodup)
    (hn' : (ds'.map fun d => TypeName.pascal d.1).Nodup) (hij : Twin own own' i j) {k : String}
    (h : (s.graph.batch (s.nodes ds) name rootId).get? k = some (some i)) :
    (s'.graph.batch (s'.nodes ds') name rootId').get? k = some (some j) := by
  obtain ⟨_, hv, key, a, b, hai, rfl, hi, hj⟩ := C.get?_batch C' hmem hn hn' h
  cases hai
  rwa [C.twin_unique C' hij (C.twin_nodeAt C' hi hj)]

/-- The contexts of the two batches cannot be told apart. -/
theorem twins (C : Complete definitions root rootId own s)
    (C' : Complete definitions root rootId' own' s') (hmem : ∀ d, d ∈ ds ↔ d ∈ ds')
    (hn : (ds.map fun d => TypeName.pascal d.1).Nodup)
    (hn' : (ds'.map fun d => TypeName.pascal d.1).Nodup)
    (ha : (s.graph.batch (s.nodes ds) name rootId).Apart ds name)
    (ha' : (s'.graph.batch (s'.nodes ds') name rootId').Apart ds' name) (o : Options) :
    Context.Twins (Twin own own') ⟨s.graph, (s.graph.batch (s.nodes ds) name rootId).registry, o⟩
      ⟨s'.graph, (s'.graph.batch (s'.nodes ds') name rootId').registry, o⟩ where
  alike i j h := C.alike C' h
  unique := ⟨fun _ _ _ h h' => C'.twin_unique C h.symm h'.symm,
    fun _ _ _ h h' => C.twin_unique C' h h'⟩
  name i j h := by
    have hiff : ∀ k, (s.graph.batch (s.nodes ds) name rootId).get? k = some (some i) ↔
        (s'.graph.batch (s'.nodes ds') name rootId').get? k = some (some j) := fun k =>
      ⟨C.get?_batch_of_twin C' hmem hn hn' h,
        C'.get?_batch_of_twin C (fun d => (hmem d).symm) hn' hn h.symm⟩
    ext k
    show _ = some k ↔ _ = some k
    rw [Graph.get?_registry_batch hn ha, Graph.get?_registry_batch hn' ha', hiff, Ne, hiff]
  options := rfl

end Complete

theorem Compilation.result_eq_ok_iff {schema : Json} {root : String} {o : Options}
    {document : Document} : (ofSchema schema root o).result = .ok document ↔
      ∃ batch t w, readDocument schema root {} = .ok batch t ∧
        compileBatch t.graph o batch {} = .ok document w := by
  unfold ofSchema Session.read
  cases readDocument schema root {} with
  | error f t =>
    refine iff_of_false nofun ?_
    rintro ⟨_, _, _, ⟨⟩, -⟩
  | ok batch t =>
    dsimp only
    constructor
    · intro h
      cases hc : compileBatch t.graph o batch {} with
      | error f w => rw [hc] at h; cases h
      | ok d w =>
        rw [hc] at h
        cases h
        exact ⟨batch, t, w, rfl, hc⟩
    · rintro ⟨_, _, w, ⟨⟩, hc⟩
      rw [hc]

/-- Without names given beforehand, and not in strict mode, compiling a batch is declaring its
nodes. -/
theorem compileBatch_eq {o : Options} (hseeds : o.registry = .ok ∅)
    (hstrict : o.strict.isTruthy = false) (g : Graph) (batch : Batch) :
    compileBatch g o batch {} =
      (batch.toList.mapM fun (name, r) => Context.declare ⟨g, batch.registry, o⟩ name r)
        { log := [.batch batch.size batch.registry.size o.strict] } := by
  unfold compileBatch Options.batchRegistry
  rw [hseeds, hstrict]
  rfl

/-! ## Documents in another order -/

/-- Two documents that differ in the order of their definitions only. -/
structure Json.Reordered (schema schema' : Json) (ds ds' : Definitions) : Prop where
  left : schema.definitions = .ok ds
  right : schema'.definitions = .ok ds'
  perm : ds.Perm ds'
  names : (ds.map fun d => TypeName.pascal d.1).Nodup
  properties : (schema.get? "properties").isSome = (schema'.get? "properties").isSome
  outline : schema.outline "#" = schema'.outline "#"

namespace Json.Reordered

variable {schema schema' : Json} {ds ds' definitions : Definitions} {root : String}

theorem names' (H : schema.Reordered schema' ds ds') :
    (ds'.map fun d => TypeName.pascal d.1).Nodup :=
  (H.perm.map _).nodup_iff.1 H.names

theorem symm (H : schema.Reordered schema' ds ds') : schema'.Reordered schema ds' ds :=
  ⟨H.right, H.left, H.perm.symm, H.names', H.properties.symm, H.outline.symm⟩

theorem rootOutline_eq (H : schema.Reordered schema' ds ds') :
    schema'.rootOutline root = schema.rootOutline root := by
  rw [rootOutline, rootOutline, H.properties, H.outline]

theorem lookup_eq (H : schema.Reordered schema' ds ds') (name : String) :
    ds'.lookup name = ds.lookup name := by
  have hn : (ds.map Prod.fst).Nodup := by
    apply List.Nodup.of_map TypeName.pascal
    rw [List.map_map]
    exact H.names
  exact (Entries.lookup_perm H.perm hn name).symm

/-- A document that can be read can be read in another order. -/
theorem read (H : schema.Reordered schema' ds ds')
    (hl : ∀ name, ds.lookup name = definitions.lookup name) (hself : definitions.Unrolled)
    (s' : Session) {s t : Session} {batch : Batch} (h : readDocument schema root s = .ok batch t) :
    ∃ batch' t', readDocument schema' root s' = .ok batch' t' := by
  obtain ⟨rootId, own, C, -⟩ := readDocument_complete H.left hl h
  have hl' : ∀ name, ds'.lookup name = definitions.lookup name := fun name =>
    (H.lookup_eq name).trans (hl name)
  have hall : definitions.Sound := C.settled.definitions_sound fun name hname => by
    obtain ⟨body, hbody⟩ := Option.isSome_iff_exists.1 hname
    obtain ⟨id, _, hid, -⟩ := C.built (some name) _ (by rw [Definitions.outlineAt, hbody]; rfl)
    exact ⟨id, hid⟩
  refine exists_readDocument H.right hl' hall hself (fun o ho => ?_) s'
  obtain ⟨_, _, -, -, hb⟩ := C.built none o (H.rootOutline_eq.symm.trans ho)
  exact C.settled.sound hb

theorem apart (H : schema.Reordered schema' ds ds')
    (hl : ∀ name, ds.lookup name = definitions.lookup name) {s t s' t' : Session}
    {batch batch' : Batch} (h : readDocument schema root s = .ok batch t)
    (h' : readDocument schema' root s' = .ok batch' t') (ha : batch.Apart ds root) :
    batch'.Apart ds' root := by
  obtain ⟨rootId, own, C, rfl⟩ := readDocument_complete H.left hl h
  obtain ⟨rootId', own', C', rfl⟩ := readDocument_complete H.right
    (fun name => (H.lookup_eq name).trans (hl name)) h'
  rw [H.rootOutline_eq] at C'
  intro k l v hk hl hne
  obtain ⟨u, hu, key, j, i, rfl, rfl, hj, hi⟩ :=
    C'.get?_batch C (fun _ => H.perm.mem_iff.symm) H.names' H.names hk
  obtain ⟨u', hu', key', j', i', hji, rfl, hj', hi'⟩ :=
    C'.get?_batch C (fun _ => H.perm.mem_iff.symm) H.names' H.names hl
  cases hji
  cases C'.twin_unique C (C'.twin_nodeAt C hj hi) (C'.twin_nodeAt C hj' hi')
  obtain ⟨hname, hfree⟩ := ha k l _ hu hu' hne
  exact ⟨hname, fun d hd => hfree d (H.perm.mem_iff.2 hd)⟩

theorem compiles_of_read (H : schema.Reordered schema' ds ds')
    (hl : ∀ name, ds.lookup name = definitions.lookup name)
    {o : Options} (hseeds : o.registry = .ok ∅) (hstrict : o.strict.isTruthy = false)
    {batch batch' : Batch} {t t' : Session} (hread : readDocument schema root {} = .ok batch t)
    (hread' : readDocument schema' root {} = .ok batch' t') (hapart : batch.Apart ds root)
    (hw : definitions.Unrolled ∨ t.Whole ∧ t'.Whole)
    {document : Document} (h : (Compilation.ofSchema schema root o).result = .ok document) :
    ∃ document', (Compilation.ofSchema schema' root o).result = .ok document' ∧
      document.Perm document' := by
  obtain ⟨_, _, w, hsame, hc⟩ := Compilation.result_eq_ok_iff.1 h
  cases hread.symm.trans hsame
  have hapart' := H.apart hl hread hread' hapart
  obtain ⟨rootId, own, C, rfl⟩ := readDocument_complete H.left hl hread
  obtain ⟨rootId', own', C', rfl⟩ := readDocument_complete H.right
    (fun name => (H.lookup_eq name).trans (hl name)) hread'
  rw [H.rootOutline_eq] at C'
  have hbeside : t.WholeBeside definitions (schema.rootOutline root) own :=
    hw.elim C.wholeBeside_of_unrolled fun hw => hw.1.beside
  have hbeside' : t'.WholeBeside definitions (schema.rootOutline root) own' :=
    hw.elim C'.wholeBeside_of_unrolled fun hw => hw.2.beside
  have hmem : ∀ d, d ∈ ds ↔ d ∈ ds' := fun _ => H.perm.mem_iff
  have T := C.twins C' hmem H.names H.names' hapart hapart' o
  obtain ⟨m, hm, hall⟩ := Entries.exists_perm
    (fun _ _ hv => C.get?_batch C' hmem H.names H.names' hv) fun k v hv => by
      obtain ⟨u, hu, -⟩ := C'.get?_batch C (fun d => (hmem d).symm) H.names' H.names hv
      exact ⟨u, hu⟩
  have hagree : ∀ p q : String × Ref, p.1 = q.1 ∧ SameNode t t' rootId rootId' p.2 q.2 →
      Compiling.Agree (Ref.Rel (Twin own own'))
        (Context.declare ⟨t.graph, (t.graph.batch (t.nodes ds) root rootId).registry, o⟩ p.1 p.2)
        (Context.declare ⟨t'.graph, (t'.graph.batch (t'.nodes ds') root rootId').registry, o⟩ q.1
          q.2) := by
    rintro ⟨name, _⟩ ⟨_, _⟩ ⟨rfl, key, i, j, rfl, rfl, hi, hj⟩
    exact T.declare_agree name (C.twin_nodeAt C' hi hj)
      (C.related_fields C' hbeside hbeside' hi hj)
  rw [compileBatch_eq hseeds hstrict] at hc
  obtain ⟨document', hp, hcompile⟩ := Context.mapM_perm hall hm hagree rfl hc
  obtain ⟨u, hu⟩ := hcompile { log := _ } rfl
  refine ⟨document', Compilation.result_eq_ok_iff.2 ⟨_, t', u, hread', ?_⟩, hp⟩
  rw [compileBatch_eq hseeds hstrict]
  exact hu

/-- A document that can be read in both orders compiles in both or in neither, to the same
declarations. -/
theorem rel_of_read (H : schema.Reordered schema' ds ds')
    (hl : ∀ name, ds.lookup name = definitions.lookup name)
    {o : Options} (hseeds : o.registry = .ok ∅) (hstrict : o.strict.isTruthy = false)
    {batch batch' : Batch} {t t' : Session} (hread : readDocument schema root {} = .ok batch t)
    (hread' : readDocument schema' root {} = .ok batch' t') (hapart : batch.Apart ds root)
    (hw : definitions.Unrolled ∨ t.Whole ∧ t'.Whole) :
    Option.Rel List.Perm (Compilation.ofSchema schema root o).result.toOption
      (Compilation.ofSchema schema' root o).result.toOption := by
  cases hr : (Compilation.ofSchema schema root o).result with
  | ok document =>
    obtain ⟨document', hr', hperm⟩ := H.compiles_of_read hl hseeds hstrict hread hread' hapart hw hr
    rw [hr']
    exact .some hperm
  | error e =>
    cases hr' : (Compilation.ofSchema schema' root o).result with
    | error e' => exact .none
    | ok document' =>
      obtain ⟨document, hok, -⟩ := H.symm.compiles_of_read
        (fun name => (H.lookup_eq name).trans (hl name)) hseeds hstrict hread' hread
        (H.apart hl hread hread' hapart) (hw.imp_right And.symm) hr'
      cases hr.symm.trans hok

/-- If every definition that leads to itself is an object definition, a document can be read in both
orders or in neither, so it compiles in both or in neither. -/
theorem rel_of_unrolled (H : schema.Reordered schema' ds ds')
    (hl : ∀ name, ds.lookup name = definitions.lookup name) (hself : definitions.Unrolled)
    {o : Options} (hseeds : o.registry = .ok ∅) (hstrict : o.strict.isTruthy = false)
    (ha : ∀ batch t, readDocument schema root {} = .ok batch t → batch.Apart ds root) :
    Option.Rel List.Perm (Compilation.ofSchema schema root o).result.toOption
      (Compilation.ofSchema schema' root o).result.toOption := by
  have hl' : ∀ name, ds'.lookup name = definitions.lookup name := fun name =>
    (H.lookup_eq name).trans (hl name)
  cases hread : readDocument schema root {} with
  | ok batch t =>
    obtain ⟨batch', t', hread'⟩ := H.read hl hself {} hread
    exact H.rel_of_read hl hseeds hstrict hread hread' (ha batch t hread) (.inl hself)
  | error f t =>
    cases hread' : readDocument schema' root {} with
    | ok batch' t' =>
      obtain ⟨_, _, h⟩ := H.symm.read hl' hself {} hread'
      cases hread.symm.trans h
    | error f' t' =>
      rw [Compilation.ofSchema, Compilation.ofSchema, Session.read, Session.read, hread, hread']
      exact .none

end Json.Reordered

/-! ## What must come later -/

/-- Unless it is an object definition, none that leads to itself can be read first: it would be met
again before it has a node. -/
theorem Reads.isPlain_of_leads {definitions : Definitions} {s t : Session} {name : String}
    {ids : List NodeId} (h : Reads definitions [] (.one (.definition name)) s ids t) (hs : s.Sane)
    (hnone : ∀ other, ¬ s.Knows other) (hself : definitions.Leads name name) :
    definitions.IsPlain name := by
  cases h with
  | known hk => exact absurd ⟨_, hk⟩ (hnone name)
  | plain _ _ hd hp _ _ => exact ⟨_, hd, hp⟩
  | @other _ _ u _ body id hu _ hd _ inside =>
    have hreached : ∀ other, definitions.Leads name other → u.Knows other := by
      intro other hl
      induction hl with
      | single hr =>
        obtain ⟨body', hd', hm⟩ := hr
        cases hd.symm.trans hd'
        exact inside.knows hs _ hm
      | tail _ hr ih => exact inside.closed hs _ (hnone _) ih _ hr
    obtain ⟨id', hid⟩ := hreached name hself
    have hunread := inside.unknown_of_mem List.mem_cons_self hu
    rw [hunread] at hid
    cases hid

/-- If a document can be read with a definition in front that leads to itself, that one is an object
definition. -/
theorem Json.Reordered.isPlain_of_first {schema schema' body : Json} {ds rest : Definitions}
    {root name : String} (H : schema.Reordered schema' ds ((name, body) :: rest)) {s t : Session}
    {batch : Batch} (h : readDocument schema' root s = .ok batch t) (hself : ds.Leads name name) :
    ds.IsPlain name := by
  obtain ⟨_, _, _, hd, hr, -⟩ := readDocument_eq_ok_iff.1 h
  cases H.right.symm.trans hd
  cases hr with
  | cons first _ =>
    refine (first.congr H.lookup_eq).isPlain_of_leads s.sane_begin ?_ hself
    rintro other ⟨id, hid⟩
    cases hid

/-! ## The order of a container -/

section
variable {schema : Json} {container container' : List (String × Json)} {definitions : Definitions}
  {root : String} {o : Options}

theorem Json.reordered_withDefinitions (hc : schema.definitionContainer = .obj container)
    (hd : schema.definitions = .ok definitions)
    (hn : (definitions.map fun d => TypeName.pascal d.1).Nodup) (hp : container.Perm container') :
    schema.Reordered (schema.withDefinitions container') definitions
      (container'.filter fun d => !isComment d) := by
  obtain ⟨hds, hd'⟩ := definitions_withDefinitions hd hc hp.isEmpty_eq.symm
  refine ⟨hd, hd', ?_, hn, ?_, (outline_withDefinitions "#").symm⟩
  · rw [hds]
    exact hp.filter _
  · rw [get?_withDefinitions_of_ne (by decide) (by decide)]

/-- If a document compiles in every order, every definition that leads to itself is an object
definition. -/
theorem Json.unrolled_of_compiles (hc : schema.definitionContainer = .obj container)
    (hd : schema.definitions = .ok definitions)
    (hn : (definitions.map fun d => TypeName.pascal d.1).Nodup)
    (hall : ∀ container', container.Perm container' → ∃ document,
      (Compilation.ofSchema (schema.withDefinitions container') root o).result = .ok document) :
    definitions.Unrolled := by
  intro name hself
  have hmem : ∃ body, (name, body) ∈ definitions := by
    rw [Definitions.Leads, Relation.TransGen.head'_iff] at hself
    obtain ⟨_, ⟨body, hl, -⟩, -⟩ := hself
    exact ⟨body, Definitions.mem_of_lookup hl⟩
  obtain ⟨body, hbody⟩ := hmem
  rw [(definitions_withDefinitions hd hc rfl).1, List.mem_filter] at hbody
  obtain ⟨hbody, hcomment⟩ := hbody
  obtain ⟨before, after, rfl⟩ := List.append_of_mem hbody
  have hp : (before ++ (name, body) :: after).Perm ((name, body) :: (before ++ after)) :=
    List.perm_middle
  have H := reordered_withDefinitions hc hd hn hp
  rw [List.filter_cons, if_pos hcomment] at H
  obtain ⟨document, hok⟩ := hall _ hp
  obtain ⟨batch, t, -, hread, -⟩ := Compilation.result_eq_ok_iff.1 hok
  exact H.isPlain_of_first hread hself

/-- The order of definitions makes no difference to what a document compiles to, provided that it
can be read in both orders and no object is merged before its parts have their fields: it compiles
in both or in neither, and to the same declarations. If every definition that leads to itself is an
object definition, no order is worse than another. If some other definition leads to itself, the
document does not compile in every order. -/
theorem compile_reordered (hc : schema.definitionContainer = .obj container)
    (hd : schema.definitions = .ok definitions)
    (hn : (definitions.map fun d => TypeName.pascal d.1).Nodup)
    (hseeds : o.registry = .ok ∅) (hstrict : o.strict.isTruthy = false)
    (ha : ∀ batch t, readDocument schema root {} = .ok batch t → batch.Apart definitions root) :
    (∀ container', container.Perm container' → ∀ batch t batch' t',
      readDocument schema root {} = .ok batch t →
      readDocument (schema.withDefinitions container') root {} = .ok batch' t' →
      t.Whole → t'.Whole →
        Option.Rel List.Perm (Compilation.ofSchema schema root o).result.toOption
          (Compilation.ofSchema (schema.withDefinitions container') root o).result.toOption) ∧
    (definitions.Unrolled → ∀ container', container.Perm container' →
      Option.Rel List.Perm (Compilation.ofSchema schema root o).result.toOption
        (Compilation.ofSchema (schema.withDefinitions container') root o).result.toOption) ∧
    ((∀ container', container.Perm container' → ∃ document,
        (Compilation.ofSchema (schema.withDefinitions container') root o).result = .ok document) →
      definitions.Unrolled) := by
  refine ⟨fun container' hp batch t batch' t' hread hread' hw hw' => ?_,
    fun hself container' hp => ?_, Json.unrolled_of_compiles hc hd hn⟩
  · have H := Json.reordered_withDefinitions hc hd hn hp
    exact H.rel_of_read (fun _ => rfl) hseeds hstrict hread hread' (ha batch t hread)
      (.inr ⟨hw, hw'⟩)
  · have H := Json.reordered_withDefinitions hc hd hn hp
    exact H.rel_of_unrolled (fun _ => rfl) hself hseeds hstrict ha

def Json.ofDefinitions (definitions : Definitions) : Json :=
  .obj [("$defs", .obj definitions)]

/-- Two object definitions that refer to each other. -/
def objectCircle : Definitions := [
  ("a", .obj [("type", .str "object"), ("properties", .obj [
    ("b", .obj [("$ref", .str "#/$defs/b")])])]),
  ("b", .obj [("type", .str "object"), ("properties", .obj [
    ("a", .obj [("$ref", .str "#/$defs/a")])])])]

theorem objectCircle_unrolled : Definitions.Unrolled objectCircle := by
  intro name hself
  rw [Definitions.Leads, Relation.TransGen.head'_iff] at hself
  obtain ⟨_, ⟨body, hl, -⟩, -⟩ := hself
  have hall : ∀ d ∈ objectCircle, d.2.isPlainObject = .ok true := by decide +kernel
  exact ⟨body, hl, hall _ (Definitions.mem_of_lookup hl)⟩

/-- A list definition and an object definition that refer to each other. -/
def listCircle : Definitions := [
  ("kennel", .obj [("type", .str "array"), ("items", .obj [("$ref", .str "#/$defs/pet")])]),
  ("pet", .obj [("type", .str "object"), ("properties", .obj [
    ("kennel", .obj [("$ref", .str "#/$defs/kennel")])])])]

/-- The same two with the object definition in front, and a definition that adds a field to it. -/
def listCircleHeir : Definitions :=
  listCircle.reverse ++ [
    ("puppy", .obj [("allOf", .arr [.obj [("$ref", .str "#/$defs/pet")],
      .obj [("type", .str "object"), ("properties", .obj [
        ("name", .obj [("type", .str "string")])])]])])]

theorem exists_perm_of_rel {ε : Type} {x y : Except ε Document}
    (h : Option.Rel List.Perm x.toOption y.toOption) (hne : x.toOption ≠ y.toOption) :
    ∃ document document', x = .ok document ∧ y = .ok document' ∧ document.Perm document' ∧
      document ≠ document' := by
  cases x with
  | error =>
    cases y with
    | error => exact absurd rfl hne
    | ok => cases h
  | ok document =>
    cases y with
    | error => cases h
    | ok document' =>
      cases h with
      | some hp =>
        exact ⟨document, document', rfl, rfl, hp, fun he => hne (congrArg some he)⟩

theorem compile_reordered_objectCircle :
    (∃ document document',
      (Compilation.ofSchema (.ofDefinitions objectCircle) "" {}).result = .ok document ∧
      (Compilation.ofSchema ((Json.ofDefinitions objectCircle).withDefinitions objectCircle.reverse)
        "" {}).result = .ok document' ∧ document.Perm document' ∧ document ≠ document') ∧
    ∃ document document',
      (Compilation.ofSchema (.ofDefinitions listCircleHeir) "" {}).result = .ok document ∧
      (Compilation.ofSchema ((Json.ofDefinitions listCircleHeir).withDefinitions
        listCircleHeir.reverse) "" {}).result = .ok document' ∧ document.Perm document' ∧
      document ≠ document' := by
  constructor
  · obtain ⟨batch, t, hread, ht⟩ := Reading.exists_ok
      (x := readDocument (.ofDefinitions objectCircle) "" {})
      (p := fun batch _ => decide batch.values.Nodup) (by decide +kernel)
    have hrel := (compile_reordered (o := {}) rfl rfl (by decide +kernel) rfl rfl (by
      intro _ _ h
      cases hread.symm.trans h
      exact Batch.apart_of_nodup (of_decide_eq_true ht) _ _)).2.1
      objectCircle_unrolled objectCircle.reverse (List.reverse_perm _).symm
    exact exists_perm_of_rel hrel (by decide +kernel)
  · obtain ⟨batch, t, hread, ht⟩ := Reading.exists_ok
      (x := readDocument (.ofDefinitions listCircleHeir) "" {})
      (p := fun batch t => decide (batch.values.Nodup ∧ t.Whole)) (by decide +kernel)
    obtain ⟨batch', t', hread', ht'⟩ := Reading.exists_ok
      (x := readDocument ((Json.ofDefinitions listCircleHeir).withDefinitions
        listCircleHeir.reverse) "" {})
      (p := fun _ t => decide t.Whole) (by decide +kernel)
    obtain ⟨hn, hw⟩ := of_decide_eq_true ht
    have hrel := (compile_reordered (o := {}) rfl rfl (by decide +kernel) rfl rfl (by
      intro _ _ h
      cases hread.symm.trans h
      exact Batch.apart_of_nodup hn _ _)).1 _ (List.reverse_perm _).symm
      batch t batch' t' hread hread' hw (of_decide_eq_true ht')
    exact exists_perm_of_rel hrel (by decide +kernel)

/-- A definition that is a union of one variant, another that stands for it, and a third that refers
to it. -/
def variantOwner : Definitions := [
  ("pet", .obj [("oneOf", .arr [.obj [("type", .str "object"), ("properties", .obj [
    ("name", .obj [("type", .str "string")])])]])]),
  ("animal", .obj [("$ref", .str "#/$defs/pet")]),
  ("owner", .obj [("type", .str "object"), ("properties", .obj [
    ("pet", .obj [("$ref", .str "#/$defs/pet")])])])]

/-- The order makes a difference if a list definition leads to itself: it is refused when it comes
first. It makes one if a node has two names, too: the others refer to it by the last one. -/
theorem compile_depends_on_order :
    ((listCircle.map fun d => TypeName.pascal d.1).Nodup ∧
      (Compilation.ofSchema (.ofDefinitions listCircle) "" {}).result.toOption = none ∧
      (Compilation.ofSchema ((Json.ofDefinitions listCircle).withDefinitions listCircle.reverse)
        "" {}).result.map (·.map Declaration.text) = .ok ["type Pet \x7b\n  kennel: [Pet!]\n\x7d"]) ∧
    (variantOwner.map fun d => TypeName.pascal d.1).Nodup ∧
      (Compilation.ofSchema (.ofDefinitions variantOwner) "" {}).result.map
        (·.map Declaration.text) =
        .ok ["type Pet \x7b\n  name: String\n\x7d", "type Animal \x7b\n  name: String\n\x7d",
          "type Owner \x7b\n  pet: Animal\n\x7d"] ∧
      (Compilation.ofSchema ((Json.ofDefinitions variantOwner).withDefinitions
        variantOwner.reverse) "" {}).result.map (·.map Declaration.text) =
        .ok ["type Owner \x7b\n  pet: Pet\n\x7d", "type Animal \x7b\n  name: String\n\x7d",
          "type Pet \x7b\n  name: String\n\x7d"] := by
  decide +kernel

end

end ShapeSdl
