import ShapeSdl.Proofs.Declared
import ShapeSdl.Proofs.Twins
import Mathlib.Data.List.Nodup

/-!
# The batches of a document read twice

A document whose definitions are written in another order gives a batch with the same names for the
same nodes, only in another order.

* `Graph.batch` : the batch that reading leaves;
* `readDocument_complete`, `exists_readDocument` : a document that is read is complete, and a sound
  one can be read;
* `SameNode` : two nodes of one definition, or of the root, in two readings;
* `Complete.declares_eq` : the same definitions are declared both times;
* `Complete.get?_batch` : a name of the one batch stands for the same node in the other.
-/

namespace ShapeSdl

/-- The declared definitions, and the root over them. -/
def Graph.batch (g : Graph) (nodes : List (String × NodeId)) (root : String) :
    Option NodeId → Batch
  | some id => (Entries.ofList (g.declared nodes)).put (TypeName.pascal root) (some id)
  | none => .ofList (g.declared nodes)

section
variable {schema : Json} {root : String} {s t : Session} {batch : Batch} {ds definitions : Definitions}

theorem readDocument_complete (hd : schema.definitions = .ok ds)
    (hl : ∀ name, ds.lookup name = definitions.lookup name)
    (h : readDocument schema root s = .ok batch t) :
    ∃ rootId own, Complete definitions (schema.rootOutline root) rootId own t ∧
      batch = t.graph.batch (t.nodes ds) root rootId := by
  obtain ⟨own, u, S, hg, hk, hb⟩ := readDocument_batch hd hl h
  have hknows : ∀ name, (definitions.lookup name).isSome → t.Knows name := by
    intro name hname
    rw [← hl, Option.isSome_iff_exists] at hname
    obtain ⟨body, hbody⟩ := hname
    exact hg.knows (hk _ (Definitions.mem_of_lookup hbody))
  unfold Json.rootOutline
  dsimp only at hb
  split at hb <;> rename_i happ
  · obtain ⟨id, hi, rfl⟩ := hb
    obtain ⟨own', mine, S', hr⟩ := S.read hi
    refine ⟨some id, _, .of_settled S' hknows (fun o ho => ?_) (fun hn => ?_)
      hr.mine_nodup hr.mine_apart, rfl⟩
    · rw [if_pos happ] at ho
      cases ho
      exact ⟨id, rfl, S.finished ▸ hr.task⟩
    · rw [if_pos happ] at hn
      cases hn
  · obtain ⟨rfl, rfl⟩ := hb
    refine ⟨none, _, .of_settled S hknows (fun o ho => ?_) (fun _ => ⟨rfl, rfl⟩)
      List.nodup_nil (by simp), rfl⟩
    rw [if_neg happ] at ho
    cases ho

/-- A sound document can be read. -/
theorem exists_readDocument (hd : schema.definitions = .ok ds)
    (hl : ∀ name, ds.lookup name = definitions.lookup name) (hall : definitions.Sound)
    (hself : definitions.Unrolled)
    (hroot : ∀ o, schema.rootOutline root = some o → Sound definitions (.one (.outline o)))
    (s : Session) : ∃ batch t, readDocument schema root s = .ok batch t := by
  have hjobs : Sound definitions (.all (Definitions.jobs ds)) := by
    have hdefined : ∀ d ∈ ds, (definitions.lookup d.1).isSome := by
      intro d hmem
      rw [← hl]
      exact Definitions.isSome_lookup hmem
    clear hd hl
    induction ds with
    | nil => exact .nil
    | cons d rest ih =>
      obtain ⟨hfirst, hrest⟩ := List.forall_mem_cons.1 hdefined
      exact .cons (.definition hfirst) (ih hrest)
  obtain ⟨ids, u, hr⟩ := hjobs.reads hall hself (.nil _ _) (.begin s)
  have hb : s.begin.Ready definitions [] := .begin s
  have hu := hb.read hr
  have hback : ∀ name, definitions.lookup name = ds.lookup name := fun name => (hl name).symm
  let declared := u.graph.declared ((ds.map Prod.fst).zip ids)
  unfold Json.rootOutline at hroot
  by_cases happ : (schema.get? "properties").isSome ∧ root ≠ ""
  · rw [if_pos happ] at hroot
    obtain ⟨is, t, hi⟩ := (hroot _ rfl).reads hall hself (.nil _ _) hu
    obtain ⟨id, rfl⟩ := hi.eq_singleton
    refine ⟨(Entries.ofList declared).put (TypeName.pascal root) (some id), t,
      readDocument_eq_ok_iff.2 ⟨ds, ids, u, hd, hr.congr hback, ?_⟩⟩
    dsimp only
    rw [if_pos happ]
    exact ⟨id, hi.congr hback, rfl⟩
  · refine ⟨.ofList declared, u, readDocument_eq_ok_iff.2 ⟨ds, ids, u, hd, hr.congr hback, ?_⟩⟩
    dsimp only
    rw [if_neg happ]
    exact ⟨rfl, rfl⟩

end

/-! ## Names in batches -/

theorem Entries.get?_ofList_iff {α β : Type} [DecidableEq α] {ps : List (α × β)}
    (hn : (ps.map Prod.fst).Nodup) {k : α} {v : β} : (ofList ps).get? k = some v ↔ (k, v) ∈ ps := by
  refine ⟨mem_of_get?_ofList, fun h => ?_⟩
  rw [get?_ofList]
  refine lookup_of_mem ?_ (List.mem_reverse.2 h)
  rwa [List.map_reverse, (List.reverse_perm _).nodup_iff]

theorem Entries.exists_get?_ofList {α β : Type} [DecidableEq α] {ps : List (α × β)} {k : α} {v : β}
    (h : (k, v) ∈ ps) : ∃ w, (ofList ps).get? k = some w := by
  have hk : k ∈ (ofList ps).keys := mem_keys_ofList.2 (List.mem_map_of_mem h)
  obtain ⟨⟨_, w⟩, hw, rfl⟩ := List.mem_map.1 hk
  exact ⟨w, mem_toList_iff.1 hw⟩

theorem Session.nodes_sublist (s : Session) (ds : Definitions) :
    ((s.nodes ds).map Prod.fst).Sublist (ds.map Prod.fst) := by
  induction ds with
  | nil => exact .slnil
  | cons d rest ih =>
    cases hk : s.known.get? d.1 with
    | none =>
      rw [nodes, List.filterMap_cons, hk]
      exact ih.cons _
    | some id =>
      rw [nodes_cons hk]
      exact ih.cons_cons _

/-- If the type names of all definitions differ, each declared one is found under its own. -/
theorem Graph.get?_declared_iff {g : Graph} {s : Session} {ds : Definitions}
    (hn : (ds.map fun d => TypeName.pascal d.1).Nodup) {k : String} {v : Ref} :
    (Entries.ofList (g.declared (s.nodes ds))).get? k = some v ↔
      ∃ d ∈ s.nodes ds, g.declares (s.nodes ds) d = true ∧ TypeName.pascal d.1 = k ∧ some d.2 = v := by
  have hkeys : ((g.declared (s.nodes ds)).map Prod.fst).Nodup := by
    rw [declared_eq, List.map_map]
    have hsub : (((s.nodes ds).filter (g.declares (s.nodes ds))).map Prod.fst).Sublist
        (ds.map Prod.fst) := (List.filter_sublist.map _).trans (s.nodes_sublist ds)
    have := hsub.map TypeName.pascal
    rw [List.map_map, List.map_map] at this
    exact this.nodup hn
  rw [Entries.get?_ofList_iff hkeys, declared_eq, List.mem_map]
  simp only [List.mem_filter, Prod.mk.injEq, and_assoc]

/-- Two nodes of one definition, or of the root, in two readings. -/
def SameNode (s s' : Session) (rootId rootId' : Option NodeId) (v v' : Ref) : Prop :=
  ∃ key i j, v = some i ∧ v' = some j ∧ s.nodeAt rootId key = some i ∧ s'.nodeAt rootId' key = some j

namespace Complete

variable {definitions : Definitions} {root : Option Outline} {rootId rootId' : Option NodeId}
  {own own' : Option String → List NodeId} {s s' : Session} {ds ds' : Definitions} {i j : NodeId}

theorem exists_nodeAt (C : Complete definitions root rootId own s)
    (C' : Complete definitions root rootId' own' s') {key : Option String}
    (hi : s.nodeAt rootId key = some i) : ∃ j, s'.nodeAt rootId' key = some j := by
  cases ho : definitions.outlineAt root key with
  | none => cases hi.symm.trans (C.unread key ho).1
  | some o =>
    obtain ⟨j, _, hj, -⟩ := C'.built key o ho
    exact ⟨j, hj⟩

/-- The nodes of one definition, and those of the root, are twins. -/
theorem twin_nodeAt (C : Complete definitions root rootId own s)
    (C' : Complete definitions root rootId' own' s') {key : Option String}
    (hi : s.nodeAt rootId key = some i) (hj : s'.nodeAt rootId' key = some j) : Twin own own' i j := by
  cases key with
  | none =>
    cases hi
    cases hj
    exact C.twin_root C'
  | some name => exact C.twin_known C' hi hj

theorem owned_of_owned (C : Complete definitions root rootId own s)
    (C' : Complete definitions root rootId' own' s') (hmem : ∀ d, d ∈ ds → d ∈ ds')
    (hij : Twin own own' i j) (h : i ∈ ((s.nodes ds).filter s.graph.isOwn).map Prod.snd) :
    j ∈ ((s'.nodes ds').filter s'.graph.isOwn).map Prod.snd := by
  obtain ⟨⟨name, i⟩, hd, rfl⟩ := List.mem_map.1 h
  obtain ⟨hd, hown⟩ := List.mem_filter.1 hd
  obtain ⟨⟨body, hbody⟩, hk⟩ := Session.mem_nodes.1 hd
  have hn : s.nodeAt rootId (some name) = some i := hk
  obtain ⟨k, hk'⟩ := C.exists_nodeAt C' hn
  have hik := C.twin_nodeAt C' hn hk'
  cases C.twin_unique C' hij hik
  refine List.mem_map.2 ⟨(name, j), List.mem_filter.2 ⟨?_, ?_⟩, rfl⟩
  · exact Session.mem_nodes.2 ⟨⟨body, hmem _ hbody⟩, hk'⟩
  · rw [← (C.alike C' hij).isOwn_eq]
    exact hown

/-- A definition that is declared in one reading is declared in the other. -/
theorem declares_eq (C : Complete definitions root rootId own s)
    (C' : Complete definitions root rootId' own' s') (hmem : ∀ d, d ∈ ds ↔ d ∈ ds') {name : String}
    (hi : s.known.get? name = some i) (hj : s'.known.get? name = some j) :
    s.graph.declares (s.nodes ds) (name, i) = s'.graph.declares (s'.nodes ds') (name, j) := by
  have hij := C.twin_known C' hi hj
  have hown : (((s.nodes ds).filter s.graph.isOwn).map Prod.snd).contains i =
      (((s'.nodes ds').filter s'.graph.isOwn).map Prod.snd).contains j := by
    rw [Bool.eq_iff_iff, List.contains_iff_mem, List.contains_iff_mem]
    exact ⟨C.owned_of_owned C' (fun d => (hmem d).1) hij,
      C'.owned_of_owned C (fun d => (hmem d).2) hij.symm⟩
  rw [Graph.declares, Graph.declares, hown, (C.alike C' hij).isOwn_eq,
    (C.alike C' hij).isDeclarable_eq fun a b hab => (C.alike C' hab).isObject_eq]

theorem get?_batch (C : Complete definitions root rootId own s)
    (C' : Complete definitions root rootId' own' s') (hmem : ∀ d, d ∈ ds ↔ d ∈ ds')
    (hn : (ds.map fun d => TypeName.pascal d.1).Nodup)
    (hn' : (ds'.map fun d => TypeName.pascal d.1).Nodup) {name k : String} {v : Ref}
    (h : (s.graph.batch (s.nodes ds) name rootId).get? k = some v) :
    ∃ v', (s'.graph.batch (s'.nodes ds') name rootId').get? k = some v' ∧
      SameNode s s' rootId rootId' v v' := by
  have hdeclared : (Entries.ofList (s.graph.declared (s.nodes ds))).get? k = some v →
      ∃ v', (Entries.ofList (s'.graph.declared (s'.nodes ds'))).get? k = some v' ∧
        SameNode s s' rootId rootId' v v' := by
    intro h
    obtain ⟨⟨other, i⟩, hd, hdec, rfl, rfl⟩ := (Graph.get?_declared_iff hn).1 h
    obtain ⟨⟨body, hbody⟩, hi⟩ := Session.mem_nodes.1 hd
    have hi' : s.nodeAt rootId (some other) = some i := hi
    obtain ⟨j, hj⟩ := C.exists_nodeAt C' hi'
    refine ⟨some j, (Graph.get?_declared_iff hn').2 ⟨(other, j), ?_, ?_, rfl, rfl⟩,
      some other, i, j, rfl, rfl, hi, hj⟩
    · exact Session.mem_nodes.2 ⟨⟨body, (hmem _).1 hbody⟩, hj⟩
    · rw [← C.declares_eq C' hmem hi hj]
      exact hdec
  cases hi : rootId with
  | none =>
    cases hj : rootId' with
    | none =>
      subst hi hj
      exact hdeclared h
    | some j =>
      have hj' : s'.nodeAt rootId' none = some j := hj
      obtain ⟨i, hi'⟩ := C'.exists_nodeAt C hj'
      cases hi.symm.trans hi'
  | some i =>
    have hi' : s.nodeAt rootId none = some i := hi
    obtain ⟨j, hj⟩ := C.exists_nodeAt C' hi'
    cases hi
    cases hj
    rw [Graph.batch, Entries.get?_put] at h
    rw [Graph.batch, Entries.get?_put]
    split at h <;> rename_i hk
    · cases h
      exact ⟨some j, if_pos hk, none, i, j, rfl, rfl, rfl, rfl⟩
    · rw [if_neg hk]
      exact hdeclared h

end Complete

/-! ## Names of nodes -/

/-- The registry of a batch when no name is given beforehand. -/
def Batch.registry (batch : Batch) : Registry :=
  (∅ : Registry).update (batch.toList.map fun (name, r) => (r, some name))

/-- No node has two names, unless one of them is the root's own, which no definition has. -/
def Batch.Apart (batch : Batch) (definitions : Definitions) (root : String) : Prop :=
  ∀ k l v, batch.get? k = some v → batch.get? l = some v → k ≠ l →
    (k = TypeName.pascal root ∨ l = TypeName.pascal root) ∧
      ∀ d ∈ definitions, TypeName.pascal d.1 ≠ TypeName.pascal root

namespace Batch

variable {batch : Batch} {k : String} {v : Ref}

theorem apart_of_nodup (h : batch.values.Nodup) (definitions : Definitions) (root : String) :
    batch.Apart definitions root := by
  intro k l v hk hl hne
  have he := List.inj_on_of_nodup_map h (Entries.mem_toList_iff.2 hk) (Entries.mem_toList_iff.2 hl)
    rfl
  exact absurd (Prod.ext_iff.1 he).1 hne

theorem get?_registry : batch.registry.get? v =
    ((Entries.ofList (batch.toList.map fun p => (p.2, some p.1))).get? v).join := rfl

theorem get?_of_registry (h : batch.registry.get? v = some k) : batch.get? k = some v := by
  rw [get?_registry, Option.join_eq_some_iff] at h
  obtain ⟨⟨name, r⟩, hp, hv⟩ := List.mem_map.1 (Entries.mem_of_get?_ofList h)
  cases hv
  exact Entries.mem_toList_iff.1 hp

theorem exists_registry (h : batch.get? k = some v) : ∃ l, batch.registry.get? v = some l := by
  have hmem : (v, some k) ∈ batch.toList.map fun p => (p.2, some p.1) :=
    List.mem_map.2 ⟨(k, v), Entries.mem_toList_iff.2 h, rfl⟩
  obtain ⟨name, hname⟩ := Entries.exists_get?_ofList hmem
  obtain ⟨⟨l, r⟩, -, hv⟩ := List.mem_map.1 (Entries.mem_of_get?_ofList hname)
  cases hv
  exact ⟨l, by rw [get?_registry, hname]; rfl⟩

theorem get?_registry_put (h : k ∉ batch.keys) :
    (Batch.registry (batch.put k v)).get? v = some k := by
  rw [get?_registry, Entries.toList_put_of_notMem h, List.map_append, Entries.ofList,
    Entries.putAll_append]
  exact congrArg Option.join (Entries.get?_put_self _ v (some k))

end Batch

/-- The name under which a node is registered: the root's, if it has that one, else its only one. -/
theorem Graph.get?_registry_batch {g : Graph} {s : Session} {ds : Definitions} {root k : String}
    {rootId : Option NodeId} {v : Ref} (hn : (ds.map fun d => TypeName.pascal d.1).Nodup)
    (ha : (g.batch (s.nodes ds) root rootId).Apart ds root) :
    (g.batch (s.nodes ds) root rootId).registry.get? v = some k ↔
      (g.batch (s.nodes ds) root rootId).get? k = some v ∧ (k = TypeName.pascal root ∨
        (g.batch (s.nodes ds) root rootId).get? (TypeName.pascal root) ≠ some v) := by
  have hroot : (∀ d ∈ ds, TypeName.pascal d.1 ≠ TypeName.pascal root) →
      (g.batch (s.nodes ds) root rootId).get? (TypeName.pascal root) = some v →
        (g.batch (s.nodes ds) root rootId).registry.get? v = some (TypeName.pascal root) := by
    intro hfree hv
    have hnone : ∀ v,
        (Entries.ofList (g.declared (s.nodes ds))).get? (TypeName.pascal root) ≠ some v := by
      intro v hv
      obtain ⟨d, hd, -, hp, -⟩ := (Graph.get?_declared_iff hn).1 hv
      obtain ⟨⟨body, hbody⟩, -⟩ := Session.mem_nodes.1 hd
      exact hfree _ hbody hp
    cases rootId with
    | none => exact absurd hv (hnone v)
    | some id =>
      rw [Graph.batch, Entries.get?_put_self] at hv
      cases hv
      refine Batch.get?_registry_put fun hmem => ?_
      obtain ⟨⟨key, r⟩, hr, hkey⟩ := List.mem_map.1 hmem
      cases hkey
      exact hnone r (Entries.mem_toList_iff.1 hr)
  constructor
  · intro h
    refine ⟨Batch.get?_of_registry h, or_iff_not_imp_left.2 fun hk hv => hk ?_⟩
    have hfree := (ha _ _ v (Batch.get?_of_registry h) hv hk).2
    exact Option.some.inj (h.symm.trans (hroot hfree hv))
  · rintro ⟨hk, hlast⟩
    obtain ⟨l, hl⟩ := Batch.exists_registry hk
    by_cases he : l = k
    · rw [hl, he]
    · obtain ⟨hname, hfree⟩ := ha _ _ v (Batch.get?_of_registry hl) hk he
      have hv : (g.batch (s.nodes ds) root rootId).get? (TypeName.pascal root) = some v := by
        rcases hname with rfl | rfl
        · exact Batch.get?_of_registry hl
        · exact hk
      rcases hlast with rfl | hlast
      · exact hroot hfree hv
      · exact absurd hv hlast

end ShapeSdl
