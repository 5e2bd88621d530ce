import ShapeSdl.Proofs.Guards
import ShapeSdl.Proofs.Merge

/-!
# Links lead to older nodes

A node is made when all that it refers to has been read, so it refers to older nodes. The one
exception is the object of a plain object definition: it gets its node before its fields.

* `Graph.links` : the nodes that a node refers to;
* `Session.Ordered definitions first s` : the nodes from `first` on refer to each other only, and
  each to older ones, unless it is the object of a plain object definition (`Reads.ordered`);
* `Session.Ordered.circle` : so every circle passes through such an object;
* `Session.Ordered.steps` : every step of a walk through wrappers and lists leads to an older node.
-/

namespace ShapeSdl

/-! ## Links -/

def Shape.links : Shape → List Ref
  | wrapper _ inner _ => [inner]
  | list element => [element]
  | union variants => variants
  | object fields => fields.values
  | scalar .. | enumeration _ | literal _ | bare => []

namespace Graph

variable {g : Graph} {r next : Ref}

def links (g : Graph) (r : Ref) : List Ref :=
  match g.shape? r with
  | some shape => shape.links
  | none => []

theorem links_of_shape? {shape : Shape} (h : g.shape? r = some shape) : g.links r = shape.links := by
  rw [links, h]

theorem links_of_size_le {id : NodeId} (h : g.size ≤ id) : g.links (some id) = [] := by
  rw [links, shape?, node?, Array.getElem?_eq_none h]
  rfl

theorem values_fields_subset (g : Graph) (r : Ref) : (g.fields r).values ⊆ g.links r := by
  unfold fields links
  cases g.shape? r with
  | none => exact List.nil_subset _
  | some shape =>
    cases shape with
    | object fields => exact List.Subset.refl _
    | _ => exact List.nil_subset _

theorem exists_mem_links_of_merged {ids : List NodeId} (h : r ∈ (g.merged ids).values) :
    ∃ id ∈ ids, r ∈ g.links (some id) := by
  obtain ⟨⟨k, _⟩, hk, rfl⟩ := List.mem_map.1 h
  obtain ⟨id, hid, hget⟩ := exists_of_get?_merged (Entries.mem_toList_iff.1 hk)
  have hv := List.mem_map_of_mem (f := Prod.snd) (Entries.mem_toList_iff.2 hget)
  exact ⟨id, hid, g.values_fields_subset _ hv⟩

/-- A step of a walk follows a link. -/
theorem mem_links_of_next? {named : Ref → Bool} (h : g.next? named r = some next) :
    next ∈ g.links r := by
  unfold next? at h
  unfold links
  cases hs : g.shape? r with
  | none => rw [hs] at h; cases h
  | some shape =>
    rw [hs] at h
    cases shape with
    | wrapper => cases h; exact List.mem_singleton_self _
    | list element =>
      dsimp only at h
      split at h
      · cases h
      · cases h; exact List.mem_singleton_self _
    | _ => cases h

theorem next?_of_isObject {named : Ref → Bool} (h : g.isObject r = true) :
    g.next? named r = none := by
  obtain ⟨fields, hs⟩ := isObject_iff.1 h
  rw [next?, hs]

end Graph

theorem Outline.values_fieldRefs_subset (fields : List (String × Outline)) (ids : List NodeId) :
    (fieldRefs fields ids).values ⊆ ids.map some := by
  intro v hv
  obtain ⟨⟨k, _⟩, hk, rfl⟩ := List.mem_map.1 hv
  exact (List.of_mem_zip (Entries.mem_of_get?_ofList (Entries.mem_toList_iff.1 hk))).2

theorem Graph.Grows.isObject_of {g h : Graph} (hg : g.Grows h) {id : NodeId}
    (ho : g.isObject (some id) = true) : h.isObject (some id) = true := by
  have hlt : id < g.size := by
    by_contra hle
    obtain ⟨fields, hs⟩ := Graph.isObject_iff.1 ho
    rw [Graph.shape?, Graph.node?, Array.getElem?_eq_none (Nat.le_of_not_lt hle)] at hs
    cases hs
  rwa [hg.isObject hlt]

/-! ## The order in which nodes are made -/

def Session.IsPlainNode (definitions : Definitions) (s : Session) (id : NodeId) : Prop :=
  s.graph.isObject (some id) = true ∧ ∃ name, definitions.IsPlain name ∧ s.known.get? name = some id

/-- A reference to one of the nodes of the session from `first` on. -/
def Session.Within (first : NodeId) (s : Session) (r : Ref) : Prop :=
  ∃ id, r = some id ∧ first ≤ id ∧ id < s.graph.size

/-- The nodes from `first` on refer to each other only. Each refers to older ones, unless it is the
object of a plain object definition. -/
structure Session.Ordered (definitions : Definitions) (first : NodeId) (s : Session) : Prop where
  size_le : first ≤ s.graph.size
  known : ∀ name id, s.known.get? name = some id → first ≤ id
  within : ∀ id, first ≤ id → ∀ r ∈ s.graph.links (some id), s.Within first r
  older : ∀ id, first ≤ id → ¬ s.IsPlainNode definitions id →
    ∀ next, some next ∈ s.graph.links (some id) → next < id

namespace Session

variable {definitions : Definitions} {first : NodeId} {s t : Session}

theorem Within.mono {r : Ref} (h : s.Within first r) (hsize : s.graph.size ≤ t.graph.size) :
    t.Within first r := by
  obtain ⟨id, rfl, hfirst, hid⟩ := h
  exact ⟨id, rfl, hfirst, Nat.lt_of_lt_of_le hid hsize⟩

theorem within_map_some {ids : List NodeId} (hfirst : ∀ id ∈ ids, first ≤ id)
    (hlt : ∀ id ∈ ids, id < s.graph.size) : ∀ r ∈ ids.map some, s.Within first r := by
  intro r hr
  obtain ⟨id, hid, rfl⟩ := List.mem_map.1 hr
  exact ⟨id, rfl, hfirst id hid, hlt id hid⟩

theorem IsPlainNode.mono {id : NodeId} (h : s.IsPlainNode definitions id)
    (hobject : s.graph.isObject (some id) = true → t.graph.isObject (some id) = true)
    (hk : ∀ name id, s.known.get? name = some id → t.known.get? name = some id) :
    t.IsPlainNode definitions id := by
  obtain ⟨ho, name, hplain, hname⟩ := h
  exact ⟨hobject ho, name, hplain, hk _ _ hname⟩

theorem links_add_self (s : Session) (n : Node) :
    (s.add n).graph.links (some s.graph.size) = n.shape.links :=
  Graph.links_of_shape? (congrArg (Option.map Node.shape) (s.node?_add_self n))

theorem links_add_of_ne (s : Session) (n : Node) {id : NodeId} (h : id ≠ s.graph.size) :
    (s.add n).graph.links (some id) = s.graph.links (some id) := by
  rw [Graph.links, Graph.links, Graph.shape?, Graph.shape?, add, Graph.node?_add, if_neg h]

theorem mem_links_closeObject {id : NodeId} {fields : Entries String Ref} {r : Ref}
    (h : r ∈ (s.closeObject id fields).graph.links (some id)) : r ∈ fields.values := by
  unfold Graph.links at h
  split at h
  · rename_i shape hs
    rw [Graph.shape?, closeObject, Graph.node?_setShape_self, Option.map_map] at hs
    obtain ⟨n, -, rfl⟩ := Option.map_eq_some_iff.1 hs
    exact h
  · cases h

theorem links_closeObject_of_ne (s : Session) {id j : NodeId} (fields : Entries String Ref)
    (h : j ≠ id) :
    (s.closeObject id fields).graph.links (some j) = s.graph.links (some j) := by
  rw [Graph.links, Graph.links, shape?_closeObject_of_ne _ _ h]

namespace Ordered

theorem begin (definitions : Definitions) (s : Session) :
    s.begin.Ordered definitions s.graph.size where
  size_le := Nat.le_refl _
  known := nofun
  within id hid r hr := by
    rw [Graph.links_of_size_le (g := s.begin.graph) hid] at hr
    cases hr
  older id hid _ next hnext := by
    rw [Graph.links_of_size_le (g := s.begin.graph) hid] at hnext
    cases hnext

/-- A new node may refer to all nodes from `first` on: they are older. -/
theorem add (h : s.Ordered definitions first) {n : Node}
    (hn : ∀ r ∈ n.shape.links, s.Within first r) : (s.add n).Ordered definitions first := by
  have hg := s.grows_add n
  refine ⟨Nat.le_trans h.size_le hg.size_le, h.known, fun id hid r hr => ?_,
    fun id hid hplain next hnext => ?_⟩
  · by_cases he : id = s.graph.size
    · subst he
      rw [links_add_self] at hr
      exact (hn r hr).mono hg.size_le
    · rw [links_add_of_ne s n he] at hr
      exact (h.within id hid r hr).mono hg.size_le
  · by_cases he : id = s.graph.size
    · subst he
      rw [links_add_self] at hnext
      obtain ⟨_, ⟨⟩, -, hlt⟩ := hn _ hnext
      exact hlt
    · rw [links_add_of_ne s n he] at hnext
      exact h.older id hid (fun hp => hplain (hp.mono hg.isObject_of hg.known)) next hnext

theorem remember (h : s.Ordered definitions first) {name : String} {id : NodeId}
    (hu : s.known.get? name = none) (hid : first ≤ id) :
    (s.remember name id).Ordered definitions first := by
  have hg := grows_remember hu id
  refine ⟨h.size_le, fun other i hi => ?_, h.within, fun i hi hplain => ?_⟩
  · rw [Session.remember, Entries.get?_put] at hi
    split at hi
    · cases hi
      exact hid
    · exact h.known other i hi
  · exact h.older i hi fun hp => hplain (hp.mono (fun ho => ho) hg.known)

theorem openObject (h : s.Ordered definitions first) {name : String}
    (hu : s.known.get? name = none) (path : String) (metadata : List (String × Json)) :
    ((s.enter name).openObject name path metadata).Ordered definitions first := by
  have hn := h.add (n := ⟨path, metadata, .object ∅⟩) nofun
  have hr := hn.remember hu h.size_le
  exact ⟨hr.size_le, hr.known, hr.within, hr.older⟩

/-- The object that gets its fields is that of a plain object definition, so they may be younger. -/
theorem closeObject (h : s.Ordered definitions first) {id : NodeId} {fields : Entries String Ref}
    (hplain : s.IsPlainNode definitions id) (hf : ∀ r ∈ fields.values, s.Within first r) :
    (s.closeObject id fields).Ordered definitions first := by
  have hmono : ∀ {i}, s.IsPlainNode definitions i →
      (s.closeObject id fields).IsPlainNode definitions i :=
    fun hp => hp.mono (isObject_closeObject fields) fun _ _ hk => hk
  have hsize : s.graph.size ≤ (s.closeObject id fields).graph.size :=
    Nat.le_of_eq (size_closeObject s id fields).symm
  refine ⟨Nat.le_trans h.size_le hsize, h.known, fun i hi r hr => ?_,
    fun i hi hnot next hnext => ?_⟩
  · by_cases he : i = id
    · subst he
      exact (hf r (mem_links_closeObject hr)).mono hsize
    · rw [links_closeObject_of_ne s fields he] at hr
      exact (h.within i hi r hr).mono hsize
  · by_cases he : i = id
    · subst he
      exact absurd (hmono hplain) hnot
    · rw [links_closeObject_of_ne s fields he] at hnext
      exact h.older i hi (fun hp => hnot (hmono hp)) next hnext

end Ordered

end Session

/-- Reading keeps the order, and gives nodes from `first` on. -/
theorem Reads.ordered {definitions : Definitions} {stack : List String} {task : Task}
    {s t : Session} {ids : List NodeId} {first : NodeId}
    (h : Reads definitions stack task s ids t) (hs : s.Sane) (ho : s.Ordered definitions first) :
    t.Ordered definitions first ∧ ∀ id ∈ ids, first ≤ id := by
  induction h with
  | @leaf _ s n hleaf =>
    have hlinks : n.shape.links = [] := by
      cases hn : n.shape <;> first | rfl | (rw [hn] at hleaf; cases hleaf)
    exact ⟨ho.add (by rw [hlinks]; nofun), List.forall_mem_singleton.2 ho.size_le⟩
  | @wrapper _ s t _ _ _ _ id inside ih | @list _ s t _ _ _ id inside ih =>
    obtain ⟨ht, hfirst⟩ := ih hs ho
    have hin := Session.within_map_some hfirst (inside.grows hs).2.2
    exact ⟨ht.add hin, List.forall_mem_singleton.2 ht.size_le⟩
  | union inside ih =>
    obtain ⟨ht, hfirst⟩ := ih hs ho
    have hin := Session.within_map_some hfirst (inside.grows hs).2.2
    exact ⟨ht.add hin, List.forall_mem_singleton.2 ht.size_le⟩
  | @object _ s t _ _ fields ids inside ih =>
    obtain ⟨ht, hfirst⟩ := ih hs ho
    have hin := Session.within_map_some hfirst (inside.grows hs).2.2
    refine ⟨ht.add fun r hr => hin r ?_, List.forall_mem_singleton.2 ht.size_le⟩
    exact Outline.values_fieldRefs_subset fields ids hr
  | @merge _ s t path metadata _ ids inside _ ih =>
    obtain ⟨ht, hfirst⟩ := ih hs ho
    have hfields : ∀ r ∈ (t.graph.merged ids).values, t.Within first r := by
      intro r hr
      obtain ⟨id, hid, hlink⟩ := Graph.exists_mem_links_of_merged hr
      exact ht.within id (hfirst id hid) r hlink
    have ha := ht.add (n := ⟨path, metadata, .object (t.graph.merged ids)⟩) hfields
    exact ⟨⟨ha.size_le, ha.known, ha.within, ha.older⟩, List.forall_mem_singleton.2 ht.size_le⟩
  | reference _ _ _ ih => exact ih hs ho
  | known hk => exact ⟨ho, List.forall_mem_singleton.2 (ho.known _ _ hk)⟩
  | @plain stack s t name body path metadata fields ids hu hfree hd hp hout inside ih =>
    have hso := Session.sane_openObject (s := s.enter name) hs name path metadata
    obtain ⟨ht, hfirst⟩ := ih hso (ho.openObject hu path metadata)
    have hg := (inside.grows hso).1
    have hin := Session.within_map_some hfirst (inside.grows hso).2.2
    have hplain : t.IsPlainNode definitions s.graph.size := by
      refine ⟨hg.isObject_of ?_, name, ⟨body, hd, hp⟩, hg.known _ _ (Entries.get?_put_self ..)⟩
      exact congrArg (fun shape => (shape.map Shape.isObject).getD false)
        (congrArg (Option.map Node.shape) (s.node?_add_self ⟨path, metadata, .object ∅⟩))
    refine ⟨ht.closeObject hplain fun r hr => hin r ?_, List.forall_mem_singleton.2 ho.size_le⟩
    exact Outline.values_fieldRefs_subset fields ids hr
  | @other _ s t name body id hu _ _ _ inside ih =>
    obtain ⟨ht, hfirst⟩ := ih hs ⟨ho.size_le, ho.known, ho.within, ho.older⟩
    have hun := inside.unknown_of_mem List.mem_cons_self hu
    exact ⟨ht.remember hun (hfirst id (List.mem_singleton_self _)), hfirst⟩
  | nil => exact ⟨ho, nofun⟩
  | cons first _ ih₁ ih₂ =>
    obtain ⟨h₁, hfirst⟩ := ih₁ hs ho
    obtain ⟨h₂, hrest⟩ := ih₂ (first.sane hs) h₁
    exact ⟨h₂, List.forall_mem_cons.2 ⟨hfirst _ (List.mem_singleton_self _), hrest⟩⟩

namespace Session.Ordered

variable {definitions : Definitions} {first : NodeId} {s : Session}

/-! ## Circles -/

/-- Links that do not leave the object of a plain object definition lead to older nodes, so many of
them as there may be. -/
theorem lt_of_isChain (h : s.Ordered definitions first) : ∀ {rest : List NodeId} {id last : NodeId},
    first ≤ id → (∀ i ∈ id :: rest, ¬ s.IsPlainNode definitions i) →
    List.IsChain (fun i j => some j ∈ s.graph.links (some i)) (id :: rest ++ [last]) → last < id
  | [], id, last, hid, hplain, hchain => by
    have hlink := (List.isChain_cons_cons.1 hchain).1
    exact h.older id hid (hplain id List.mem_cons_self) last hlink
  | i :: rest, id, last, hid, hplain, hchain => by
    obtain ⟨hlink, hchain⟩ := List.isChain_cons_cons.1 hchain
    obtain ⟨hhere, hrest⟩ := List.forall_mem_cons.1 hplain
    obtain ⟨_, ⟨⟩, hi, -⟩ := h.within id hid _ hlink
    exact Nat.lt_trans (h.lt_of_isChain hi hrest hchain) (h.older id hid hhere i hlink)

/-- Every circle passes through the object of a plain object definition. -/
theorem circle (h : s.Ordered definitions first) {id : NodeId} {rest : List NodeId}
    (hid : first ≤ id)
    (hchain : List.IsChain (fun i j => some j ∈ s.graph.links (some i)) (id :: rest ++ [id])) :
    ∃ i ∈ id :: rest, s.IsPlainNode definitions i := by
  by_contra hnone
  exact Nat.lt_irrefl id (h.lt_of_isChain hid (fun i hi hp => hnone ⟨i, hi, hp⟩) hchain)

/-! ## Walks -/

theorem steps (h : s.Ordered definitions first) {named : Ref → Bool} {n : Nat} {id : NodeId}
    {e : Ref} (hid : first ≤ id) (hs : Steps (s.graph.next? named) n (some id) e) :
    ∃ i, e = some i ∧ first ≤ i ∧ i + n ≤ id := by
  generalize hr : some id = r at hs
  induction hs generalizing id with
  | here =>
    subst hr
    exact ⟨id, rfl, hid, Nat.le_refl _⟩
  | @step n r m e goes _ ih =>
    subst hr
    have hlink := Graph.mem_links_of_next? goes
    obtain ⟨i, rfl, hi, -⟩ := h.within id hid m hlink
    have hnot : ¬ s.IsPlainNode definitions id := by
      rintro ⟨ho, -⟩
      rw [Graph.next?_of_isObject ho] at goes
      cases goes
    have hlt := h.older id hid hnot i hlink
    obtain ⟨j, rfl, hj, hle⟩ := ih hi rfl
    exact ⟨j, rfl, hj, Nat.lt_of_le_of_lt hle hlt⟩

theorem not_circle (h : s.Ordered definitions first) {named : Ref → Bool} {n k : Nat} {id : NodeId}
    {e : Ref} (hid : first ≤ id) (hs : Steps (s.graph.next? named) n (some id) e) :
    ¬ Steps (s.graph.next? named) (k + 1) e e := by
  intro hc
  obtain ⟨i, rfl, hi, -⟩ := h.steps hid hs
  obtain ⟨_, ⟨⟩, -, hle⟩ := h.steps hi hc
  exact absurd hle (Nat.not_le_of_gt (Nat.lt_add_of_pos_right (Nat.succ_pos k)))

end Session.Ordered

end ShapeSdl
