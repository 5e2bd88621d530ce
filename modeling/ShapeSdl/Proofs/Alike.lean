import ShapeSdl.Proofs.Merge
import Mathlib.Data.List.Forall2

/-!
# Nodes built alike

Two sessions that have read the same outline have built it alike: node by node, in the order in which
the nodes were made.

* `Entries.Related` : entries with the same keys in the same order, and related values;
* `Graph.Alike` : two nodes with the same place, and shapes that refer to related nodes;
* `Origin` : the fields of two objects are related, or they were merged from related parts;
* `Built.length_eq`, `Built.alike` : what is built of one task, twice.
-/

namespace ShapeSdl

/-! ## Related entries -/

/-- Entries with the same keys in the same order, and related values. -/
def Entries.Related {α β γ : Type} (V : β → γ → Prop) (e : Entries α β) (f : Entries α γ) : Prop :=
  List.Forall₂ (fun p q => p.1 = q.1 ∧ V p.2 q.2) e.toList f.toList

namespace Entries

variable {α β γ : Type} {V W : β → γ → Prop} {e : Entries α β} {f : Entries α γ}

theorem Related.empty : Related V (∅ : Entries α β) (∅ : Entries α γ) := .nil

theorem Related.imp (h : Related V e f) (hvw : ∀ v w, V v w → W v w) : Related W e f :=
  List.Forall₂.imp (fun _ _ h => ⟨h.1, hvw _ _ h.2⟩) h

variable [DecidableEq α]

section
variable {R : α × β → α × γ → Prop} {ps : List (α × β)} {qs : List (α × γ)}

theorem forall₂_putPair (hr : ∀ p q, R p q → p.1 = q.1) (h : List.Forall₂ R ps qs) {k : α} {v : β}
    {w : γ} (hv : R (k, v) (k, w)) : List.Forall₂ R (putPair k v ps) (putPair k w qs) := by
  induction h with
  | nil => exact .cons hv .nil
  | @cons p q _ _ hp hrest ih =>
    obtain ⟨k', v'⟩ := p
    obtain ⟨k'', w'⟩ := q
    cases hr _ _ hp
    unfold putPair
    split
    · exact .cons hv hrest
    · exact .cons hp ih

theorem forall₂_putAll (hr : ∀ p q, R p q → p.1 = q.1) (h : List.Forall₂ R e.toList f.toList)
    (hp : List.Forall₂ R ps qs) : List.Forall₂ R (e.putAll ps).toList (f.putAll qs).toList := by
  induction hp generalizing e f with
  | nil => exact h
  | @cons p q _ _ hfirst _ ih =>
    obtain ⟨k, v⟩ := p
    obtain ⟨k', w⟩ := q
    cases hr _ _ hfirst
    rw [putAll_cons, putAll_cons]
    exact ih (forall₂_putPair hr h hfirst)

end

theorem Related.putAll (h : Related V e f) {ps : List (α × β)} {qs : List (α × γ)}
    (hp : List.Forall₂ (fun p q => p.1 = q.1 ∧ V p.2 q.2) ps qs) :
    Related V (e.putAll ps) (f.putAll qs) := forall₂_putAll (fun _ _ h => h.1) h hp

end Entries

inductive Ref.Rel (R : NodeId → NodeId → Prop) : Ref → Ref → Prop
  | some {i j : NodeId} (related : R i j) : Rel R (some i) (some j)

theorem Outline.related_fieldRefs {R : NodeId → NodeId → Prop} (fields : List (String × Outline))
    {is js : List NodeId} (h : List.Forall₂ R is js) :
    Entries.Related (Ref.Rel R) (fieldRefs fields is) (fieldRefs fields js) := by
  apply Entries.Related.empty.putAll
  induction h generalizing fields with
  | nil => simp
  | cons hij _ ih =>
    cases fields with
    | nil => exact .nil
    | cons field rest => exact .cons ⟨rfl, .some hij⟩ (ih rest)

theorem Graph.related_merged {V : Ref → Ref → Prop} {g h : Graph} {is js : List NodeId}
    (hall : List.Forall₂ (fun i j => Entries.Related V (g.fields (some i)) (h.fields (some j))) is js) :
    Entries.Related V (g.merged is) (h.merged js) := by
  have key : ∀ {e f : Entries String Ref}, Entries.Related V e f →
      Entries.Related V (g.mergedOver e is) (h.mergedOver f js) := by
    induction hall with
    | nil => exact id
    | cons hij _ ih => exact fun he => ih (he.putAll hij)
  exact key .empty

/-! ## Nodes that are alike -/

/-- Shapes that refer to nodes related by `R`, the fields of objects being related by `F`. -/
inductive Shape.Alike (R : NodeId → NodeId → Prop)
    (F : Entries String Ref → Entries String Ref → Prop) : Shape → Shape → Prop
  | leaf {shape : Shape} (isLeaf : shape.isLeaf = true) : Alike R F shape shape
  | wrapper {i j kind value} (inside : R i j) :
      Alike R F (.wrapper kind (some i) value) (.wrapper kind (some j) value)
  | list {i j} (inside : R i j) : Alike R F (.list (some i)) (.list (some j))
  | union {is js} (inside : List.Forall₂ R is js) :
      Alike R F (.union (is.map some)) (.union (js.map some))
  | object {fields fields'} (inside : F fields fields') : Alike R F (.object fields) (.object fields')

theorem Shape.Alike.imp {R S : NodeId → NodeId → Prop}
    {F G : Entries String Ref → Entries String Ref → Prop} {a b : Shape} (h : a.Alike R F b)
    (hrs : ∀ i j, R i j → S i j) (hfg : ∀ e f, F e f → G e f) : a.Alike S G b := by
  cases h with
  | leaf isLeaf => exact .leaf isLeaf
  | wrapper inside => exact .wrapper (hrs _ _ inside)
  | list inside => exact .list (hrs _ _ inside)
  | union inside => exact .union (inside.imp hrs)
  | object inside => exact .object (hfg _ _ inside)

/-- Two nodes with the same place and alike shapes. -/
def Graph.Alike (R : NodeId → NodeId → Prop) (F : Entries String Ref → Entries String Ref → Prop)
    (g h : Graph) (i j : NodeId) : Prop :=
  ∃ path metadata a b, g.node? (some i) = some ⟨path, metadata, a⟩ ∧
    h.node? (some j) = some ⟨path, metadata, b⟩ ∧ a.Alike R F b

theorem Graph.Alike.imp {R S : NodeId → NodeId → Prop}
    {F G : Entries String Ref → Entries String Ref → Prop} {g h : Graph} {i j : NodeId}
    (hij : g.Alike R F h i j) (hrs : ∀ i j, R i j → S i j) (hfg : ∀ e f, F e f → G e f) :
    g.Alike S G h i j := by
  obtain ⟨path, metadata, a, b, ha, hb, hab⟩ := hij
  exact ⟨path, metadata, a, b, ha, hb, hab.imp hrs hfg⟩

namespace Graph.Alike

variable {R : NodeId → NodeId → Prop} {F : Entries String Ref → Entries String Ref → Prop}
  {g h : Graph} {i j : NodeId}

theorem isObject_eq (hij : g.Alike R F h i j) : g.isObject (some i) = h.isObject (some j) := by
  obtain ⟨path, metadata, a, b, ha, hb, hab⟩ := hij
  rw [isObject, shape?, ha, isObject, shape?, hb]
  cases hab <;> rfl

theorem kindName_eq (hij : g.Alike R F h i j) : g.kindName (some i) = h.kindName (some j) := by
  obtain ⟨path, metadata, a, b, ha, hb, hab⟩ := hij
  rw [kindName, shape?, ha, kindName, shape?, hb]
  cases hab <;> rfl

theorem isOwn_eq (hij : g.Alike R F h i j) (name : String) : g.isOwn (name, i) = h.isOwn (name, j) := by
  obtain ⟨path, metadata, a, b, ha, hb, -⟩ := hij
  rw [isOwn, ha, isOwn, hb]
  rfl

/-- If one of two alike nodes can be declared, so can the other. -/
theorem isDeclarable_eq (hij : g.Alike R F h i j)
    (hall : ∀ a b, R a b → g.isObject (some a) = h.isObject (some b)) :
    g.isDeclarable i = h.isDeclarable j := by
  obtain ⟨path, metadata, a, b, ha, hb, hab⟩ := hij
  rw [isDeclarable, shape?, ha, isDeclarable, shape?, hb]
  cases hab with
  | leaf isLeaf => cases a <;> first | rfl | cases isLeaf
  | @union is js inside =>
    have hv : (is.map some).all g.isObject = (js.map some).all h.isObject := by
      clear ha hb
      induction inside with
      | nil => rfl
      | cons hfirst _ ih => rw [List.map_cons, List.all_cons, hall _ _ hfirst, ih]; rfl
    have he : is.isEmpty = js.isEmpty := by cases inside <;> rfl
    simp only [Option.map_some, List.isEmpty_map, he, hv]
  | wrapper | list | object => rfl

end Graph.Alike

/-! ## Built twice -/

/-- Where the fields of two objects are from: they are related, or both objects were merged of
related parts. -/
inductive Origin (R : NodeId → NodeId → Prop) (s s' : Session) (unfinished unfinished' : List NodeId)
    (i j : NodeId) (fields fields' : Entries String Ref) : Prop
  | fields (related : Entries.Related (Ref.Rel R) fields fields')
  | merge {is js} (parts : List.Forall₂ R is js) (left : ⟨i, is, unfinished⟩ ∈ s.merges)
      (right : ⟨j, js, unfinished'⟩ ∈ s'.merges)

/-! Lists of nodes made in the same order. -/

section
variable {R : NodeId → NodeId → Prop} {l l' m m' : List NodeId} {P : NodeId → NodeId → Prop}

theorem forall₂_of_append (hl : l.length = l'.length) (h : List.Forall₂ R (l ++ m) (l' ++ m')) :
    List.Forall₂ R l l' ∧ List.Forall₂ R m m' := by
  rw [List.forall₂_iff_zip] at h
  obtain ⟨hlen, hall⟩ := h
  rw [List.zip_append hl] at hall
  rw [List.length_append, List.length_append, hl] at hlen
  exact ⟨List.forall₂_iff_zip.2 ⟨hl, fun h => hall (List.mem_append_left _ h)⟩,
    List.forall₂_iff_zip.2 ⟨Nat.add_left_cancel hlen, fun h => hall (List.mem_append_right _ h)⟩⟩

/-- What holds of the nodes made before, and so of the last one, holds of all. -/
theorem forall₂_concat {i j : NodeId} (hl : l.length = l'.length)
    (h : List.Forall₂ R (l ++ [i]) (l' ++ [j]))
    (hinit : List.Forall₂ R l l' → List.Forall₂ R m m' ∧ ∀ a b, (a, b) ∈ l.zip l' → P a b)
    (hlast : List.Forall₂ R m m' → P i j) :
    List.Forall₂ R [i] [j] ∧ ∀ a b, (a, b) ∈ (l ++ [i]).zip (l' ++ [j]) → P a b := by
  obtain ⟨hin, hij⟩ := forall₂_of_append hl h
  obtain ⟨hm, hall⟩ := hinit hin
  refine ⟨hij, fun a b hab => ?_⟩
  rw [List.zip_append hl, List.mem_append] at hab
  rcases hab with hab | hab
  · exact hall a b hab
  · cases List.mem_singleton.1 hab
    exact hlast hm

end

namespace Built

variable {R : NodeId → NodeId → Prop} {s s' : Session}
  {unfinished unfinished' ids ids' own own' : List NodeId} {task : Task}

theorem length_eq (h : Built s unfinished task ids own) (h' : Built s' unfinished' task ids' own') :
    own.length = own'.length := by
  induction h generalizing ids' own' with
  | leaf => cases h'; rfl
  | wrapper _ _ ih | list _ _ ih | union _ _ ih | object _ _ ih | merge _ _ _ ih =>
    cases h'
    simp only [List.length_append, ih (by assumption)]
    rfl
  | reference | definition | nil => cases h'; rfl
  | cons _ _ ih₁ ih₂ =>
    cases h' with
    | cons first rest => simp only [List.length_append, ih₁ first, ih₂ rest]

/-- What is built of one task is alike node by node, if its own nodes are related in their order, and
the nodes of the definitions that it mentions are. -/
theorem alike (h : Built s unfinished task ids own) (h' : Built s' unfinished' task ids' own')
    (hown : List.Forall₂ R own own')
    (hknown : ∀ name ∈ task.mentions, ∀ i j, s.known.get? name = some i →
      s'.known.get? name = some j → R i j) :
    List.Forall₂ R ids ids' ∧ ∀ i j, (i, j) ∈ own.zip own' →
      s.graph.Alike R (Origin R s s' unfinished unfinished' i j) s'.graph i j := by
  induction h generalizing ids' own' with
  | @leaf n hleaf _ node =>
    cases h' with
    | leaf node' =>
      refine ⟨hown, fun i j hij => ?_⟩
      cases List.mem_singleton.1 hij
      exact ⟨n.path, n.metadata, n.shape, n.shape, node, node', .leaf hleaf⟩
  | wrapper inside node ih =>
    cases h' with
    | wrapper inside' node' =>
      apply forall₂_concat (inside.length_eq inside') hown fun hin => ih inside' hin hknown
      intro hids
      exact ⟨_, _, _, _, node, node', .wrapper (List.forall₂_cons.1 hids).1⟩
  | list inside node ih =>
    cases h' with
    | list inside' node' =>
      apply forall₂_concat (inside.length_eq inside') hown fun hin => ih inside' hin hknown
      intro hids
      exact ⟨_, _, _, _, node, node', .list (List.forall₂_cons.1 hids).1⟩
  | union inside node ih =>
    cases h' with
    | union inside' node' =>
      rw [Task.mentions, Job.mentions, Outline.mentions, Outline.mentionsAll_eq] at hknown
      apply forall₂_concat (inside.length_eq inside') hown fun hin => ih inside' hin hknown
      intro hids
      exact ⟨_, _, _, _, node, node', .union hids⟩
  | object inside node ih =>
    cases h' with
    | object inside' node' =>
      rw [Task.mentions, Job.mentions, Outline.mentions, Outline.mentionsFields_eq] at hknown
      apply forall₂_concat (inside.length_eq inside') hown fun hin => ih inside' hin hknown
      intro hids
      exact ⟨_, _, _, _, node, node', .object (.fields (Outline.related_fieldRefs _ hids))⟩
  | merge inside node merged ih =>
    cases h' with
    | merge inside' node' merged' =>
      rw [Task.mentions, Job.mentions, Outline.mentions, Outline.mentionsAll_eq] at hknown
      apply forall₂_concat (inside.length_eq inside') hown fun hin => ih inside' hin hknown
      intro hids
      exact ⟨_, _, _, _, node, node', .object (.merge hids merged merged')⟩
  | reference means known =>
    cases h' with
    | reference means' known' =>
      cases means.symm.trans means'
      refine ⟨.cons (hknown _ ?_ _ _ known known') .nil, fun _ _ h => by cases h⟩
      rw [Task.mentions, Job.mentions, Outline.mentions, means]
      exact List.mem_singleton_self _
  | definition known =>
    cases h' with
    | definition known' =>
      have hR := hknown _ (List.mem_singleton_self _) _ _ known known'
      exact ⟨.cons hR .nil, fun _ _ h => by cases h⟩
  | nil =>
    cases h'
    exact ⟨.nil, fun _ _ h => by cases h⟩
  | cons first rest ih₁ ih₂ =>
    cases h' with
    | cons first' rest' =>
      obtain ⟨hin, hrest⟩ := forall₂_of_append (first.length_eq first') hown
      obtain ⟨hid, hall⟩ := ih₁ first' hin fun name hname =>
        hknown name (List.mem_append_left _ hname)
      obtain ⟨hids, hall'⟩ := ih₂ rest' hrest fun name hname =>
        hknown name (List.mem_append_right _ hname)
      refine ⟨.cons (List.forall₂_cons.1 hid).1 hids, fun i j hij => ?_⟩
      rw [List.zip_append (first.length_eq first'), List.mem_append] at hij
      exact hij.elim (hall i j) (hall' i j)

end Built

end ShapeSdl
