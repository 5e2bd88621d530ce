import ShapeSdl.Proofs.References
import Mathlib.Logic.Function.Basic

/-!
# Where nodes come from

Every node that reading makes comes from one definition, or from the root. What a definition makes
can be read off the graph again: it has the shape of the definition's outline.

* `Built s unfinished task ids own` : the nodes `ids` of session `s` are as the outlines of a task
  say, and `own` are the nodes below them that no other definition has made. The objects
  `unfinished` were being read meanwhile;
* `Session.Led` : the unfinished objects are those of definitions that have led to another one;
* `Layout definitions own stack s` : every definition that has been read to its end is built of its
  own nodes. No node belongs to two definitions;
* `Reads.layout` : reading keeps the layout, and builds what it reads of new nodes.
-/

namespace ShapeSdl

/-! ## Built nodes -/

/-- The nodes `ids` are as a task says, read while the objects `unfinished` were being read. The
nodes `own` belong to the task itself. -/
inductive Built (s : Session) (unfinished : List NodeId) : Task → List NodeId → List NodeId → Prop
  | leaf {n h id} (node : s.graph.node? (some id) = some n) :
      Built s unfinished (.one (.outline (.leaf n h))) [id] [id]
  | wrapper {path kind value inner i id own}
      (inside : Built s unfinished (.one (.outline inner)) [i] own)
      (node : s.graph.node? (some id) = some ⟨path, [], .wrapper kind (some i) value⟩) :
      Built s unfinished (.one (.outline (.wrapper path kind value inner))) [id] (own ++ [id])
  | list {path metadata element i id own}
      (inside : Built s unfinished (.one (.outline element)) [i] own)
      (node : s.graph.node? (some id) = some ⟨path, metadata, .list (some i)⟩) :
      Built s unfinished (.one (.outline (.list path metadata element))) [id] (own ++ [id])
  | union {path metadata variants is id own}
      (inside : Built s unfinished (.all (variants.map .outline)) is own)
      (node : s.graph.node? (some id) = some ⟨path, metadata, .union (is.map some)⟩) :
      Built s unfinished (.one (.outline (.union path metadata variants))) [id] (own ++ [id])
  | object {path metadata fields is id own}
      (inside : Built s unfinished (.all (Outline.fieldJobs fields)) is own)
      (node : s.graph.node? (some id) =
        some ⟨path, metadata, .object (Outline.fieldRefs fields is)⟩) :
      Built s unfinished (.one (.outline (.object path metadata fields))) [id] (own ++ [id])
  | merge {path metadata parts is id own fields}
      (inside : Built s unfinished (.all (parts.map .outline)) is own)
      (node : s.graph.node? (some id) = some ⟨path, metadata, .object fields⟩)
      (merged : ⟨id, is, unfinished⟩ ∈ s.merges) :
      Built s unfinished (.one (.outline (.merge path metadata parts))) [id] (own ++ [id])
  | reference {ref path name id} (means : ref.referred? = some name)
      (known : s.known.get? name = some id) :
      Built s unfinished (.one (.outline (.reference ref path))) [id] []
  | definition {name id} (known : s.known.get? name = some id) :
      Built s unfinished (.one (.definition name)) [id] []
  | nil : Built s unfinished (.all []) [] []
  | cons {job jobs id ids own own'} (first : Built s unfinished (.one job) [id] own)
      (rest : Built s unfinished (.all jobs) ids own') :
      Built s unfinished (.all (job :: jobs)) (id :: ids) (own ++ own')

namespace Built

variable {s t : Session} {unfinished : List NodeId} {task : Task} {ids own : List NodeId}

/-- What is built stays built while its own nodes stay as they are. -/
theorem mono (h : Built s unfinished task ids own)
    (hn : ∀ i ∈ own, t.graph.node? (some i) = s.graph.node? (some i))
    (hk : ∀ name id, s.known.get? name = some id → t.known.get? name = some id)
    (hm : s.merges ⊆ t.merges) : Built t unfinished task ids own := by
  induction h with
  | leaf node => exact .leaf ((hn _ (List.mem_singleton_self _)).trans node)
  | wrapper _ node ih =>
    rw [List.forall_mem_append, List.forall_mem_singleton] at hn
    exact .wrapper (ih hn.1) (hn.2.trans node)
  | list _ node ih =>
    rw [List.forall_mem_append, List.forall_mem_singleton] at hn
    exact .list (ih hn.1) (hn.2.trans node)
  | union _ node ih =>
    rw [List.forall_mem_append, List.forall_mem_singleton] at hn
    exact .union (ih hn.1) (hn.2.trans node)
  | object _ node ih =>
    rw [List.forall_mem_append, List.forall_mem_singleton] at hn
    exact .object (ih hn.1) (hn.2.trans node)
  | merge _ node merged ih =>
    rw [List.forall_mem_append, List.forall_mem_singleton] at hn
    exact .merge (ih hn.1) (hn.2.trans node) (hm merged)
  | reference means known => exact .reference means (hk _ _ known)
  | definition known => exact .definition (hk _ _ known)
  | nil => exact .nil
  | cons _ _ ih₁ ih₂ =>
    rw [List.forall_mem_append] at hn
    exact .cons (ih₁ hn.1) (ih₂ hn.2)

theorem of_grows (h : Built s unfinished task ids own) (hg : s.Grows t)
    (hlt : ∀ i ∈ own, i < s.graph.size) : Built t unfinished task ids own :=
  h.mono (fun i hi => hg.node? i (hlt i hi)) hg.known hg.merges

/-- The node of an outline that makes one is its own last node, at the outline's path. -/
theorem last {o : Outline} {id : NodeId} {path : String}
    (h : Built s unfinished (.one (.outline o)) [id] own) (hp : o.path? = some path) :
    (∃ inner, own = inner ++ [id]) ∧ ∃ n, s.graph.node? (some id) = some n ∧ n.path = path := by
  cases h with
  | leaf node => exact ⟨⟨[], rfl⟩, _, node, Option.some.inj hp⟩
  | wrapper _ node | list _ node | union _ node | object _ node | merge _ node =>
    exact ⟨⟨_, rfl⟩, _, node, Option.some.inj hp⟩
  | reference => cases hp

/-- An outline that is no reference makes a node. -/
theorem path? {o : Outline} {id : NodeId} (h : Built s unfinished (.one (.outline o)) [id] own)
    (ho : ∀ ref path, o ≠ .reference ref path) : ∃ path, o.path? = some path := by
  cases h with
  | leaf | wrapper | list | union | object | merge => exact ⟨_, rfl⟩
  | reference => exact absurd rfl (ho _ _)

theorem of_reference {ref : Json} {path : String} {id : NodeId}
    (h : Built s unfinished (.one (.outline (.reference ref path))) [id] own) :
    ∃ name, ref.referred? = some name ∧ s.known.get? name = some id := by
  cases h with
  | reference means known => exact ⟨_, means, known⟩

theorem lt (h : Built s unfinished task ids own) (hs : s.Sane) (hlt : ∀ i ∈ own, i < s.graph.size) :
    ∀ id ∈ ids, id < s.graph.size := by
  induction h with
  | leaf => exact hlt
  | wrapper | list | union | object | merge =>
    exact List.forall_mem_singleton.2 (hlt _ (List.mem_append_right _ (List.mem_singleton_self _)))
  | reference _ known | definition known => exact List.forall_mem_singleton.2 (hs _ _ known)
  | nil => simp
  | cons _ _ ih₁ ih₂ =>
    rw [List.forall_mem_append] at hlt
    exact List.forall_mem_cons.2 ⟨ih₁ hlt.1 _ (List.mem_singleton_self _), ih₂ hlt.2⟩

/-- The variants of a union are nodes of the graph. -/
theorem variant_lt {o : Outline} {id : NodeId} {path : String} {variants : List Ref}
    (h : Built s unfinished (.one (.outline o)) [id] own) (hp : o.path? = some path) (hs : s.Sane)
    (hlt : ∀ i ∈ own, i < s.graph.size) (hu : s.graph.shape? (some id) = some (.union variants)) :
    ∀ r ∈ variants, ∃ i < s.graph.size, r = some i := by
  cases h with
  | @leaf n hleaf _ node =>
    rw [Graph.shape?, node, Option.map_some, Option.some.injEq] at hu
    rw [hu] at hleaf
    cases hleaf
  | union inside node =>
    rw [Graph.shape?, node] at hu
    cases hu
    rw [List.forall_mem_append] at hlt
    intro r hr
    obtain ⟨i, hi, rfl⟩ := List.mem_map.1 hr
    exact ⟨i, inside.lt hs hlt.1 i hi, rfl⟩
  | wrapper _ node | list _ node | object _ node | merge _ node =>
    rw [Graph.shape?, node] at hu
    cases hu
  | reference => cases hp

/-- A node that a task has but does not own is that of a definition that the task mentions. -/
theorem mem_or_mentioned (h : Built s unfinished task ids own) :
    ∀ id ∈ ids, id ∈ own ∨ ∃ name ∈ task.mentions, s.known.get? name = some id := by
  induction h with
  | leaf => exact fun id hid => .inl hid
  | wrapper | list | union | object | merge => exact fun id hid => .inl (List.mem_append_right _ hid)
  | reference means known =>
    refine List.forall_mem_singleton.2 (.inr ⟨_, ?_, known⟩)
    rw [Task.mentions, Job.mentions, Outline.mentions, means]
    exact List.mem_singleton_self _
  | definition known =>
    exact List.forall_mem_singleton.2 (.inr ⟨_, List.mem_singleton_self _, known⟩)
  | nil => simp
  | cons _ _ ih₁ ih₂ =>
    refine List.forall_mem_cons.2 ⟨?_, fun id hid => ?_⟩
    · rcases ih₁ _ (List.mem_singleton_self _) with hmem | ⟨name, hname, hk⟩
      · exact .inl (List.mem_append_left _ hmem)
      · exact .inr ⟨name, List.mem_append_left _ hname, hk⟩
    · rcases ih₂ id hid with hmem | ⟨name, hname, hk⟩
      · exact .inl (List.mem_append_right _ hmem)
      · exact .inr ⟨name, List.mem_append_right _ hname, hk⟩

end Built

/-! ## The layout of a session -/

/-- The objects are those of definitions that have led to definition `name`. -/
def Session.Led (definitions : Definitions) (s : Session) (unfinished : List NodeId)
    (name : String) : Prop :=
  ∀ id ∈ unfinished, ∃ other, definitions.IsPlain other ∧ s.known.get? other = some id ∧
    Relation.ReflTransGen (Definitions.Refers definitions) other name

theorem Session.Led.mono {definitions : Definitions} {s t : Session} {unfinished : List NodeId}
    {name : String} (h : s.Led definitions unfinished name)
    (hk : ∀ name id, s.known.get? name = some id → t.known.get? name = some id) :
    t.Led definitions unfinished name := by
  intro id hid
  obtain ⟨other, hplain, hother, hl⟩ := h id hid
  exact ⟨other, hplain, hk _ _ hother, hl⟩

/-- The objects that are being read when a definition is entered are of definitions that lead to
it. -/
theorem Session.Opened.led {definitions : Definitions} {stack : List String} {s : Session}
    {name : String} (h : s.Opened definitions stack)
    (ht : Trail definitions stack (.one (.definition name))) : s.Led definitions s.unfinished name := by
  intro id hid
  obtain ⟨other, hother, hplain, hk⟩ := h id hid
  exact ⟨other, hplain, hk, (ht other hother name (List.mem_singleton_self _)).to_reflTransGen⟩

/-- Every definition outside the stack that has a node is built of its own nodes, and no node
belongs to two definitions. -/
structure Layout (definitions : Definitions) (own : String → List NodeId) (stack : List String)
    (s : Session) : Prop where
  built : ∀ name id, s.known.get? name = some id → name ∉ stack →
    ∃ body unfinished, definitions.lookup name = some body ∧ s.Led definitions unfinished name ∧
      Built s unfinished (.one (.outline (body.outline (Definitions.path name)))) [id] (own name)
  lt : ∀ name, ∀ i ∈ own name, i < s.graph.size
  apart : ∀ name other i, i ∈ own name → i ∈ own other → name = other
  nodup : ∀ name, (own name).Nodup
  unread : ∀ name, s.known.get? name = none ∨ name ∈ stack → own name = []

/-- From one layout to a later one: definitions get new nodes only, and the new nodes `mine` belong
to no definition. -/
structure Layout.Extends (size : Nat) (own own' : String → List NodeId) (mine : List NodeId) :
    Prop where
  kept : ∀ name, own' name = own name ∨ ∀ i ∈ own' name, size ≤ i
  mine_ge : ∀ i ∈ mine, size ≤ i
  mine_nodup : mine.Nodup
  mine_apart : ∀ name, ∀ i ∈ mine, i ∉ own' name

namespace Layout

variable {definitions : Definitions} {own own' : String → List NodeId} {stack : List String}
  {s t : Session}

theorem of_grows (h : Layout definitions own stack s) (hg : s.Grows t)
    (hk : t.known = s.known) : Layout definitions own stack t where
  built name id hid hfree := by
    rw [hk] at hid
    obtain ⟨body, unfinished, hd, hl, hb⟩ := h.built name id hid hfree
    exact ⟨body, unfinished, hd, hl.mono hg.known, hb.of_grows hg (h.lt name)⟩
  lt name i hi := Nat.lt_of_lt_of_le (h.lt name i hi) hg.size_le
  apart := h.apart
  nodup := h.nodup
  unread name hu := h.unread name (hk ▸ hu)

theorem enter {name : String} (h : Layout definitions own stack s) (hg : s.Grows t)
    (hu : s.known.get? name = none)
    (hk : ∀ other, other ≠ name → t.known.get? other = s.known.get? other) :
    Layout definitions own (name :: stack) t where
  built other id hid hfree := by
    obtain ⟨he, hfree⟩ := not_or.1 (mt List.mem_cons.2 hfree)
    rw [hk other he] at hid
    obtain ⟨body, unfinished, hd, hl, hb⟩ := h.built other id hid hfree
    exact ⟨body, unfinished, hd, hl.mono hg.known, hb.of_grows hg (h.lt other)⟩
  lt other i hi := Nat.lt_of_lt_of_le (h.lt other i hi) hg.size_le
  apart := h.apart
  nodup := h.nodup
  unread other hun := by
    by_cases he : other = name
    · exact h.unread other (.inl (he ▸ hu))
    · rw [hk other he] at hun
      refine h.unread other (hun.imp_right fun hmem => ?_)
      exact (List.mem_cons.1 hmem).resolve_left he

theorem Extends.refl (size : Nat) (own : String → List NodeId) : Extends size own own [] :=
  ⟨fun _ => .inl rfl, by simp, List.nodup_nil, by simp⟩

theorem Extends.notMem {size : Nat} {mine : List NodeId} (h : Extends size own own' mine)
    {i : NodeId} (hi : i < size) {name : String} (hn : i ∉ own name) : i ∉ own' name := by
  rcases h.kept name with he | hge
  · rw [he]; exact hn
  · exact fun hmem => absurd (hge i hmem) (Nat.not_le_of_lt hi)

theorem Extends.settle {size size' : Nat} {name : String} {mine mine' : List NodeId}
    (h : Extends size' own own' mine) (hle : size ≤ size') (hge : ∀ i ∈ mine', size ≤ i) :
    Extends size own (Function.update own' name mine') [] := by
  refine ⟨fun other => ?_, by simp, List.nodup_nil, by simp⟩
  by_cases he : other = name
  · subst he
    rw [Function.update_self]
    exact .inr hge
  · rw [Function.update_of_ne he]
    exact (h.kept other).imp_right fun hall i hi => Nat.le_trans hle (hall i hi)

end Layout

/-- What a task has built, from the session `s` with the layout `own` to the session `t`. -/
structure Layout.Reached (definitions : Definitions) (stack : List String)
    (own : String → List NodeId) (s : Session) (task : Task) (ids : List NodeId) (t : Session)
    (own' : String → List NodeId) (mine : List NodeId) : Prop
    extends Layout definitions own' stack t, Layout.Extends s.graph.size own own' mine where
  task : Built t s.unfinished task ids mine
  mine_lt : ∀ i ∈ mine, i < t.graph.size

section
variable {definitions : Definitions} {own own' : String → List NodeId} {stack : List String}
  {s t u : Session} {task task' : Task} {ids mine : List NodeId}

theorem Layout.Reached.push (h : Layout.Reached definitions stack own s task ids t own' mine)
    (hle : s.graph.size ≤ t.graph.size) (hg : t.Grows u) (hk : u.known = t.known)
    (hsize : t.graph.size < u.graph.size)
    (hb : Built u s.unfinished task ids mine →
      Built u s.unfinished task' [t.graph.size] (mine ++ [t.graph.size])) :
    Layout.Reached definitions stack own s task' [t.graph.size] u own' (mine ++ [t.graph.size]) where
  toLayout := h.toLayout.of_grows hg hk
  kept := h.kept
  mine_ge := List.forall_mem_append.2 ⟨h.mine_ge, List.forall_mem_singleton.2 hle⟩
  mine_nodup := by
    refine List.nodup_append.2 ⟨h.mine_nodup, by simp, fun i hi j hj => ?_⟩
    rw [List.mem_singleton.1 hj]
    exact Nat.ne_of_lt (h.mine_lt i hi)
  mine_apart name := List.forall_mem_append.2 ⟨h.mine_apart name,
    List.forall_mem_singleton.2 fun hmem => Nat.lt_irrefl _ (h.lt name _ hmem)⟩
  task := hb (h.task.of_grows hg h.mine_lt)
  mine_lt := List.forall_mem_append.2 ⟨fun i hi => Nat.lt_of_lt_of_le (h.mine_lt i hi) hg.size_le,
    List.forall_mem_singleton.2 hsize⟩

theorem Layout.Reached.pushNode (h : Layout.Reached definitions stack own s task ids t own' mine)
    (hle : s.graph.size ≤ t.graph.size) (n : Node)
    (hb : Built (t.add n) s.unfinished task ids mine →
      (t.add n).graph.node? (some t.graph.size) = some n →
        Built (t.add n) s.unfinished task' [t.graph.size] (mine ++ [t.graph.size])) :
    Layout.Reached definitions stack own s task' [t.graph.size] (t.add n) own'
      (mine ++ [t.graph.size]) :=
  h.push hle (t.grows_add n) rfl (by simp) fun hold => hb hold (t.node?_add_self n)

theorem Layout.Reached.refl (L : Layout definitions own stack s)
    (hb : Built s s.unfinished task ids []) :
    Layout.Reached definitions stack own s task ids s own [] :=
  ⟨L, Layout.Extends.refl _ own, hb, by simp⟩

theorem Layout.Reached.append {job : Job} {jobs : List Job} {id : NodeId}
    {own₁ own₂ : String → List NodeId} {mine₁ mine₂ : List NodeId}
    (h₁ : Layout.Reached definitions stack own s (.one job) [id] t own₁ mine₁)
    (h₂ : Layout.Reached definitions stack own₁ t (.all jobs) ids u own₂ mine₂)
    (hle : s.graph.size ≤ t.graph.size) (hu : t.unfinished = s.unfinished) (hg : t.Grows u) :
    Layout.Reached definitions stack own s (.all (job :: jobs)) (id :: ids) u own₂
      (mine₁ ++ mine₂) where
  toLayout := h₂.toLayout
  kept name := by
    rcases h₂.kept name with he | hge
    · rw [he]; exact h₁.kept name
    · exact .inr fun i hi => Nat.le_trans hle (hge i hi)
  mine_ge := List.forall_mem_append.2 ⟨h₁.mine_ge, fun i hi => Nat.le_trans hle (h₂.mine_ge i hi)⟩
  mine_nodup := by
    refine List.nodup_append.2 ⟨h₁.mine_nodup, h₂.mine_nodup, fun i hi j hj => ?_⟩
    exact Nat.ne_of_lt (Nat.lt_of_lt_of_le (h₁.mine_lt i hi) (h₂.mine_ge j hj))
  mine_apart name := List.forall_mem_append.2
    ⟨fun i hi => h₂.toExtends.notMem (h₁.mine_lt i hi) (h₁.mine_apart name i hi),
      h₂.mine_apart name⟩
  task := .cons (h₁.task.of_grows hg h₁.mine_lt) (hu ▸ h₂.task)
  mine_lt := List.forall_mem_append.2
    ⟨fun i hi => Nat.lt_of_lt_of_le (h₁.mine_lt i hi) hg.size_le, h₂.mine_lt⟩

/-- A definition that has been read to its end owns what has been built for it. -/
theorem Layout.settle {name : String} {body : Json} {id : NodeId} {unfinished : List NodeId}
    (L : Layout definitions own (name :: stack) t) (hfree : name ∉ stack)
    (hd : definitions.lookup name = some body)
    (hb : Built u unfinished (.one (.outline (body.outline (Definitions.path name)))) [id] mine)
    (hled : u.Led definitions unfinished name)
    (hsize : t.graph.size ≤ u.graph.size)
    (hn : ∀ other, ∀ i ∈ own other, u.graph.node? (some i) = t.graph.node? (some i))
    (hm : t.merges ⊆ u.merges) (hname : u.known.get? name = some id)
    (hk : ∀ other, other ≠ name → u.known.get? other = t.known.get? other)
    (ht : ∀ j, t.known.get? name = some j → j = id) (hlt : ∀ i ∈ mine, i < u.graph.size)
    (hnodup : mine.Nodup) (hap : ∀ other, ∀ i ∈ mine, i ∉ own other) :
    Layout definitions (Function.update own name mine) stack u := by
  have hkeep : ∀ other j, t.known.get? other = some j → u.known.get? other = some j := by
    intro other j hj
    by_cases he : other = name
    · subst he; rw [hname, ht j hj]
    · rw [hk other he, hj]
  refine ⟨fun other j hj hfree' => ?_, fun other => ?_, fun other other' i => ?_, fun other => ?_,
    fun other hu => ?_⟩
  · by_cases he : other = name
    · subst he
      rw [Function.update_self]
      cases hname.symm.trans hj
      exact ⟨body, unfinished, hd, hled, hb⟩
    · rw [Function.update_of_ne he]
      rw [hk other he] at hj
      obtain ⟨body', _, hd', hl', hb'⟩ := L.built other j hj (by simp [he, hfree'])
      exact ⟨body', _, hd', hl'.mono hkeep, hb'.mono (hn other) hkeep hm⟩
  · by_cases he : other = name
    · subst he; rwa [Function.update_self]
    · rw [Function.update_of_ne he]
      exact fun i hi => Nat.lt_of_lt_of_le (L.lt other i hi) hsize
  · by_cases he : other = name <;> by_cases he' : other' = name
    · exact fun _ _ => he.trans he'.symm
    · subst he
      rw [Function.update_self, Function.update_of_ne he']
      exact fun hi hi' => absurd hi' (hap other' i hi)
    · subst he'
      rw [Function.update_self, Function.update_of_ne he]
      exact fun hi hi' => absurd hi (hap other i hi')
    · rw [Function.update_of_ne he, Function.update_of_ne he']
      exact L.apart other other' i
  · by_cases he : other = name
    · subst he; rwa [Function.update_self]
    · rw [Function.update_of_ne he]
      exact L.nodup other
  · have he : other ≠ name := by
      rintro rfl
      rcases hu with hu | hu
      · cases hname.symm.trans hu
      · exact hfree hu
    rw [Function.update_of_ne he]
    apply L.unread other
    rw [hk other he] at hu
    exact hu.imp_right (List.mem_cons_of_mem _)

/-- An object definition owns its object, and the nodes that were built for its fields. -/
theorem Layout.Reached.closeObject {name path : String} {body : Json}
    {metadata : List (String × Json)} {fields : List (String × Outline)}
    (h : Layout.Reached definitions (name :: stack) own
      ((s.enter name).openObject name path metadata) (.all (Outline.fieldJobs fields)) ids t own' mine)
    (hg : ((s.enter name).openObject name path metadata).Grows t) (hfree : name ∉ stack)
    (hd : definitions.lookup name = some body)
    (hout : body.outline (Definitions.path name) = .object path metadata fields)
    (hled : t.Led definitions (s.graph.size :: s.unfinished) name)
    (hnew : ∀ other, s.graph.size ∉ own other) :
    Layout.Reached definitions stack own s (.one (.definition name)) [s.graph.size]
      (t.closeObject s.graph.size (Outline.fieldRefs fields ids))
      (Function.update own' name (mine ++ [s.graph.size])) [] := by
  have hsize : s.graph.size < t.graph.size := by
    have := hg.size_le
    rw [Session.size_openObject] at this
    exact this
  have hge : ∀ i ∈ mine, s.graph.size < i := by
    intro i hi
    have := h.mine_ge i hi
    rw [Session.size_openObject] at this
    exact this
  have hne : ∀ i ∈ mine, i ≠ s.graph.size := fun i hi => Nat.ne_of_gt (hge i hi)
  have hold : ∀ other, s.graph.size ∉ own' other := fun other =>
    h.toExtends.notMem (by simp [Session.enter]) (hnew other)
  have hnode := Session.node?_closeObject_self
    ((hg.node? s.graph.size (by simp [Session.enter])).trans (s.node?_add_self _))
    (Outline.fieldRefs fields ids)
  have hb : Built (t.closeObject s.graph.size (Outline.fieldRefs fields ids))
      (s.graph.size :: s.unfinished) (.one (.outline (body.outline (Definitions.path name))))
      [s.graph.size] (mine ++ [s.graph.size]) := by
    rw [hout]
    refine .object (h.task.mono (fun i hi => ?_) (fun _ _ h => h) (List.Subset.refl _)) hnode
    exact Session.node?_closeObject_of_ne t _ (hne i hi)
  have hknown := hg.known name _ (Entries.get?_put_self ..)
  have L := h.toLayout.settle hfree hd hb hled (by simp)
    (fun other i hi => Session.node?_closeObject_of_ne t _ fun e => hold other (e ▸ hi))
    (List.Subset.refl _) hknown (fun _ _ => rfl)
    (fun j hj => Option.some.inj (hj.symm.trans hknown))
    (List.forall_mem_append.2 ⟨by simpa using h.mine_lt, by simpa using hsize⟩)
    (List.nodup_append.2 ⟨h.mine_nodup, by simp, by simpa using hne⟩)
    fun other => List.forall_mem_append.2 ⟨h.mine_apart other, by simpa using hold other⟩
  refine ⟨L, h.toExtends.settle (by simp [Session.enter]) ?_, .definition hknown, by simp⟩
  exact List.forall_mem_append.2 ⟨fun i hi => Nat.le_of_lt (hge i hi), by simp⟩

/-- A definition of another kind owns what was built for its body. -/
theorem Layout.Reached.remember {name : String} {body : Json} {id : NodeId}
    (h : Layout.Reached definitions (name :: stack) own (s.enter name)
      (.one (.outline (body.outline (Definitions.path name)))) [id] t own' mine)
    (hun : t.known.get? name = none) (hfree : name ∉ stack)
    (hd : definitions.lookup name = some body) (hled : t.Led definitions s.unfinished name) :
    Layout.Reached definitions stack own s (.one (.definition name)) [id] (t.remember name id)
      (Function.update own' name mine) [] := by
  have hg := Session.grows_remember hun id
  have hb := h.task.mono (t := t.remember name id) (fun _ _ => rfl) hg.known hg.merges
  have L := h.toLayout.settle hfree hd hb (hled.mono hg.known) (Nat.le_refl _) (fun _ _ _ => rfl)
    (List.Subset.refl _) (Entries.get?_put_self ..) (fun _ he => Entries.get?_put_of_ne _ _ he)
    (by simp [hun]) h.mine_lt h.mine_nodup h.mine_apart
  exact ⟨L, h.toExtends.settle (Nat.le_refl _) h.mine_ge, .definition (Entries.get?_put_self ..),
    by simp⟩

end

namespace Reads

variable {definitions : Definitions} {stack : List String} {task : Task} {s t : Session}
  {ids : List NodeId}

/-- Reading keeps the layout, and builds what it reads of new nodes. -/
theorem layout (h : Reads definitions stack task s ids t) (hs : s.Sane)
    {own : String → List NodeId} (L : Layout definitions own stack s)
    (ht : Trail definitions stack task) (ho : s.Opened definitions stack) :
    ∃ own' mine, Layout.Reached definitions stack own s task ids t own' mine := by
  induction h generalizing own with
  | @leaf stack s n =>
    refine ⟨own, [s.graph.size], ?_⟩
    exact (Layout.Reached.refl L .nil).pushNode (Nat.le_refl _) n fun _ hnode => .leaf hnode
  | wrapper inside ih | list inside ih =>
    obtain ⟨own', mine, h⟩ := ih hs L ht ho
    refine ⟨own', _, h.pushNode (inside.grows hs).1.size_le _ fun hb hnode => ?_⟩
    constructor
    · exact hb
    · exact hnode
  | union inside ih =>
    obtain ⟨own', mine, h⟩ := ih hs L ht.union ho
    exact ⟨own', _, h.pushNode (inside.grows hs).1.size_le _ .union⟩
  | object inside ih =>
    obtain ⟨own', mine, h⟩ := ih hs L ht.object ho
    exact ⟨own', _, h.pushNode (inside.grows hs).1.size_le _ .object⟩
  | @merge _ s t _ _ _ _ inside _ ih =>
    obtain ⟨own', mine, h⟩ := ih hs L ht.merge ho
    refine ⟨own', _, h.push (inside.grows hs).1.size_le (Session.grows_addMerged ..) rfl
      (by simp) fun hb => ?_⟩
    refine .merge hb (Session.node?_add_self ..) ?_
    rw [← inside.unfinished_eq]
    exact List.mem_cons_self
  | reference means _ _ ih =>
    obtain ⟨own', mine, h⟩ := ih hs L (ht.reference means) ho
    cases h.task with
    | definition hk => exact ⟨own', [], { h with task := .reference means hk }⟩
  | known hk => exact ⟨own, [], .refl L (.definition hk)⟩
  | @plain stack s t name body path metadata fields ids hu hfree hd hp hout inside ih =>
    have hg := Session.grows_openObject hu path metadata
    have hso := Session.sane_openObject (s := s.enter name) hs name path metadata
    have hplain : definitions.IsPlain name := ⟨body, hd, hp⟩
    obtain ⟨own', mine, h⟩ := ih hso (L.enter hg hu fun _ he => Entries.get?_put_of_ne _ _ he)
      (ht.enter hd (by rw [hout, Outline.mentions, Outline.mentionsFields_eq]; exact List.Subset.refl _))
      (ho.openObject hplain hu path metadata)
    have hgt := (inside.grows hso).1
    have hled : t.Led definitions (s.graph.size :: s.unfinished) name :=
      List.forall_mem_cons.2 ⟨⟨name, hplain, hgt.known name _ (Entries.get?_put_self ..), .refl⟩,
        (ho.led ht).mono fun _ _ h => hgt.known _ _ (hg.known _ _ h)⟩
    exact ⟨_, [], h.closeObject hgt hfree hd hout hled fun other hmem =>
      Nat.lt_irrefl _ (L.lt other _ hmem)⟩
  | @other stack s t name body id hu hfree hd _ inside ih =>
    obtain ⟨own', mine, h⟩ := ih hs (L.enter ⟨.refl _, fun _ _ h => h, List.Subset.refl _⟩ hu
      fun _ _ => rfl) (ht.enter hd (List.Subset.refl _))
      (ho.mono rfl (List.subset_cons_self _ _) fun _ _ h => h)
    have hun := inside.unknown_of_mem List.mem_cons_self hu
    have hled := (ho.led ht).mono (inside.grows hs).1.known
    exact ⟨_, [], h.remember hun hfree hd hled⟩
  | nil => exact ⟨own, [], .refl L .nil⟩
  | cons first rest ih₁ ih₂ =>
    have hg := (first.grows hs).1
    obtain ⟨own₁, mine₁, h₁⟩ := ih₁ hs L ht.first ho
    obtain ⟨own₂, mine₂, h₂⟩ := ih₂ (first.sane hs) h₁.toLayout ht.rest
      (ho.mono first.unfinished_eq (List.Subset.refl _) hg.known)
    exact ⟨own₂, _, h₁.append h₂ hg.size_le first.unfinished_eq (rest.grows (first.sane hs)).1⟩

end Reads

end ShapeSdl
