import ShapeSdl.Proofs.Alias

/-!
# Merged objects

A merged object takes the fields of its parts when it is read. A part whose own fields are still
being read just then has none yet, and what it gets later does not reach the merged object.

* `Merge.finished` : the parts that had their fields;
* `Session.Merged` : every merged object has exactly the fields of its finished parts, and every
  unfinished object has none;
* `Reads.merged` : reading keeps this, and finishes what it begins;
* `Graph.mem_keys_merged` : the keys of the fields of several nodes together;
* `Graph.merged_append` : merging is associative;
* `Session.Circles`, `Reads.circles` : an unfinished part comes from a definition that has led to
  the merged object;
* `Settled definitions own s` : what holds of a session in which nothing is being read
  (`Settled.begin`, `Settled.read`). Definitions with one node have one root (`Settled.root_eq`);
* `merged_fields` : the fields of a merged object in the end, and when a field of a part is missing;
* `mergeCircle` : a document in which one is missing (`mergeCircle_loses`).
-/

namespace ShapeSdl

def Merge.finished (m : Merge) : List NodeId := m.parts.filter (· ∉ m.unfinished)

namespace Graph

theorem mergedOver_congr {g h : Graph} : ∀ {ids : List NodeId} {fields : Entries String Ref},
    (∀ id ∈ ids, g.fields (some id) = h.fields (some id)) →
      g.mergedOver fields ids = h.mergedOver fields ids
  | [], _, _ => rfl
  | id :: ids, fields, hall => by
    obtain ⟨hid, hids⟩ := List.forall_mem_cons.1 hall
    rw [mergedOver_cons, mergedOver_cons, hid]
    exact mergedOver_congr hids

theorem merged_congr {g h : Graph} {ids : List NodeId}
    (hall : ∀ id ∈ ids, g.fields (some id) = h.fields (some id)) : g.merged ids = h.merged ids :=
  mergedOver_congr hall

/-- Nodes without fields add nothing. -/
theorem mergedOver_filter {g : Graph} {p : NodeId → Bool} : ∀ {ids : List NodeId}
    {fields : Entries String Ref}, (∀ id ∈ ids, p id = false → g.fields (some id) = ∅) →
      g.mergedOver fields (ids.filter p) = g.mergedOver fields ids
  | [], _, _ => rfl
  | id :: ids, fields, hall => by
    obtain ⟨hid, hids⟩ := List.forall_mem_cons.1 hall
    rw [List.filter_cons, mergedOver_cons]
    split
    · rw [mergedOver_cons]
      exact mergedOver_filter hids
    · rename_i hp
      rw [hid (Bool.eq_false_iff.2 hp)]
      exact mergedOver_filter hids

theorem mem_keys_mergedOver {g : Graph} {k : String} : ∀ {ids : List NodeId}
    {fields : Entries String Ref}, k ∈ (g.mergedOver fields ids).keys ↔
      k ∈ fields.keys ∨ ∃ id ∈ ids, k ∈ (g.fields (some id)).keys
  | [], _ => by simp [mergedOver]
  | id :: ids, fields => by
    rw [mergedOver_cons, mem_keys_mergedOver, Entries.mem_keys_putAll]
    simp only [List.mem_cons, exists_eq_or_imp]
    rw [← or_assoc]
    exact or_congr_left Or.comm

theorem exists_of_get?_mergedOver {g : Graph} {k : String} {r : Ref} : ∀ {ids : List NodeId}
    {fields : Entries String Ref}, (g.mergedOver fields ids).get? k = some r →
      fields.get? k = some r ∨ ∃ id ∈ ids, (g.fields (some id)).get? k = some r
  | [], _, h => .inl h
  | id :: rest, fields, h => by
    rw [mergedOver_cons] at h
    rcases exists_of_get?_mergedOver h with hput | ⟨i, hi, hget⟩
    · rcases Entries.mem_of_get?_putAll hput with hmem | hold
      · exact .inr ⟨id, List.mem_cons_self, Entries.mem_toList_iff.1 hmem⟩
      · exact .inl hold
    · exact .inr ⟨i, List.mem_cons_of_mem _ hi, hget⟩

theorem exists_of_get?_merged {g : Graph} {k : String} {r : Ref} {ids : List NodeId}
    (h : (g.merged ids).get? k = some r) : ∃ id ∈ ids, (g.fields (some id)).get? k = some r :=
  (exists_of_get?_mergedOver h).resolve_left nofun

theorem mem_keys_merged {g : Graph} {k : String} {ids : List NodeId} :
    k ∈ (g.merged ids).keys ↔ ∃ id ∈ ids, k ∈ (g.fields (some id)).keys := by
  rw [merged, mem_keys_mergedOver]
  simp [Entries.keys]

theorem mergedOver_eq_putAll (g : Graph) : ∀ (ids : List NodeId) (fields : Entries String Ref),
    g.mergedOver fields ids = fields.putAll (g.merged ids).toList
  | [], _ => rfl
  | id :: ids, fields => by
    have hfirst : g.merged (id :: ids) =
        g.mergedOver (.ofList (g.fields (some id)).toList) ids := rfl
    rw [hfirst, Entries.ofList_toList, mergedOver_cons, mergedOver_eq_putAll g ids,
      mergedOver_eq_putAll g ids, Entries.putAll_putAll]

theorem merged_cons (g : Graph) (id : NodeId) (ids : List NodeId) :
    g.merged (id :: ids) = (g.fields (some id)).putAll (g.merged ids).toList := by
  rw [← mergedOver_eq_putAll, ← Entries.ofList_toList (g.fields (some id))]
  rfl

theorem merged_append (g : Graph) (is js : List NodeId) :
    g.merged (is ++ js) = (g.merged is).putAll (g.merged js).toList := by
  rw [← mergedOver_eq_putAll, merged, mergedOver, List.foldl_append]
  rfl

end Graph

/-! ## What holds of merged objects while documents are read -/

namespace Session

/-- A merged object has the fields of its finished parts, and whatever is still unfinished was
unfinished when it was read, or has come later. -/
structure Keeps (s : Session) (m : Merge) : Prop where
  node_lt : m.node < s.graph.size
  parts_lt : ∀ p ∈ m.parts, p < m.node
  unfinished_lt : ∀ p ∈ m.unfinished, p < m.node
  still : ∀ id ∈ s.unfinished, id ∈ m.unfinished ∨ m.node < id
  shape : s.graph.shape? (some m.node) = some (.object (s.graph.merged m.finished))
  objects : ∀ p ∈ m.parts, s.graph.isObject (some p) = true

structure Merged (s : Session) : Prop where
  lt : ∀ id ∈ s.unfinished, id < s.graph.size
  unfinished : ∀ id ∈ s.unfinished, s.graph.shape? (some id) = some (.object ∅)
  keeps : ∀ m ∈ s.merges, s.Keeps m

theorem Keeps.finished_lt {s : Session} {m : Merge} (h : s.Keeps m) {p : NodeId}
    (hp : p ∈ m.finished) : p < m.node := h.parts_lt p (List.mem_filter.1 hp).1

theorem Keeps.of_grows {s t : Session} {m : Merge} (h : s.Keeps m) (hg : s.graph.Grows t.graph)
    (hu : ∀ id ∈ t.unfinished, id ∈ s.unfinished ∨ s.graph.size ≤ id) : t.Keeps m where
  node_lt := Nat.lt_of_lt_of_le h.node_lt hg.size_le
  parts_lt := h.parts_lt
  unfinished_lt := h.unfinished_lt
  still id hid := by
    rcases hu id hid with hs | hs
    · exact h.still id hs
    · exact .inr (Nat.lt_of_lt_of_le h.node_lt hs)
  shape := by
    rw [hg.shape? h.node_lt, h.shape]
    congr 2
    exact Graph.merged_congr fun p hp =>
      (hg.fields (Nat.lt_trans (h.finished_lt hp) h.node_lt)).symm
  objects p hp :=
    (hg.isObject (Nat.lt_trans (h.parts_lt p hp) h.node_lt)).trans (h.objects p hp)

theorem Merged.of_grows {s t : Session} (h : s.Merged) (hg : s.graph.Grows t.graph)
    (hu : t.unfinished = s.unfinished) (hm : t.merges = s.merges) : t.Merged where
  lt id hid := Nat.lt_of_lt_of_le (h.lt id (hu ▸ hid)) hg.size_le
  unfinished id hid := by
    rw [hu] at hid
    rw [hg.shape? (h.lt id hid), h.unfinished id hid]
  keeps m hmem := (h.keeps m (hm ▸ hmem)).of_grows hg fun id hid => .inl (hu ▸ hid)

theorem Merged.add {s : Session} (h : s.Merged) (n : Node) : (s.add n).Merged :=
  h.of_grows (s.grows_add n).toGrows rfl rfl

theorem Merged.addMerged {s : Session} (h : s.Merged) {parts : List NodeId}
    (hp : ∀ p ∈ parts, p < s.graph.size)
    (ho : ∀ p ∈ parts, s.graph.isObject (some p) = true) (path : String)
    (metadata : List (String × Json)) :
    (s.addMerged path metadata (s.graph.merged parts) parts).Merged where
  lt id hid := Nat.lt_of_lt_of_le (h.lt id hid) (s.grows_addMerged ..).size_le
  unfinished id hid := by
    rw [(s.grows_addMerged ..).shape? (h.lt id hid), h.unfinished id hid]
  keeps m hmem := by
    have hg := s.grows_addMerged path metadata (s.graph.merged parts) parts
    rcases List.mem_cons.1 hmem with rfl | hmem
    · refine ⟨?_, hp, h.lt, fun id hid => .inl hid, ?_, fun p hmem => ?_⟩
      · rw [size_addMerged]; exact Nat.lt_succ_self _
      · have hold : s.graph.merged (parts.filter (· ∉ s.unfinished)) = s.graph.merged parts := by
          apply Graph.mergedOver_filter
          intro p _ hu
          rw [Graph.fields, h.unfinished p (by simpa using hu)]
        refine (shape?_addMerged_self ..).trans ?_
        congr 2
        refine hold.symm.trans (Graph.merged_congr fun p hm => ?_)
        exact (hg.fields (hp p (List.mem_filter.1 hm).1)).symm
      · exact (hg.isObject (hp p hmem)).trans (ho p hmem)
    · exact (h.keeps m hmem).of_grows hg.toGrows fun id hid => .inl hid

theorem Merged.openObject {s : Session} (h : s.Merged) {name : String}
    (hu : s.known.get? name = none) (path : String) (metadata : List (String × Json)) :
    ((s.enter name).openObject name path metadata).Merged where
  lt := by
    refine List.forall_mem_cons.2 ⟨?_, fun id hid => ?_⟩
    · rw [size_openObject]; exact Nat.lt_succ_self _
    · rw [size_openObject]; exact Nat.lt_succ_of_lt (h.lt id hid)
  unfinished := by
    have hg := grows_openObject hu path metadata
    refine List.forall_mem_cons.2 ⟨?_, fun id hid => ?_⟩
    · exact congrArg (Option.map Node.shape) (s.node?_add_self ⟨path, metadata, .object ∅⟩)
    · rw [hg.shape? (h.lt id hid), h.unfinished id hid]
  keeps m hmem := (h.keeps m hmem).of_grows (grows_openObject hu path metadata).toGrows fun id hid => by
    rcases List.mem_cons.1 hid with rfl | hid
    · exact .inr (Nat.le_refl _)
    · exact .inl hid

/-- An object that gets its fields is no finished part of a merged object, and is not one itself. -/
theorem Merged.closeObject {s : Session} (h : s.Merged) {id : NodeId} {rest : List NodeId}
    (hu : s.unfinished = id :: rest) (hr : ∀ j ∈ rest, j < id) (fields : Entries String Ref) :
    (s.closeObject id fields).Merged where
  lt j hj := by
    rw [size_closeObject]
    exact h.lt j (List.mem_of_mem_tail hj)
  unfinished j hj := by
    have hj : j ∈ rest := by rwa [Session.closeObject, hu] at hj
    rw [shape?_closeObject_of_ne _ _ (Nat.ne_of_lt (hr j hj))]
    exact h.unfinished j (hu ▸ List.mem_cons_of_mem _ hj)
  keeps m hmem := by
    have hk := h.keeps m hmem
    have hid := hk.still id (hu ▸ List.mem_cons_self)
    have hne : m.node ≠ id := by
      rcases hid with hid | hid
      · exact Nat.ne_of_gt (hk.unfinished_lt id hid)
      · exact Nat.ne_of_lt hid
    have hparts : ∀ p ∈ m.finished, p ≠ id := by
      intro p hp
      rcases hid with hid | hid
      · rintro rfl
        simp [Merge.finished, hid] at hp
      · exact Nat.ne_of_lt (Nat.lt_trans (hk.finished_lt hp) hid)
    refine ⟨by rw [size_closeObject]; exact hk.node_lt, hk.parts_lt, hk.unfinished_lt,
      fun j hj => hk.still j (List.mem_of_mem_tail hj), ?_, fun p hp => ?_⟩
    · rw [shape?_closeObject_of_ne _ _ hne, hk.shape]
      congr 2
      apply Graph.merged_congr
      intro p hp
      rw [Graph.fields, Graph.fields, shape?_closeObject_of_ne _ _ (hparts p hp)]
    · exact isObject_closeObject fields (hk.objects p hp)

end Session

namespace Reads

variable {definitions : Definitions} {stack : List String} {task : Task} {s t : Session}
  {ids : List NodeId}

theorem merged (h : Reads definitions stack task s ids t) (hs : s.Sane) (hm : s.Merged) :
    t.Merged := by
  induction h with
  | leaf => exact hm.add _
  | wrapper _ ih | list _ ih | union _ ih | object _ ih => exact (ih hs hm).add _
  | merge inside objects ih => exact (ih hs hm).addMerged (inside.grows hs).2.2 objects _ _
  | reference _ _ _ ih => exact ih hs hm
  | known | nil => exact hm
  | plain hu _ _ _ _ inside ih =>
    have ht := ih (Session.sane_openObject hs _ _ _) (hm.openObject hu _ _)
    exact ht.closeObject inside.unfinished_eq hm.lt _
  | other _ _ _ _ inside ih => exact (ih hs (hm.of_grows (.refl _) rfl rfl)).of_grows (.refl _) rfl rfl
  | cons first _ ih₁ ih₂ => exact ih₂ (first.sane hs) (ih₁ hs hm)

end Reads

/-! ## Parts that are being read -/

def Session.Circles (definitions : Definitions) (s : Session) (m : Merge) : Prop :=
  ∀ p ∈ m.parts, p ∈ m.unfinished → ∃ name other, definitions.IsPlain name ∧
    s.known.get? name = some p ∧ s.known.get? other = some p ∧ definitions.Leads name other

theorem Session.Circles.mono {definitions : Definitions} {s t : Session} {m : Merge}
    (h : s.Circles definitions m)
    (hk : ∀ name id, s.known.get? name = some id → t.known.get? name = some id) :
    t.Circles definitions m := by
  intro p hp hu
  obtain ⟨name, other, hplain, hname, hother, hl⟩ := h p hp hu
  exact ⟨name, other, hplain, hk _ _ hname, hk _ _ hother, hl⟩

/-- Whatever is merged while it is being read has been led to by its definition. -/
theorem Reads.circles {definitions : Definitions} {stack : List String} {task : Task}
    {s t : Session} {ids : List NodeId} (h : Reads definitions stack task s ids t) (hs : s.Sane)
    {own : String → List NodeId} (L : Layout definitions own stack s) (hm : s.Merged)
    (ht : Trail definitions stack task) (ho : s.Opened definitions stack)
    (hc : ∀ m ∈ s.merges, s.Circles definitions m) : ∀ m ∈ t.merges, t.Circles definitions m := by
  induction h generalizing own with
  | leaf | known | nil => exact hc
  | wrapper _ ih | list _ ih => exact ih hs L hm ht ho hc
  | union _ ih => exact ih hs L hm ht.union ho hc
  | object _ ih => exact ih hs L hm ht.object ho hc
  | reference means _ _ ih => exact ih hs L hm (ht.reference means) ho hc
  | merge inside _ ih =>
    obtain ⟨own', mine, h⟩ := inside.layout hs L ht.merge ho
    refine List.forall_mem_cons.2 ⟨fun p hp hunf => ?_, ih hs L hm ht.merge ho hc⟩
    rw [inside.unfinished_eq] at hunf
    obtain ⟨name, hname, hplain, hk⟩ := ho p hunf
    rcases h.task.mem_or_mentioned p hp with hmine | ⟨other, hother, hk'⟩
    · exact absurd (hm.lt p hunf) (Nat.not_lt_of_le (h.mine_ge p hmine))
    · exact ⟨name, other, hplain, (inside.grows hs).1.known _ _ hk, hk',
        ht.merge name hname other hother⟩
  | @plain stack s t name body path metadata fields ids hu hfree hd hp hout inside ih =>
    have hg := Session.grows_openObject hu path metadata
    have hsub : (Task.all (Outline.fieldJobs fields)).mentions ⊆
        (body.outline (Definitions.path name)).mentions := by
      rw [hout, Outline.mentions, Outline.mentionsFields_eq]
      exact List.Subset.refl _
    exact ih (Session.sane_openObject (s := s.enter name) hs name path metadata)
      (L.enter hg hu fun _ he => Entries.get?_put_of_ne _ _ he) (hm.openObject hu path metadata)
      (ht.enter hd hsub) (ho.openObject ⟨body, hd, hp⟩ hu path metadata)
      fun m hmem => (hc m hmem).mono hg.known
  | @other stack s t name body id hu hfree hd hp inside ih =>
    have hg := Session.grows_remember (inside.unknown_of_mem List.mem_cons_self hu) id
    have hc' := ih hs (L.enter ⟨.refl _, fun _ _ h => h, List.Subset.refl _⟩ hu fun _ _ => rfl)
      (hm.of_grows (.refl _) rfl rfl) (ht.enter hd (List.Subset.refl _))
      (ho.mono rfl (List.subset_cons_self _ _) fun _ _ h => h) hc
    exact fun m hmem => (hc' m hmem).mono hg.known
  | cons first rest ih₁ ih₂ =>
    obtain ⟨own', mine, h₁⟩ := first.layout hs L ht.first ho
    exact ih₂ (first.sane hs) h₁.toLayout (first.merged hs hm) ht.rest
      (ho.mono first.unfinished_eq (List.Subset.refl _) (first.grows hs).1.known)
      (ih₁ hs L hm ht.first ho hc)

/-! ## Sessions in which nothing is being read -/

structure Settled (definitions : Definitions) (own : String → List NodeId) (s : Session) : Prop
    extends Layout definitions own [] s where
  sane : s.Sane
  rooted : s.Rooted definitions
  merged : s.Merged
  finished : s.unfinished = []
  circles : ∀ m ∈ s.merges, s.Circles definitions m

namespace Settled

variable {definitions : Definitions} {own : String → List NodeId} {s t : Session} {task : Task}
  {ids : List NodeId}

theorem begin (definitions : Definitions) (s : Session) :
    Settled definitions (fun _ => []) s.begin where
  built := nofun
  lt := by simp
  apart := by simp
  nodup := by simp
  unread := by simp
  sane := s.sane_begin
  rooted := nofun
  merged := ⟨nofun, nofun, nofun⟩
  finished := rfl
  circles := nofun

/-- A session settles again after every task, and the task is built of new nodes. -/
theorem read (S : Settled definitions own s) (h : Reads definitions [] task s ids t) :
    ∃ own' mine, Settled definitions own' t ∧
      Layout.Reached definitions [] own s task ids t own' mine := by
  have hopen : s.Opened definitions [] := by
    intro id hid
    rw [S.finished] at hid
    cases hid
  obtain ⟨own', mine, hl⟩ := h.layout S.sane S.toLayout (.nil definitions task) hopen
  refine ⟨own', mine, ⟨hl.toLayout, h.sane S.sane, h.rooted S.sane S.rooted,
    h.merged S.sane S.merged, h.unfinished_eq.trans S.finished, ?_⟩, hl⟩
  exact h.circles S.sane S.toLayout S.merged (.nil definitions task) hopen S.circles

theorem known_root (S : Settled definitions own s) {name root : String} {id : NodeId}
    (hk : s.known.get? name = some id) (hr : definitions.Root name root) :
    s.known.get? root = some id := by
  obtain ⟨root', hr', hk'⟩ := S.rooted name id hk
  rwa [hr.unique hr']

/-- Definitions with one node have one root. -/
theorem root_eq (S : Settled definitions own s) {name other root root' : String} {id : NodeId}
    (hname : s.known.get? name = some id) (hother : s.known.get? other = some id)
    (h : definitions.Root name root) (h' : definitions.Root other root') : root = root' :=
  S.toLayout.root_eq S.rooted hname hother h h'

theorem root_self (S : Settled definitions own s) {name : String} {id : NodeId}
    (hk : s.known.get? name = some id) (ha : definitions.isAlias name = false) :
    definitions.Root name name := by
  obtain ⟨root, hr, -⟩ := S.rooted name id hk
  have he := hr.eq_self ha
  rwa [he] at hr

end Settled

theorem readDocument_settled {schema : Json} {root : String} {s t : Session} {batch : Batch}
    {definitions : Definitions} (hd : schema.definitions = .ok definitions)
    (h : readDocument schema root s = .ok batch t) : ∃ own, Settled definitions own t := by
  obtain ⟨definitions', ids, u, hd', hr, h⟩ := readDocument_eq_ok_iff.1 h
  cases hd.symm.trans hd'
  obtain ⟨own, -, S, -⟩ := (Settled.begin definitions s).read hr
  dsimp only at h
  split at h
  · obtain ⟨id, hi, -⟩ := h
    obtain ⟨own', -, S', -⟩ := S.read hi
    exact ⟨own', S'⟩
  · obtain ⟨-, rfl⟩ := h
    exact ⟨own, S⟩

/-! ## The fields of merged objects -/

/-- A merged object has the fields of its finished parts. It has those of all its parts exactly if
the others add nothing, and an unfinished part is an object definition that leads back to itself. -/
theorem merged_fields {schema : Json} {root : String} {s t : Session} {batch : Batch}
    {definitions : Definitions} (hd : schema.definitions = .ok definitions)
    (h : readDocument schema root s = .ok batch t) {m : Merge} (hm : m ∈ t.merges) :
    t.graph.shape? (some m.node) = some (.object (t.graph.merged m.finished)) ∧
    (t.graph.fields (some m.node) = t.graph.merged m.parts ↔
      t.graph.merged m.finished = t.graph.merged m.parts) ∧
    ((∀ p ∈ m.parts, ∀ k ∈ (t.graph.fields (some p)).keys,
        k ∈ (t.graph.fields (some m.node)).keys) ↔
      ∀ p ∈ m.parts, p ∈ m.unfinished → ∀ k ∈ (t.graph.fields (some p)).keys,
        ∃ q ∈ m.finished, k ∈ (t.graph.fields (some q)).keys) ∧
    ∀ p ∈ m.parts, p ∈ m.unfinished → ∃ name, definitions.IsPlain name ∧
      t.known.get? name = some p ∧ definitions.Leads name name := by
  obtain ⟨own, S⟩ := readDocument_settled hd h
  have hshape := (S.merged.keeps m hm).shape
  have hfields : t.graph.fields (some m.node) = t.graph.merged m.finished := by
    rw [Graph.fields, hshape]
  refine ⟨hshape, by rw [hfields], ?_, fun p hp hu => ?_⟩
  · rw [hfields]
    simp only [Graph.mem_keys_merged]
    refine forall₂_congr fun p hp => ⟨fun hall _ => hall, fun hall k hk => ?_⟩
    by_cases hu : p ∈ m.unfinished
    · exact hall hu k hk
    · exact ⟨p, List.mem_filter.2 ⟨hp, by simpa using hu⟩, hk⟩
  · obtain ⟨name, other, hplain, hname, hother, hl⟩ := S.circles m hm p hp hu
    refine ⟨name, hplain, hname, ?_⟩
    obtain ⟨root, hroot, -⟩ := S.rooted other p hother
    cases S.root_eq hother hname hroot hplain.root_self
    exact hl.trans_left hroot.leads

/-- Object `a` refers to definition `b`, which takes its fields from `a`. -/
def mergeCircle : Json := .obj [("$defs", .obj [
  ("a", .obj [("type", .str "object"), ("properties", .obj [
    ("x", .obj [("type", .str "string")]), ("b", .obj [("$ref", .str "#/$defs/b")])])]),
  ("b", .obj [("allOf", .arr [.obj [("$ref", .str "#/$defs/a")]])])])]

theorem readDocument_mergeCircle : ∃ batch t, readDocument mergeCircle "" {} = .ok batch t ∧
    t.merges = [⟨3, [0], [0]⟩] ∧ (t.graph.fields (some 3)).keys = [] ∧
      (t.graph.fields (some 0)).keys = ["x", "b"] := by
  obtain ⟨batch, t, h, ht⟩ := Reading.exists_ok (x := readDocument mergeCircle "" {})
    (p := fun _ t => decide (t.merges = [⟨3, [0], [0]⟩] ∧ (t.graph.fields (some 3)).keys = [] ∧
      (t.graph.fields (some 0)).keys = ["x", "b"])) (by decide +kernel)
  exact ⟨batch, t, h, of_decide_eq_true ht⟩

/-- In the circle the merged object has no field at all, and it is no object of two fields. -/
theorem merged_fields_mergeCircle : ∃ batch t, readDocument mergeCircle "" {} = .ok batch t ∧
    ∃ m ∈ t.merges, m.finished = [] ∧
      t.graph.shape? (some m.node) = some (.object (t.graph.merged m.finished)) := by
  obtain ⟨batch, t, h, hm, -⟩ := readDocument_mergeCircle
  have hmem : (⟨3, [0], [0]⟩ : Merge) ∈ t.merges := by rw [hm]; exact List.mem_singleton_self _
  exact ⟨batch, t, h, _, hmem, rfl, (merged_fields rfl h hmem).1⟩

/-- A merged object need not have the fields that its parts have in the end. -/
theorem mergeCircle_loses : ∃ batch t, readDocument mergeCircle "" {} = .ok batch t ∧
    ∃ m ∈ t.merges, t.graph.fields (some m.node) ≠ t.graph.merged m.parts := by
  obtain ⟨batch, t, h, hm, hnone, htwo⟩ := readDocument_mergeCircle
  refine ⟨batch, t, h, ⟨3, [0], [0]⟩, by rw [hm]; exact List.mem_singleton_self _, fun he => ?_⟩
  have hx : "x" ∈ (t.graph.merged [0]).keys := by
    rw [Graph.mem_keys_merged]
    exact ⟨0, List.mem_singleton_self _, by rw [htwo]; exact List.mem_cons_self⟩
  rw [← he, hnone] at hx
  cases hx

end ShapeSdl
