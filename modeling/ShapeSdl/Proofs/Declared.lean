import ShapeSdl.Proofs.Merge

/-!
# Declared definitions

* `Session.nodes` : the definitions of a document with their nodes;
* `Graph.declares` : whether a definition becomes a declaration;
* `Settled.isOwn_iff`, `Settled.not_isOwn_root` : the node of a definition stands at the path of its
  root, unless the root is a union of one variant or a list of one type;
* `readDocument_batch` : the batch of a document;
* `Session.Naming`, `mem_keys_readDocument` : the definitions and the root that the names in a batch
  are made of.
-/

namespace ShapeSdl

def Session.nodes (s : Session) (definitions : Definitions) : List (String × NodeId) :=
  definitions.filterMap fun d => (s.known.get? d.1).map fun id => (d.1, id)

/-- Whether a definition becomes a declaration, among all of a document. -/
def Graph.declares (g : Graph) (nodes : List (String × NodeId)) (d : String × NodeId) : Bool :=
  (g.isOwn d || !((nodes.filter g.isOwn).map Prod.snd).contains d.2) && g.isDeclarable d.2

theorem Graph.declared_eq (g : Graph) (nodes : List (String × NodeId)) : g.declared nodes =
    (nodes.filter (g.declares nodes)).map fun d => (TypeName.pascal d.1, some d.2) := rfl

theorem Session.mem_nodes {s : Session} {definitions : Definitions} {d : String × NodeId} :
    d ∈ s.nodes definitions ↔ (∃ body, (d.1, body) ∈ definitions) ∧ s.known.get? d.1 = some d.2 := by
  rw [nodes, List.mem_filterMap]
  constructor
  · rintro ⟨⟨name, body⟩, hmem, h⟩
    obtain ⟨id, hid, rfl⟩ := Option.map_eq_some_iff.1 h
    exact ⟨⟨body, hmem⟩, hid⟩
  · rintro ⟨⟨body, hmem⟩, hid⟩
    exact ⟨_, hmem, Option.map_eq_some_iff.2 ⟨_, hid, rfl⟩⟩

theorem Session.nodes_cons {s : Session} {d : String × Json} {id : NodeId}
    (h : s.known.get? d.1 = some id) (rest : Definitions) :
    s.nodes (d :: rest) = (d.1, id) :: s.nodes rest := by
  rw [nodes, List.filterMap_cons, h]
  rfl

/-- Reading the definitions of a document gives their nodes. -/
theorem Reads.nodes_eq {definitions ds : Definitions} {s t : Session} {ids : List NodeId}
    (h : Reads definitions [] (.all (Definitions.jobs ds)) s ids t) (hs : s.Sane) :
    (ds.map Prod.fst).zip ids = t.nodes ds := by
  induction ds generalizing s ids with
  | nil => rfl
  | cons d rest ih =>
    cases h with
    | cons first hrest =>
      have hk := (hrest.grows (first.sane hs)).1.known _ _ (first.known_of_definition hs)
      rw [List.map_cons, List.zip_cons_cons, ih hrest (first.sane hs), Session.nodes_cons hk]

/-! ## Whose path a node stands at -/

theorem Definitions.path_inj {name other : String} : path name = path other ↔ name = other := by
  unfold path
  exact String.append_right_inj _

theorem Graph.isOwn_iff {g : Graph} {n : Node} {id : NodeId} (h : g.node? (some id) = some n)
    {name : String} : g.isOwn (name, id) = true ↔ n.path = Definitions.path name := by
  rw [Graph.isOwn, h, Option.any_some, decide_eq_true_iff]

namespace Settled

variable {definitions : Definitions} {own : String → List NodeId} {s : Session}
  {name root : String} {id : NodeId} {body : Json}

/-- The node of a definition stands where its root's outline says. -/
theorem path_eq (S : Settled definitions own s) (hk : s.known.get? name = some id)
    (hr : definitions.Root name root) (hd : definitions.lookup root = some body) :
    ∃ n, s.graph.node? (some id) = some n ∧
      (body.outline (Definitions.path root)).path? = some n.path := by
  obtain ⟨body', _, hd', -, hb⟩ := S.built root id (S.known_root hk hr) List.not_mem_nil
  cases hd.symm.trans hd'
  have ho : ∀ ref path, body.outline (Definitions.path root) ≠ .reference ref path := by
    intro ref path ho
    have ha := hr.isAlias
    rw [Definitions.isAlias, hd, Option.any_some, ho] at ha
    cases ha
  obtain ⟨path, hp⟩ := hb.path? ho
  obtain ⟨-, n, hn, rfl⟩ := hb.last hp
  exact ⟨n, hn, hp⟩

/-- Whether the node of a definition can be declared does not change any more. -/
theorem isDeclarable_grows (S : Settled definitions own s) (hk : s.known.get? name = some id)
    {g : Graph} (hg : s.graph.Grows g) : g.isDeclarable id = s.graph.isDeclarable id := by
  obtain ⟨root, hr, hroot⟩ := S.rooted name id hk
  obtain ⟨body, _, hd, -, hb⟩ := S.built root id hroot List.not_mem_nil
  obtain ⟨n, hn, hp⟩ := S.path_eq hk hr hd
  rw [Graph.isDeclarable, Graph.isDeclarable, hg.shape? (S.sane name id hk)]
  cases hshape : s.graph.shape? (some id) with
  | none => rfl
  | some shape =>
    cases shape with
    | union variants =>
      dsimp only
      congr 1
      rw [Bool.eq_iff_iff, List.all_eq_true, List.all_eq_true]
      refine forall₂_congr fun r hr => ?_
      obtain ⟨i, hi, rfl⟩ := hb.variant_lt hp S.sane (S.lt root) hshape r hr
      rw [hg.isObject hi]
    | _ => rfl

/-- A node stands at the path of its root alone. -/
theorem isOwn_iff (S : Settled definitions own s) (hk : s.known.get? name = some id)
    (hr : definitions.Root name root) (hd : definitions.lookup root = some body)
    (hs : body.isSingle = false) (other : String) :
    s.graph.isOwn (other, id) = true ↔ other = root := by
  obtain ⟨n, hn, hp⟩ := S.path_eq hk hr hd
  rw [Graph.isOwn_iff hn, Json.standsAt_outline hs _ _ hp, Definitions.path_inj]
  exact eq_comm

/-- A node of a union of one variant or a list of one type does not stand at the path of its root. -/
theorem not_isOwn_root (S : Settled definitions own s) (hk : s.known.get? name = some id)
    (hr : definitions.Root name root) (hd : definitions.lookup root = some body)
    (hs : body.isSingle = true) : s.graph.isOwn (root, id) = false := by
  obtain ⟨n, hn, hp⟩ := S.path_eq hk hr hd
  obtain ⟨rest, hrest⟩ := Json.standsBelow_outline hs _ _ hp
  rw [Bool.eq_false_iff, Ne, Graph.isOwn_iff hn, hrest]
  intro he
  have hl := congrArg String.length he
  simp only [String.length_append] at hl
  have : "/".length = 1 := rfl
  omega

/-- A definition that is no alias and not single is declared if its node can be. -/
theorem declares_root (S : Settled definitions own s) (hk : s.known.get? name = some id)
    (hr : definitions.Root name root) (hd : definitions.lookup root = some body)
    (hs : body.isSingle = false) (nodes : List (String × NodeId)) :
    s.graph.declares nodes (root, id) = s.graph.isDeclarable id := by
  rw [Graph.declares, (S.isOwn_iff hk hr hd hs root).2 rfl, Bool.true_or, Bool.true_and]

/-- An alias of a definition that is not single is not declared. -/
theorem not_declares_alias (S : Settled definitions own s) (hk : s.known.get? name = some id)
    (hr : definitions.Root name root) (hd : definitions.lookup root = some body)
    (hs : body.isSingle = false) (hne : name ≠ root) :
    s.graph.declares (s.nodes definitions) (name, id) = false := by
  have hown := S.isOwn_iff hk hr hd hs
  have hroot : (root, id) ∈ s.nodes definitions :=
    Session.mem_nodes.2 ⟨⟨body, Definitions.mem_of_lookup hd⟩, S.known_root hk hr⟩
  have hname : s.graph.isOwn (name, id) = false := Bool.eq_false_iff.2 (mt (hown name).1 hne)
  have hmem : id ∈ ((s.nodes definitions).filter s.graph.isOwn).map Prod.snd :=
    List.mem_map.2 ⟨(root, id), List.mem_filter.2 ⟨hroot, (hown root).2 rfl⟩, rfl⟩
  rw [Graph.declares, hname, List.contains_iff_mem.2 hmem]
  rfl

theorem exists_declares_alias (S : Settled definitions own s) (hk : s.known.get? name = some id)
    (hr : definitions.Root name root) (hd : definitions.lookup root = some body)
    (hs : body.isSingle = true) (ha : definitions.isAlias name = true)
    (hdecl : s.graph.isDeclarable id = true) :
    ∃ d ∈ s.nodes definitions, definitions.isAlias d.1 = true ∧
      s.graph.declares (s.nodes definitions) d = true := by
  by_cases hmem : id ∈ ((s.nodes definitions).filter s.graph.isOwn).map Prod.snd
  · obtain ⟨d, hd', rfl⟩ := List.mem_map.1 hmem
    obtain ⟨hd', hown⟩ := List.mem_filter.1 hd'
    obtain ⟨other, id⟩ := d
    refine ⟨(other, id), hd', ?_, by rw [Graph.declares, hown, hdecl]; rfl⟩
    obtain ⟨r, hr', -⟩ := S.rooted other id (Session.mem_nodes.1 hd').2
    cases S.root_eq (Session.mem_nodes.1 hd').2 hk hr' hr
    rw [← Bool.not_eq_false]
    intro hself
    cases hr'.eq_self hself
    rw [S.not_isOwn_root hk hr hd hs] at hown
    cases hown
  · obtain ⟨alias_, hl⟩ := Definitions.lookup_of_isAlias ha
    have hname := Definitions.mem_of_lookup hl
    refine ⟨(name, id), Session.mem_nodes.2 ⟨⟨alias_, hname⟩, hk⟩, ha, ?_⟩
    rw [Graph.declares, hdecl, Bool.and_true, Bool.or_eq_true]
    right
    rw [Bool.not_eq_true', ← Bool.not_eq_true, List.contains_iff_mem]
    exact hmem

end Settled

/-! ## Batches -/

/-- The definition that is declared last under a type name. -/
def Graph.lastDeclared (g : Graph) (nodes : List (String × NodeId)) (type : String) :
    Option (String × NodeId) :=
  (nodes.filter (g.declares nodes)).reverse.find? fun d => TypeName.pascal d.1 = type

theorem Graph.get?_declared (g : Graph) (nodes : List (String × NodeId)) (type : String) :
    (Entries.ofList (g.declared nodes)).get? type =
      (g.lastDeclared nodes type).map fun d => some d.2 := by
  rw [Entries.get?_ofList, declared_eq, ← List.map_reverse]
  exact Entries.lookup_map _ _ _ _

theorem Graph.mem_of_lastDeclared {g : Graph} {nodes : List (String × NodeId)} {type : String}
    {d : String × NodeId} (h : g.lastDeclared nodes type = some d) :
    d ∈ nodes ∧ g.declares nodes d = true ∧ TypeName.pascal d.1 = type := by
  obtain ⟨hname, -⟩ := List.find?_eq_some_iff_append.1 h
  have hmem := List.mem_filter.1 (List.mem_reverse.1 (List.mem_of_find?_eq_some h))
  exact ⟨hmem.1, hmem.2, of_decide_eq_true hname⟩

namespace Settled

variable {definitions : Definitions} {own : String → List NodeId} {s t : Session}

theorem declared_grows (S : Settled definitions own s) {g : Graph} (hg : s.graph.Grows g)
    (ds : Definitions) : g.declared (s.nodes ds) = s.graph.declared (s.nodes ds) := by
  have hown : ∀ d ∈ s.nodes ds, g.isOwn d = s.graph.isOwn d := fun d hd => by
    rw [Graph.isOwn, hg.node? _ (S.sane _ _ (Session.mem_nodes.1 hd).2), Graph.isOwn]
  rw [Graph.declared_eq, Graph.declared_eq]
  congr 1
  apply List.filter_congr
  intro d hd
  rw [Graph.declares, Graph.declares, hown d hd, List.filter_congr hown,
    S.isDeclarable_grows (Session.mem_nodes.1 hd).2 hg]

end Settled

theorem Session.nodes_grows {s t : Session} {definitions : Definitions}
    (h : ∀ d ∈ definitions, s.Knows d.1) (hg : s.Grows t) :
    t.nodes definitions = s.nodes definitions := by
  induction definitions with
  | nil => rfl
  | cons d rest ih =>
    obtain ⟨⟨id, hid⟩, hrest⟩ := List.forall_mem_cons.1 h
    rw [nodes_cons hid, nodes_cons (hg.known _ _ hid), ih hrest]

/-- The batch of a document: its declared definitions, and its root over them if it applies. The
definitions may be looked up in another order. -/
theorem readDocument_batch {schema : Json} {root : String} {s t : Session} {batch : Batch}
    {ds definitions : Definitions} (hd : schema.definitions = .ok ds)
    (hl : ∀ name, ds.lookup name = definitions.lookup name)
    (h : readDocument schema root s = .ok batch t) :
    ∃ own u, Settled definitions own u ∧ u.Grows t ∧ (∀ d ∈ ds, u.Knows d.1) ∧
      let declared := Entries.ofList (t.graph.declared (t.nodes ds))
      if (schema.get? "properties").isSome ∧ root ≠ "" then
        ∃ id, Reads definitions [] (.one (.outline (schema.outline "#"))) u [id] t ∧
          batch = declared.put (TypeName.pascal root) (some id)
      else batch = declared ∧ u = t := by
  obtain ⟨ds', ids, u, hd', hr, h⟩ := readDocument_eq_ok_iff.1 h
  cases hd.symm.trans hd'
  have hb := s.sane_begin
  obtain ⟨own, -, S, -⟩ := (Settled.begin definitions s).read (hr.congr hl)
  have hk : ∀ d ∈ ds, u.Knows d.1 := fun d hd =>
    hr.knows hb d.1 (List.mem_flatMap.2 ⟨.definition d.1, List.mem_map_of_mem hd,
      List.mem_singleton_self _⟩)
  have hsame : u.Grows t → t.graph.declared (t.nodes ds) = u.graph.declared (u.nodes ds) :=
    fun hg => by rw [Session.nodes_grows hk hg, S.declared_grows hg.toGrows]
  rw [hr.nodes_eq hb] at h
  dsimp only at h
  split at h
  · obtain ⟨id, hi, rfl⟩ := h
    have hg := (hi.grows S.sane).1
    refine ⟨own, u, S, hg, hk, ?_⟩
    rw [if_pos ‹_›, hsame hg]
    exact ⟨id, hi.congr hl, rfl⟩
  · obtain ⟨rfl, rfl⟩ := h
    refine ⟨own, u, S, .refl u, hk, ?_⟩
    rw [if_neg ‹_›]
    exact ⟨rfl, rfl⟩

/-- What a declaration of a document has its name from: a definition that is declared, or the
root. -/
def Session.Naming (t : Session) (schema : Json) (definitions : Definitions) (root name : String) :
    Prop :=
  (∃ id, (name, id) ∈ t.nodes definitions ∧
    t.graph.declares (t.nodes definitions) (name, id) = true) ∨
  ((schema.get? "properties").isSome = true ∧ root ≠ "") ∧ name = root

theorem Graph.mem_keys_declared {g : Graph} {nodes : List (String × NodeId)} {key : String} :
    key ∈ (Entries.ofList (g.declared nodes)).keys ↔
      ∃ name, (∃ id, (name, id) ∈ nodes ∧ g.declares nodes (name, id) = true) ∧
        TypeName.pascal name = key := by
  rw [Entries.mem_keys_ofList, declared_eq, List.map_map, List.mem_map]
  constructor
  · rintro ⟨⟨name, id⟩, hmem, rfl⟩
    exact ⟨name, ⟨id, List.mem_filter.1 hmem⟩, rfl⟩
  · rintro ⟨name, ⟨id, hmem⟩, rfl⟩
    exact ⟨(name, id), List.mem_filter.2 hmem, rfl⟩

theorem mem_keys_readDocument {schema : Json} {root key : String} {s t : Session} {batch : Batch}
    {definitions : Definitions} (hd : schema.definitions = .ok definitions)
    (h : readDocument schema root s = .ok batch t) :
    key ∈ batch.keys ↔ ∃ name, t.Naming schema definitions root name ∧ TypeName.pascal name = key := by
  obtain ⟨own, u, -, -, -, hb⟩ := readDocument_batch hd (fun _ => rfl) h
  dsimp only at hb
  split at hb <;> rename_i happ
  · obtain ⟨id, -, rfl⟩ := hb
    rw [Entries.mem_keys_put, Graph.mem_keys_declared]
    constructor
    · rintro (rfl | ⟨name, hname, rfl⟩)
      · exact ⟨root, .inr ⟨happ, rfl⟩, rfl⟩
      · exact ⟨name, .inl hname, rfl⟩
    · rintro ⟨name, hname | ⟨-, rfl⟩, rfl⟩
      · exact .inr ⟨name, hname, rfl⟩
      · exact .inl rfl
  · obtain ⟨rfl, -⟩ := hb
    rw [Graph.mem_keys_declared]
    refine exists_congr fun name => and_congr_left fun _ => ?_
    exact (or_iff_left fun hroot => happ hroot.1).symm

end ShapeSdl
