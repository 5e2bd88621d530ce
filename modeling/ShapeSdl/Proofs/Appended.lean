import ShapeSdl.Proofs.Alongside
import ShapeSdl.Proofs.Container
import ShapeSdl.Proofs.Names
import ShapeSdl.Proofs.Rendered

/-!
# Definitions that are appended

An object that nothing refers to is added after all definitions. What has compiled before compiles to
the same blocks, with one more among them.

* `Json.Appends` : a document, and the document with one more object definition;
* `Appends.read` : what was read is read again, and the new definition on its own;
* `compile_appended` : the new block stands after the blocks under names of definitions. What comes
  after it is the block of the root, if this has a name of its own.

The fields of the new object may refer to all definitions, but these have their nodes before it is
read. The root is read after it, and gets other nodes than it got before.
-/

namespace ShapeSdl

/-! ## Entries -/

namespace Entries

variable {α β : Type} [DecidableEq α]

theorem toList_ofList_append {l : List (α × β)} {k : α} {v : β} (h : k ∉ (ofList l).keys) :
    (ofList (l ++ [(k, v)])).toList = (ofList l).toList ++ [(k, v)] := by
  rw [ofList, putAll_append]
  exact toList_put_of_notMem h

theorem putPair_append_of_mem {k : α} {v : β} {xs : List (α × β)} (h : k ∈ xs.map Prod.fst)
    (ys : List (α × β)) : putPair k v (xs ++ ys) = putPair k v xs ++ ys := by
  induction xs with
  | nil => cases h
  | cons x rest ih =>
    obtain ⟨k', v'⟩ := x
    rw [List.cons_append, putPair, putPair]
    by_cases hk : k' = k
    · rw [if_pos hk, if_pos hk]
      rfl
    · rw [if_neg hk, if_neg hk, ih ((List.mem_cons.1 h).resolve_left fun he => hk he.symm)]
      rfl

end Entries

/-! ## Reading -/

theorem Definitions.lookup_append {ds : Definitions} {name : String} {b : Json}
    (h : ds.lookup name = some b) (more : Definitions) : (ds ++ more).lookup name = some b := by
  rw [List.lookup_append, h]
  rfl

theorem Definitions.restated_append (ds more : Definitions) :
    ds.Restated (ds ++ more) .constants := fun _ b h =>
  ⟨b, lookup_append h more, rfl, Json.matches_self ds .constants b⟩

/-- A document, and the document with one more definition of an object. -/
structure Json.Appends (schema schema' : Json) (ds : Definitions) (name : String) (body : Json) :
    Prop where
  left : schema.definitions = .ok ds
  right : schema'.definitions = .ok (ds ++ [(name, body)])
  fresh : ds.lookup name = none
  isPlain : body.isPlainObject = .ok true
  root : schema'.outline "#" = schema.outline "#"
  applies : schema'.get? "properties" = schema.get? "properties"

namespace Json.Appends

variable {schema schema' body : Json} {ds : Definitions} {name root : String} {batch batch' : Batch}
  {s t t' u v : Session} {ids : List NodeId} {id : NodeId}

theorem lookup_new (H : Appends schema schema' ds name body) :
    (ds ++ [(name, body)]).lookup name = some body := by
  rw [List.lookup_append, H.fresh, Entries.lookup_cons_ite, if_pos rfl]
  rfl

theorem reads (H : Appends schema schema' ds name body)
    (h : Reads ds [] (.all ds.jobs) s.begin ids u) {ids' : List NodeId}
    (h' : Reads (ds ++ [(name, body)]) [] (.all (Definitions.jobs (ds ++ [(name, body)]))) s.begin
      ids' v) : u.known.get? name = none ∧ ∃ j, Reads (ds ++ [(name, body)]) []
        (.one (.definition name)) u [j] v := by
  constructor
  · obtain ⟨own, -, S, -⟩ := (Settled.begin ds s).read h
    rw [Option.eq_none_iff_forall_ne_some]
    intro id hid
    obtain ⟨b, -, hb, -⟩ := S.built name id hid List.not_mem_nil
    cases H.fresh.symm.trans hb
  · rw [Definitions.jobs, List.map_append] at h'
    obtain ⟨before, after, m, hjobs, hnew, -⟩ := h'.of_append
    obtain ⟨-, rfl⟩ := (h.mono fun _ _ hb => Definitions.lookup_append hb _).unique hjobs
    cases hnew with
    | cons first rest =>
      cases rest
      exact ⟨_, first⟩

theorem size_le (H : Appends schema schema' ds name body) (hu : u.known.get? name = none)
    (h : Reads (ds ++ [(name, body)]) [] (.one (.definition name)) u [id] v) :
    u.graph.size ≤ id := by
  cases h with
  | known known => cases hu.symm.trans known
  | plain => exact le_refl _
  | other _ _ defined isOther =>
    cases H.lookup_new.symm.trans defined
    cases H.isPlain.symm.trans isOther

/-- The definitions are read side by side, and the new one gets a node that is not cast. -/
theorem replay (H : Appends schema schema' ds name body)
    (h : Reads ds [] (.all ds.jobs) s.begin ids u) {ids' : List NodeId}
    (h' : Reads (ds ++ [(name, body)]) [] (.all (Definitions.jobs (ds ++ [(name, body)]))) s.begin
      ids' v) (hp : u.Precedes t) : ∃ C j, v.known.get? name = some j ∧ u.graph.size ≤ j ∧
        j < v.graph.size ∧ u.Grows v ∧
          Replay ds .constants t (fun k => u.graph.size ≤ k ∧ k < v.graph.size) C u v := by
  have hs := h.sane s.sane_begin
  obtain ⟨C, ids₁, u₁, h₁, P⟩ := h.replay_definitions
    ((Definitions.restated_append ds [(name, body)]).rewritten nofun nofun) hp s
  obtain ⟨-, rfl⟩ := (h.mono fun _ _ hb => Definitions.lookup_append hb _).unique h₁
  obtain ⟨hu, j, hj⟩ := H.reads h h'
  have hg : u.Grows v := (hj.grows hs).1
  have hk := hj.known_of_definition hs
  refine ⟨C, j, hk, H.size_le hu hj, hj.sane hs name j hk, hg, ?_⟩
  have Q := P.grow (.refl u) rfl hg fun other hother => by
    obtain ⟨b, hb⟩ := Option.isSome_iff_exists.1 hother
    obtain ⟨id, hid⟩ := h.knows_definition s.sane_begin (Definitions.mem_of_lookup hb)
    rw [hid, hg.known other id hid]
  exact { Q with spared := fun k hk => ⟨hk.2, fun role i hij =>
    absurd (P.lt role i k hij).2 (Nat.not_lt.2 hk.1)⟩ }

/-- What is declared of the definitions is declared again, and the new one after it. -/
theorem declared (H : Appends schema schema' ds name body) {C : Casting} {spare : NodeId → Prop}
    {own own' : String → List NodeId} {j : NodeId}
    (P : Replay ds .constants t spare C t t') (S : Settled ds own t)
    (S' : Settled (ds ++ [(name, body)]) own' t') (hk : ∀ d ∈ ds, t'.Knows d.1)
    (hj : t'.known.get? name = some j) (hspare : spare j) :
    ∃ l, C.Twinned (t.graph.declared (t.nodes ds)) l ∧
      t'.graph.declared (t'.nodes (ds ++ [(name, body)])) = l ++ [(TypeName.pascal name, some j)] := by
  obtain ⟨l, hl, heq⟩ := P.declared nofun
    (fun _ _ hp => (Definitions.restated_append ds _).colocated.isOwn_eq S S' hp) hk [(name, j)]
    (List.forall_mem_singleton.2 hspare)
  have hp : (ds ++ [(name, body)]).IsPlain name := ⟨body, H.lookup_new, H.isPlain⟩
  have hdeclares : t'.graph.declares (t'.nodes ds ++ [(name, j)]) (name, j) = true := by
    rw [S'.declares_root hj hp.root_self H.lookup_new (Json.isSingle_of_isPlainObject H.isPlain)]
    exact Graph.isDeclarable_of_isObject (S'.isObject_of_isPlain hp hj)
  have hnodes : t'.nodes (ds ++ [(name, body)]) = t'.nodes ds ++ [(name, j)] := by
    rw [Session.nodes, List.filterMap_append]
    exact congrArg (t'.nodes ds ++ ·) (Session.nodes_cons hj [])
  refine ⟨l, hl, ?_⟩
  rw [hnodes, heq, List.filter_cons_of_pos hdeclares]
  rfl

end Json.Appends

/-- The names under which definitions are declared. -/
def Session.typeNames (s : Session) (ds : Definitions) : List String :=
  (Entries.ofList (s.graph.declared (s.nodes ds))).keys

/-- A batch, and a batch of twins with one more entry after those under the names `before`. -/
def Casting.Inserts (C : Casting) (before after : List String) (entry : String × Ref)
    (batch batch' : Batch) : Prop :=
  ∃ l₁ l₂ l₁' l₂', batch.toList = l₁ ++ l₂ ∧ batch'.toList = l₁' ++ entry :: l₂' ∧
    C.Twinned l₁ l₁' ∧ C.Twinned l₂ l₂' ∧ l₁.map Prod.fst = before ∧ l₂.map Prod.fst = after

namespace Casting

variable {C : Casting} {declared l : List (String × Ref)} {type key : String} {r r' : Ref} {j : NodeId}

theorem Twinned.map_fst {l l' : List (String × Ref)} (h : C.Twinned l l') :
    l.map Prod.fst = l'.map Prod.fst :=
  List.forall₂_eq_eq_eq ▸ List.forall₂_map_left_iff.2 (List.forall₂_map_right_iff.2
    (h.imp fun _ _ h => h.1))

theorem Twinned.ofList {l l' : List (String × Ref)} (h : C.Twinned l l') :
    C.Twinned (Entries.ofList l).toList (Entries.ofList l').toList :=
  Entries.forall₂_putAll (fun _ _ h => h.1) .nil h

theorem inserts_ofList (h : C.Twinned declared l)
    (hnew : type ∉ (Entries.ofList declared).keys) (r : Ref) :
    C.Inserts (Entries.ofList declared).keys [] (type, r) (Entries.ofList declared)
      (Entries.ofList (l ++ [(type, r)])) := by
  have htwins := h.ofList
  refine ⟨_, [], _, [], (List.append_nil _).symm, ?_, htwins, .nil, rfl, rfl⟩
  refine Entries.toList_ofList_append ?_
  rw [Entries.keys, ← htwins.map_fst]
  exact hnew

/-- The root comes in the place of what is declared under its name, or after the new one. -/
theorem inserts_put (h : C.Twinned declared l) {i : NodeId} (hij : C .twin i j)
    (hnew : type ∉ ((Entries.ofList declared).put key (some i)).keys) (r : Ref) :
    C.Inserts ((Entries.ofList declared).keys)
      (if key ∈ (Entries.ofList declared).keys then [] else [key]) (type, r)
      ((Entries.ofList declared).put key (some i))
      ((Entries.ofList (l ++ [(type, r)])).put key (some j)) := by
  have htwins := h.ofList
  obtain ⟨hne, hnot⟩ := not_or.1 (Entries.mem_keys_put.not.1 hnew)
  have hlast : (Entries.ofList (l ++ [(type, r)])).toList =
      (Entries.ofList l).toList ++ [(type, r)] := by
    refine Entries.toList_ofList_append ?_
    rw [Entries.keys, ← htwins.map_fst]
    exact hnot
  have hkeys : key ∈ (Entries.ofList declared).keys ↔ key ∈ (Entries.ofList l).toList.map Prod.fst := by
    rw [Entries.keys, htwins.map_fst]
  by_cases hkey : key ∈ (Entries.ofList declared).keys
  · rw [if_pos hkey]
    refine ⟨Entries.putPair key (some i) (Entries.ofList declared).toList, [],
      Entries.putPair key (some j) (Entries.ofList l).toList, [], (List.append_nil _).symm, ?_,
      Entries.forall₂_putPair (fun _ _ h => h.1) htwins ⟨rfl, .some hij⟩, .nil,
      Entries.map_fst_putPair_of_mem hkey, rfl⟩
    show Entries.putPair key (some j) (Entries.ofList (l ++ [(type, r)])).toList = _
    rw [hlast, Entries.putPair_append_of_mem (hkeys.1 hkey)]
  · rw [if_neg hkey]
    have hkey' : key ∉ (Entries.ofList (l ++ [(type, r)])).keys := by
      rw [Entries.keys, hlast, List.map_append, List.mem_append, ← hkeys, List.map_singleton,
        List.mem_singleton]
      exact not_or.2 ⟨hkey, fun h => hne h.symm⟩
    refine ⟨_, [(key, some i)], _, [(key, some j)], Entries.toList_put_of_notMem hkey, ?_, htwins,
      .cons ⟨rfl, .some hij⟩ .nil, rfl, rfl⟩
    rw [Entries.toList_put_of_notMem hkey', hlast, List.append_assoc]
    rfl

end Casting

/-- The names of the blocks that come after those of the definitions: that of the root, if it is
declared, and under a name of its own. -/
def Json.ownRootName (schema : Json) (root : String) (typeNames : List String) : List String :=
  if (schema.get? "properties").isSome ∧ root ≠ "" then
    if TypeName.pascal root ∈ typeNames then [] else [TypeName.pascal root]
  else []

namespace Json.Appends

variable {schema schema' body : Json} {ds : Definitions} {name root : String} {batch batch' : Batch}
  {t t' : Session}

/-- What was read of a document is read again, and the new object is declared after the
definitions. -/
theorem read (H : Appends schema schema' ds name body)
    (h : readDocument schema root {} = .ok batch t) (h' : readDocument schema' root {} = .ok batch' t')
    (hnew : TypeName.pascal name ∉ batch.keys) : ∃ C spare j,
      Replay ds .constants t spare C t t' ∧ spare j ∧ C.Inserts (t.typeNames ds)
        (schema.ownRootName root (t.typeNames ds)) (TypeName.pascal name, some j) batch batch' := by
  obtain ⟨own, S⟩ := readDocument_settled H.left h
  obtain ⟨own', S'⟩ := readDocument_settled H.right h'
  obtain ⟨ids, u, hr, hg, hbatch⟩ := (readDocument_eq_ok_iff_stages H.left).1 h
  obtain ⟨ids', v, hr', hg', hbatch'⟩ := (readDocument_eq_ok_iff_stages H.right).1 h'
  obtain ⟨C, j, hj, hle, hlt, -, P⟩ := H.replay hr hr' hg.precedes
  have hk : ∀ d ∈ ds, t'.Knows d.1 := fun d hd =>
    hg'.knows (hr'.knows_definition (Session.sane_begin {}) (List.mem_append_left _ hd))
  have hdeclared := fun (D : Casting)
      (Q : Replay ds .constants t (fun k => u.graph.size ≤ k ∧ k < v.graph.size) D t t') =>
    H.declared Q S S' hk (hg'.known name j hj) ⟨hle, hlt⟩
  dsimp only at hbatch hbatch'
  rw [H.applies] at hbatch'
  unfold Json.ownRootName
  split at hbatch <;> rename_i happ
  · rw [if_pos happ] at hbatch' ⊢
    obtain ⟨i, hi, rfl⟩ := hbatch
    obtain ⟨k, hk', rfl⟩ := hbatch'
    obtain ⟨D, k₁, t₁, hk₁, Q, hik⟩ := hi.replay_root
      ((Definitions.restated_append ds [(name, body)]).rewritten nofun nofun) P
      (hr.sane (Session.sane_begin {})) (matches_self ds .constants schema "#" "#").recast (.refl t)
    rw [H.root] at hk'
    obtain ⟨hids, rfl⟩ := hk₁.unique hk'
    cases hids
    obtain ⟨l, hl, heq⟩ := hdeclared D Q
    rw [heq]
    exact ⟨D, _, j, Q, ⟨hle, hlt⟩, Casting.inserts_put hl (hik.twin nofun nofun) hnew _⟩
  · rw [if_neg happ] at hbatch' ⊢
    obtain ⟨rfl, rfl⟩ := hbatch
    obtain ⟨rfl, rfl⟩ := hbatch'
    obtain ⟨l, hl, heq⟩ := hdeclared C P
    rw [heq]
    exact ⟨C, _, j, P, ⟨hle, hlt⟩, Casting.inserts_ofList hl hnew _⟩

end Json.Appends

/-! ## Compiling -/

theorem exists_append_of_forall₂ {α β : Type} {R : α → β → Prop} {l l' : List α} {m : List β}
    (h : List.Forall₂ R (l ++ l') m) :
    ∃ m₁ m₂, m = m₁ ++ m₂ ∧ List.Forall₂ R l m₁ ∧ List.Forall₂ R l' m₂ :=
  ⟨_, _, (List.take_append_drop l.length m).symm, (List.forall₂_take_append _ _ _ h.flip).flip,
    (List.forall₂_drop_append _ _ _ h.flip).flip⟩

theorem Context.map_name_of_declares {cx : Context} {l : List (String × Ref)} {document : Document}
    (h : List.Forall₂ (fun entry d => (cx.declare entry.1 entry.2).ending {} = .ok d) l document) :
    document.map Declaration.name = l.map Prod.fst := by
  have hdeclared : List.Forall₂ cx.Declared l document := by
    refine h.imp fun entry d hd => ?_
    obtain ⟨u, hu⟩ := Compiling.ending_eq_ok.1 hd
    exact (declare_sound hu).1
  exact map_name_of_declared hdeclared

theorem Json.appends_withDefinitions {schema body : Json} {container : List (String × Json)}
    {name : String} {ds : Definitions} (hd : schema.definitions = .ok ds)
    (hc : schema.definitionContainer = .obj container) (hne : container ≠ [])
    (hfresh : name ∉ container.map Prod.fst) (hcomment : isComment (name, body) = false)
    (hplain : body.isPlainObject = .ok true) :
    schema.Appends (schema.withDefinitions (container ++ [(name, body)])) ds name body := by
  have hempty : (container ++ [(name, body)]).isEmpty = container.isEmpty := by
    cases container with
    | nil => exact absurd rfl hne
    | cons => rfl
  obtain ⟨hds, hd'⟩ := definitions_withDefinitions hd hc hempty
  refine ⟨hd, ?_, ?_, hplain, outline_withDefinitions "#",
    get?_withDefinitions_of_ne (by decide) (by decide)⟩
  · rw [hd', List.filter_append, ← hds, List.filter_cons_of_pos (by rw [hcomment]; rfl)]
    rfl
  · rw [Option.eq_none_iff_forall_ne_some]
    intro b hb
    rw [hds] at hb
    exact hfresh (List.mem_map_of_mem (List.mem_filter.1 (Definitions.mem_of_lookup hb)).1)

/-- An object definition that nothing refers to is appended to the definitions of a document. If both
documents compile, and the name of the new one is not that of a block, then one block is added, and all
others are as they were. It stands after the blocks under names of definitions; what comes after it is
the block of the root, if no definition is declared under its name. -/
theorem compile_appended {schema body : Json} {container : List (String × Json)} {name root : String}
    {o : Options} {document document' : Document}
    (hc : schema.definitionContainer = .obj container) (hne : container ≠ [])
    (hfresh : name ∉ container.map Prod.fst) (hcomment : Json.isComment (name, body) = false)
    (hplain : body.isPlainObject = .ok true) (hseeds : o.registry = .ok ∅)
    (hold : (Compilation.ofSchema schema root o).result = .ok document)
    (hnew : (Compilation.ofSchema (schema.withDefinitions (container ++ [(name, body)])) root o).result =
      .ok document')
    (hname : TypeName.pascal name ∉ document.map Declaration.name) :
    ∃ ds batch t before block after, schema.definitions = .ok ds ∧
      readDocument schema root {} = .ok batch t ∧ document = before ++ after ∧
      document' = before ++ block :: after ∧ block.name = TypeName.pascal name ∧
      before.map Declaration.name = t.typeNames ds ∧
      after.map Declaration.name = schema.ownRootName root (t.typeNames ds) := by
  obtain ⟨batch, t, hread, -, hblocks⟩ := (Compilation.result_eq_ok_iff_blocks hseeds).1 hold
  obtain ⟨batch', t', hread', -, hblocks'⟩ := (Compilation.result_eq_ok_iff_blocks hseeds).1 hnew
  obtain ⟨ds, -, -, hd, -⟩ := readDocument_eq_ok_iff.1 hread
  have H := Json.appends_withDefinitions hd hc hne hfresh hcomment hplain
  rw [Context.map_name_of_declares hblocks] at hname
  obtain ⟨C, spare, j, P, hspare, l₁, l₂, l₁', l₂', hl, hl', h₁, h₂, hn₁, hn₂⟩ :=
    H.read hread hread' hname
  have hleft : C.Twinned batch.toList (l₁' ++ l₂') := by
    rw [hl]
    exact List.rel_append h₁ h₂
  have hright : batch'.toList = l₁' ++ [(TypeName.pascal name, some j)] ++ l₂' := by
    rw [hl', List.append_assoc]
    rfl
  have F := P.follows (readDocument_ordered H.right hread').1 rfl (fun role i k hik =>
    P.registry hleft hright (List.forall_mem_singleton.2 ⟨j, rfl, hspare⟩) hik) o
  rw [hl] at hblocks
  rw [hl'] at hblocks'
  obtain ⟨before, after, rfl, hbefore, hafter⟩ := exists_append_of_forall₂ hblocks
  obtain ⟨before', rest, rfl, hbefore', hrest⟩ := exists_append_of_forall₂ hblocks'
  obtain ⟨block, after', hblock, hafter', rfl⟩ := List.forall₂_cons_left_iff.1 hrest
  -- Twins are declared alike, and so the blocks before and after the new one are the old ones.
  have hsame : ∀ {l l' : List (String × Ref)} {blocks blocks' : Document}, C.Twinned l l' →
      List.Forall₂ (fun entry d => (Context.declare ⟨t.graph, batch.registry, o⟩ entry.1 entry.2).ending
        {} = .ok d) l blocks →
      List.Forall₂ (fun entry d => (Context.declare ⟨t'.graph, batch'.registry, o⟩ entry.1
        entry.2).ending {} = .ok d) l' blocks' → blocks = blocks' := by
    intro l l' blocks blocks' htwins hd hd'
    have hmap := (Except.mapM_eq_ok_iff.2 (F.declares rfl P.fields htwins hd)).symm.trans
      (Except.mapM_eq_ok_iff.2 hd')
    exact Except.ok.inj hmap
  cases hsame h₁ hbefore hbefore'
  cases hsame h₂ hafter hafter'
  refine ⟨ds, batch, t, before, block, after, hd, hread, rfl, rfl, ?_,
    (Context.map_name_of_declares hbefore).trans hn₁, (Context.map_name_of_declares hafter).trans hn₂⟩
  obtain ⟨w, hw⟩ := Compiling.ending_eq_ok.1 hblock
  exact (Context.declare_sound hw).1.name_eq

def petContainer : List (String × Json) :=
  [("pet", .obj [("type", .str "object"), ("properties", .obj [("a", .obj [("type", .str "string")])])])]

def dogBody : Json :=
  .obj [("type", .str "object"), ("properties", .obj [("c", .obj [("type", .str "string")])])]

/-- A root with a name of its own stays behind the new block. -/
theorem compile_appended_dog : ∃ before block after,
    (Compilation.ofSchema rootNamesake "owner" {}).result = .ok (before ++ after) ∧
    (Compilation.ofSchema (rootNamesake.withDefinitions (petContainer ++ [("dog", dogBody)])) "owner"
      {}).result = .ok (before ++ block :: after) ∧
    block.name = "Dog" ∧ before.map Declaration.name = ["Pet"] ∧
    after.map Declaration.name = ["Owner"] := by
  have hold : (Compilation.ofSchema rootNamesake "owner" {}).result =
      .ok [.type "Pet" [("a", .named (.str "String"))],
        .type "Owner" [("b", .named (.str "String"))]] := by decide +kernel
  have hnew : (Compilation.ofSchema (rootNamesake.withDefinitions (petContainer ++
      [("dog", dogBody)])) "owner" {}).result =
        .ok [.type "Pet" [("a", .named (.str "String"))],
          .type "Dog" [("c", .named (.str "String"))],
          .type "Owner" [("b", .named (.str "String"))]] := by decide +kernel
  obtain ⟨ds, batch, t, before, block, after, hd, hread, hdocument, hdocument', hblock, hbefore, hafter⟩ :=
    compile_appended rfl (by decide) (by decide) (by decide) rfl rfl hold hnew (by decide +kernel)
  cases hd
  obtain ⟨batch', t', hread', ht⟩ := Reading.exists_ok (x := readDocument rootNamesake "owner" {})
    (p := fun _ t => decide (t.typeNames petContainer = ["Pet"])) (by decide +kernel)
  cases hread.symm.trans hread'
  have hnames : t.typeNames petContainer = ["Pet"] := of_decide_eq_true ht
  refine ⟨before, block, after, hdocument ▸ hold, hdocument' ▸ hnew, hblock.trans (by decide +kernel),
    hbefore.trans hnames, hafter.trans ?_⟩
  exact (congrArg _ hnames).trans (by decide +kernel)

/-- A root under the name of a definition has its place, and the new block comes after that of the
root. -/
theorem appended_afterRoot : ∃ document document',
    (Compilation.ofSchema rootNamesake "pet" {}).result = .ok document ∧
    (Compilation.ofSchema (rootNamesake.withDefinitions (petContainer ++ [("puppy", dogBody)])) "pet"
      {}).result = .ok document' ∧
    document.map Declaration.text = ["type Pet \x7b\n  b: String\n\x7d"] ∧
    ¬ ∃ before block after, document = before ++ after ∧ document' = before ++ block :: after ∧
      block.name = "Puppy" ∧ TypeName.pascal "pet" ∉ before.map Declaration.name := by
  refine ⟨[.type "Pet" [("b", .named (.str "String"))]],
    [.type "Pet" [("b", .named (.str "String"))],
      .type "Puppy" [("c", .named (.str "String"))]],
    by decide +kernel, by decide +kernel, rfl, ?_⟩
  rintro ⟨before, block, after, -, hdocument', hblock, hnot⟩
  cases before with
  | nil =>
    obtain ⟨rfl, -⟩ := List.cons.inj hdocument'
    exact absurd hblock (by decide)
  | cons first rest =>
    obtain ⟨rfl, -⟩ := List.cons.inj hdocument'
    exact hnot (List.mem_cons.2 (.inl (by decide +kernel)))

end ShapeSdl
