import ShapeSdl.Proofs.Replay

/-!
# Parts that are regrouped

Some parts of a merged object may be merged on their own first. What is read then has more nodes, but
the same fields.

* `Piece` : one job, several jobs, or parts that are merged;
* `Piece.Regrouped` : a piece that says the same with its parts in other groups, at any depth;
* `Session.Beside` : two sessions that have been read side by side;
* `Piece.Retells` : whatever is read of one piece can be read of another one beside it. Jobs give
  twins, and the parts of an object fields that are related;
* `Regrouped.retells` : a regrouped piece retells the other one.

A group of parts is read where one part is expected, or the other way round, so there is no relation
between single parts. What related parts share is what they give together (`Graph.merged_append`).
-/

namespace ShapeSdl

/-- One job, several jobs, or the parts of a merged object. -/
inductive Piece where
  | job (job : Job)
  | each (jobs : List Job)
  | parts (os : List Outline)

namespace Piece

/-- A piece that says the same at other paths, with parts of merged objects in other groups. -/
inductive Regrouped : Piece → Piece → Prop
  | fault {f f'} : Regrouped (.job (.outline (.fault f))) (.job (.outline (.fault f')))
  | refused {o o' f f'} : Regrouped (.job (.outline (.refused o f))) (.job (.outline (.refused o' f')))
  | reference {ref path path'} :
      Regrouped (.job (.outline (.reference ref path))) (.job (.outline (.reference ref path')))
  | leaf {n n' h h'} (shape : n.shape = n'.shape) :
      Regrouped (.job (.outline (.leaf n h))) (.job (.outline (.leaf n' h')))
  | wrapper {path path' kind value o o'} (inside : Regrouped (.job (.outline o)) (.job (.outline o'))) :
      Regrouped (.job (.outline (.wrapper path kind value o)))
        (.job (.outline (.wrapper path' kind value o')))
  | list {path path' metadata metadata' o o'}
      (inside : Regrouped (.job (.outline o)) (.job (.outline o'))) :
      Regrouped (.job (.outline (.list path metadata o))) (.job (.outline (.list path' metadata' o')))
  | union {path path' metadata metadata' os os'}
      (inside : Regrouped (.each (os.map .outline)) (.each (os'.map .outline))) :
      Regrouped (.job (.outline (.union path metadata os)))
        (.job (.outline (.union path' metadata' os')))
  | object {path path' metadata metadata' fields fields'}
      (names : fields.map Prod.fst = fields'.map Prod.fst)
      (inside : Regrouped (.each (Outline.fieldJobs fields)) (.each (Outline.fieldJobs fields'))) :
      Regrouped (.job (.outline (.object path metadata fields)))
        (.job (.outline (.object path' metadata' fields')))
  | merge {path path' metadata metadata' os os'} (inside : Regrouped (.parts os) (.parts os')) :
      Regrouped (.job (.outline (.merge path metadata os)))
        (.job (.outline (.merge path' metadata' os')))
  | definition {name} : Regrouped (.job (.definition name)) (.job (.definition name))
  | nil : Regrouped (.each []) (.each [])
  | cons {job job' jobs jobs'} (first : Regrouped (.job job) (.job job'))
      (rest : Regrouped (.each jobs) (.each jobs')) :
      Regrouped (.each (job :: jobs)) (.each (job' :: jobs'))
  | noPart : Regrouped (.parts []) (.parts [])
  | part {o o' os os'} (first : Regrouped (.job (.outline o)) (.job (.outline o')))
      (rest : Regrouped (.parts os) (.parts os')) : Regrouped (.parts (o :: os)) (.parts (o' :: os'))
  /-- Parts for a group of them. -/
  | opened {path metadata group os before after} (first : Regrouped (.parts group) (.parts before))
      (rest : Regrouped (.parts os) (.parts after)) :
      Regrouped (.parts (.merge path metadata group :: os)) (.parts (before ++ after))
  /-- A group for some parts. -/
  | grouped {path metadata group os before after} (first : Regrouped (.parts before) (.parts group))
      (rest : Regrouped (.parts after) (.parts os)) :
      Regrouped (.parts (before ++ after)) (.parts (.merge path metadata group :: os))

theorem Regrouped.symm {p p' : Piece} (h : p.Regrouped p') : p'.Regrouped p := by
  induction h with
  | fault => exact .fault
  | refused => exact .refused
  | reference => exact .reference
  | leaf shape => exact .leaf shape.symm
  | wrapper _ ih => exact .wrapper ih
  | list _ ih => exact .list ih
  | union _ ih => exact .union ih
  | object names _ ih => exact .object names.symm ih
  | merge _ ih => exact .merge ih
  | definition => exact .definition
  | nil => exact .nil
  | cons _ _ ih₁ ih₂ => exact .cons ih₁ ih₂
  | noPart => exact .noPart
  | part _ _ ih₁ ih₂ => exact .part ih₁ ih₂
  | opened _ _ ih₁ ih₂ => exact .grouped ih₁ ih₂
  | grouped _ _ ih₁ ih₂ => exact .opened ih₁ ih₂

/-- Reading the piece takes session `s` to session `t` and gives the nodes `ids`. Parts give objects. -/
def Gives (definitions : Definitions) (stack : List String) :
    Piece → Session → List NodeId → Session → Prop
  | .job j, s, ids, t => Reads definitions stack (.one j) s ids t
  | .each js, s, ids, t => Reads definitions stack (.all js) s ids t
  | .parts os, s, ids, t => Reads definitions stack (.all (os.map .outline)) s ids t ∧
      ∀ id ∈ ids, t.graph.isObject (some id) = true

/-- The nodes of two such pieces are twins, or those of parts have related fields together. -/
def Agree (C : Casting) (g g' : Graph) : Piece → List NodeId → List NodeId → Prop
  | .job _, ids, ids' | .each _, ids, ids' => List.Forall₂ (C .twin) ids ids'
  | .parts _, ids, ids' => C.Fields (g.merged ids) (g'.merged ids')

end Piece

/-- Every definition is there with its parts in other groups. -/
def Definitions.Regrouped (ds ds' : Definitions) : Prop :=
  ∀ name body, ds.lookup name = some body → ∃ body', ds'.lookup name = some body' ∧
    body.isPlainObject = body'.isPlainObject ∧
      Piece.Regrouped (.job (.outline (body.outline (Definitions.path name))))
        (.job (.outline (body'.outline (Definitions.path name))))

/-- Two sane sessions that have been read side by side, the first of which will become `e`. -/
structure Session.Beside (s : Session) (ds : Definitions) (e : Session) (C : Casting) (s' : Session) :
    Prop where
  replay : Replay ds .constants e (fun _ => False) C s s'
  left : s.Sane
  right : s'.Sane

namespace Piece

/-- Whatever is read of piece `p` can be read of piece `p'`, where the two have been read side by side
before. -/
def Retells (ds ds' : Definitions) (e : Session) (stack : List String) (p p' : Piece) : Prop :=
  ∀ ⦃C : Casting⦄ ⦃s s' : Session⦄ ⦃ids : List NodeId⦄ ⦃t : Session⦄,
    p.Gives ds stack s ids t → s.Beside ds e C s' → t.Precedes e → ∃ D ids' t',
      C ≤ D ∧ p'.Gives ds' stack s' ids' t' ∧ t.Beside ds e D t' ∧
        p.Agree D t.graph t'.graph ids ids'

end Piece

section
variable {ds ds' : Definitions} {e s s' t t' u u' : Session} {C D : Casting} {stack : List String}
  {p p' : Piece} {i j : NodeId} {ids ids' : List NodeId} {name : String} {job job' : Job}
  {jobs jobs' : List Job}

/-! ## The steps of the two readings -/

namespace Session.Beside

theorem congr (h : s.Beside ds e C s') (hg : t.graph = s.graph) (hk : t.known = s.known)
    (hg' : t'.graph = s'.graph) (hk' : t'.known = s'.known) : t.Beside ds e C t' where
  replay := h.replay.congr hg hk hg' hk'
  left name id hid := hg ▸ h.left name id (hk ▸ hid)
  right name id hid := hg' ▸ h.right name id (hk' ▸ hid)

theorem push (h : s.Beside ds e C s') (n n' : Node) (he : (s.add n).Precedes e)
    (hres : n.shape.Resembles C n'.shape) (hfields : ∀ fields fields', n.shape = .object fields →
      n'.shape = .object fields' → C.Fields fields fields') :
    (s.add n).Beside ds e (C.put .twin s.graph.size s'.graph.size) (s'.add n') where
  replay := h.replay.push .twin n n' he (fun _ => hres) nofun fun _ => hfields
  left := Session.sane_add h.left n
  right := Session.sane_add h.right n'

/-- The first reading makes a node for a group of parts. -/
theorem groupLeft (h : s.Beside ds e C s') (path : String) (metadata : List (String × Json))
    (fields : Entries String Ref) (parts : List NodeId) :
    (s.addMerged path metadata fields parts).Beside ds e C s' where
  replay := h.replay.grow (s.grows_addMerged ..) rfl (.refl s') fun _ _ => rfl
  left := Session.sane_add h.left ⟨path, metadata, .object fields⟩
  right := h.right

theorem groupRight (h : s.Beside ds e C s') (path : String) (metadata : List (String × Json))
    (fields : Entries String Ref) (parts : List NodeId) :
    s.Beside ds e C (s'.addMerged path metadata fields parts) where
  replay := h.replay.grow (.refl s) rfl (s'.grows_addMerged ..) fun _ _ => rfl
  left := h.left
  right := Session.sane_add h.right ⟨path, metadata, .object fields⟩

theorem known (h : s.Beside ds e C s') (hk : s.known.get? name = some i) :
    ∃ j, s'.known.get? name = some j ∧ C .twin i j := by
  obtain ⟨j, hj, hij | ⟨-, _, ⟨⟩, -⟩⟩ := h.replay.known name i hk nofun
  exact ⟨j, hj, hij⟩

end Session.Beside

theorem Piece.Agree.singleton {g g' : Graph} (h : (Piece.job job).Agree C g g' [i] ids') :
    ∃ j, ids' = [j] ∧ C .twin i j := by
  obtain ⟨j, _, hij, hnil, rfl⟩ := List.forall₂_cons_left_iff.1 h
  cases hnil
  exact ⟨j, rfl, hij⟩

theorem Session.Grows.merged_eq (h : s.Grows t)
    (hobjects : ∀ id ∈ ids, s.graph.isObject (some id) = true) :
    t.graph.merged ids = s.graph.merged ids := by
  refine Graph.merged_congr fun id hid => h.fields ?_
  obtain ⟨fields, hf⟩ := Graph.isObject_iff.1 (hobjects id hid)
  exact Graph.lt_of_shape? hf

theorem Session.Grows.objects (h : s.Grows t)
    (hobjects : ∀ id ∈ ids, s.graph.isObject (some id) = true) :
    ∀ id ∈ ids, t.graph.isObject (some id) = true :=
  fun id hid => h.precedes.isObject (hobjects id hid)

namespace Piece

namespace Retells

/-! ### New nodes -/

theorem leaf {n n' : Node} {h : n.shape.isLeaf = true} {h' : n'.shape.isLeaf = true}
    (shape : n.shape = n'.shape) :
    Retells ds ds' e stack (.job (.outline (.leaf n h))) (.job (.outline (.leaf n' h'))) := by
  rintro C s s' _ _ ⟨⟩ hb he
  refine ⟨_, _, _, C.le_put _ _ _, .leaf, hb.push n n' he (shape ▸ .leaf h) ?_,
    .cons (C.put_self ..) .nil⟩
  intro fields _ hobject
  rw [hobject] at h
  cases h

theorem wrapper {path path' : String} {kind : WrapperKind} {value : Json} {o o' : Outline}
    (ih : Retells ds ds' e stack (.job (.outline o)) (.job (.outline o'))) :
    Retells ds ds' e stack (.job (.outline (.wrapper path kind value o)))
      (.job (.outline (.wrapper path' kind value o'))) := by
  rintro C s s' _ _ hread hb he
  cases hread with
  | @wrapper _ _ t _ _ _ _ i inside =>
    have hg := t.grows_add ⟨path, [], .wrapper kind (some i) value⟩
    obtain ⟨D, _, t', hle, hread', hb', hagree⟩ := ih inside hb (hg.precedes.trans he)
    obtain ⟨j, rfl, hij⟩ := hagree.singleton
    exact ⟨_, _, _, hle.trans (D.le_put _ _ _), .wrapper hread',
      hb'.push _ ⟨path', [], .wrapper kind (some j) value⟩ he (.wrapper (.inl hij)) nofun,
      .cons (D.put_self ..) .nil⟩

theorem list {path path' : String} {metadata metadata' : List (String × Json)} {o o' : Outline}
    (ih : Retells ds ds' e stack (.job (.outline o)) (.job (.outline o'))) :
    Retells ds ds' e stack (.job (.outline (.list path metadata o)))
      (.job (.outline (.list path' metadata' o'))) := by
  rintro C s s' _ _ hread hb he
  cases hread with
  | @list _ _ t _ _ _ i inside =>
    have hg := t.grows_add ⟨path, metadata, .list (some i)⟩
    obtain ⟨D, _, t', hle, hread', hb', hagree⟩ := ih inside hb (hg.precedes.trans he)
    obtain ⟨j, rfl, hij⟩ := hagree.singleton
    exact ⟨_, _, _, hle.trans (D.le_put _ _ _), .list hread',
      hb'.push _ ⟨path', metadata', .list (some j)⟩ he (.list ⟨_, hij⟩) nofun,
      .cons (D.put_self ..) .nil⟩

theorem union {path path' : String} {metadata metadata' : List (String × Json)} {os os' : List Outline}
    (ih : Retells ds ds' e stack (.each (os.map .outline)) (.each (os'.map .outline))) :
    Retells ds ds' e stack (.job (.outline (.union path metadata os)))
      (.job (.outline (.union path' metadata' os'))) := by
  rintro C s s' _ _ hread hb he
  cases hread with
  | @union _ _ t _ _ _ ids inside =>
    have hg := t.grows_add ⟨path, metadata, .union (ids.map some)⟩
    obtain ⟨D, ids', t', hle, hread', hb', hagree⟩ := ih inside hb (hg.precedes.trans he)
    have htwins : List.Forall₂ D.Firm ids ids' := List.Forall₂.imp (fun _ _ h => .inl h) hagree
    exact ⟨_, _, _, hle.trans (D.le_put _ _ _), .union hread',
      hb'.push _ ⟨path', metadata', .union (ids'.map some)⟩ he (.union htwins) nofun,
      .cons (D.put_self ..) .nil⟩

theorem object {path path' : String} {metadata metadata' : List (String × Json)}
    {fields fields' : List (String × Outline)} (names : fields.map Prod.fst = fields'.map Prod.fst)
    (ih : Retells ds ds' e stack (.each (Outline.fieldJobs fields)) (.each (Outline.fieldJobs fields'))) :
    Retells ds ds' e stack (.job (.outline (.object path metadata fields)))
      (.job (.outline (.object path' metadata' fields'))) := by
  rintro C s s' _ _ hread hb he
  cases hread with
  | @object _ _ t _ _ _ ids inside =>
    have hg := t.grows_add ⟨path, metadata, .object (Outline.fieldRefs fields ids)⟩
    obtain ⟨D, ids', t', hle, hread', hb', hagree⟩ := ih inside hb (hg.precedes.trans he)
    have hcast : List.Forall₂ D.Cast ids ids' := List.Forall₂.imp (fun _ _ h => ⟨_, h⟩) hagree
    refine ⟨_, _, _, hle.trans (D.le_put _ _ _), .object hread',
      hb'.push _ ⟨path', metadata', .object (Outline.fieldRefs fields' ids')⟩ he .object ?_,
      .cons (D.put_self ..) .nil⟩
    rintro _ _ ⟨⟩ ⟨⟩
    exact Casting.fields_fieldRefs names hcast

theorem merge {path path' : String} {metadata metadata' : List (String × Json)} {os os' : List Outline}
    (ih : Retells ds ds' e stack (.parts os) (.parts os')) :
    Retells ds ds' e stack (.job (.outline (.merge path metadata os)))
      (.job (.outline (.merge path' metadata' os'))) := by
  rintro C s s' _ _ hread hb he
  cases hread with
  | @merge _ _ t _ _ _ ids inside objects =>
    have hg := t.grows_addMerged path metadata (t.graph.merged ids) ids
    obtain ⟨D, ids', t', hle, ⟨hread', objects'⟩, hb', hfields⟩ :=
      ih ⟨inside, objects⟩ hb (hg.precedes.trans he)
    have hpush := hb'.push ⟨path, metadata, .object (t.graph.merged ids)⟩
      ⟨path', metadata', .object (t'.graph.merged ids')⟩ ⟨he.shape?, he.known⟩ .object
      (by rintro _ _ ⟨⟩ ⟨⟩; exact hfields)
    exact ⟨_, _, _, hle.trans (D.le_put _ _ _), .merge hread' objects',
      hpush.congr rfl rfl rfl rfl, .cons (D.put_self ..) .nil⟩

/-! ### Several jobs -/

theorem nil : Retells ds ds' e stack (.each []) (.each []) := by
  rintro C s s' _ _ ⟨⟩ hb _
  exact ⟨C, [], s', le_refl C, .nil, hb, .nil⟩

theorem cons (ih₁ : Retells ds ds' e stack (.job job) (.job job'))
    (ih₂ : Retells ds ds' e stack (.each jobs) (.each jobs')) :
    Retells ds ds' e stack (.each (job :: jobs)) (.each (job' :: jobs')) := by
  rintro C s s' _ t hread hb he
  cases hread with
  | @cons _ _ u _ _ _ i ids first rest =>
    have hg := (rest.grows (first.sane hb.left)).1
    obtain ⟨D, _, u', hle, hread', hb', hagree⟩ := ih₁ first hb (hg.precedes.trans he)
    obtain ⟨j, rfl, hij⟩ := hagree.singleton
    obtain ⟨D', ids', t', hle', hread'', hb'', hagree'⟩ := ih₂ rest hb' he
    exact ⟨D', _, t', hle.trans hle', .cons hread' hread'', hb'', .cons (hle' _ _ _ hij) hagree'⟩

/-! ### Parts -/

theorem noPart : Retells ds ds' e stack (.parts []) (.parts []) := by
  rintro C s s' _ _ ⟨⟨⟩, -⟩ hb _
  exact ⟨C, [], s', le_refl C, ⟨.nil, nofun⟩, hb, .empty⟩

theorem part {o o' : Outline} {os os' : List Outline}
    (ih₁ : Retells ds ds' e stack (.job (.outline o)) (.job (.outline o')))
    (ih₂ : Retells ds ds' e stack (.parts os) (.parts os')) :
    Retells ds ds' e stack (.parts (o :: os)) (.parts (o' :: os')) := by
  rintro C s s' _ t ⟨hread, objects⟩ hb he
  cases hread with
  | @cons _ _ u _ _ _ i ids first rest =>
    obtain ⟨hobject, hobjects⟩ := List.forall_mem_cons.1 objects
    have hg := (rest.grows (first.sane hb.left)).1
    obtain ⟨D, _, u', hle, hread', hb', hagree⟩ := ih₁ first hb (hg.precedes.trans he)
    obtain ⟨j, rfl, hij⟩ := hagree.singleton
    obtain ⟨D', ids', t', hle', ⟨hread'', hobjects'⟩, hb'', hfields⟩ := ih₂ ⟨rest, hobjects⟩ hb' he
    have htwin : D' .twin i j := hle' _ _ _ hij
    have hobject' := Casting.Firm.isObject (.inl htwin) hb''.replay (he.isObject hobject)
    refine ⟨D', _, t', hle.trans hle', ⟨.cons hread' hread'',
      List.forall_mem_cons.2 ⟨hobject', hobjects'⟩⟩, hb'', ?_⟩
    rw [Agree, Graph.merged_cons, Graph.merged_cons]
    exact (hb''.replay.fields i j htwin).putAll hfields

/-- A group of parts has the fields that the parts have together. -/
theorem opened {path : String} {metadata : List (String × Json)} {group os before after : List Outline}
    (ih₁ : Retells ds ds' e stack (.parts group) (.parts before))
    (ih₂ : Retells ds ds' e stack (.parts os) (.parts after)) :
    Retells ds ds' e stack (.parts (.merge path metadata group :: os)) (.parts (before ++ after)) := by
  rintro C s s' _ t ⟨hread, objects⟩ hb he
  cases hread with
  | cons first rest =>
    obtain ⟨-, hobjects⟩ := List.forall_mem_cons.1 objects
    have hsane := first.sane hb.left
    cases first with
    | @merge _ _ u _ _ _ inner inside hinner =>
      have hg := (rest.grows hsane).1
      have hadd := u.grows_addMerged path metadata (u.graph.merged inner) inner
      obtain ⟨D, inner', u', hle, ⟨hread', hinner'⟩, hb', hgroup⟩ :=
        ih₁ ⟨inside, hinner⟩ hb ((hadd.trans hg).precedes.trans he)
      obtain ⟨D', ids', t', hle', ⟨hread'', hobjects'⟩, hb'', hfields⟩ :=
        ih₂ ⟨rest, hobjects⟩ (hb'.groupLeft path metadata _ inner) he
      have hg' : u'.Grows t' := (hread''.grows hb'.right).1
      refine ⟨D', inner' ++ ids', t', hle.trans hle', ⟨?_, ?_⟩, hb'', ?_⟩
      · rw [List.map_append]
        exact hread'.append hread''
      · exact List.forall_mem_append.2 ⟨hg'.objects hinner', hobjects'⟩
      · have hnode := Graph.fields_of_shape? (u.shape?_addMerged_self path metadata
          (u.graph.merged inner) inner)
        rw [Agree, Graph.merged_cons, Graph.merged_append, hg'.merged_eq hinner',
          hg.fields (by rw [Session.size_addMerged]; exact Nat.lt_succ_self _), hnode]
        exact (hgroup.mono hle').putAll hfields

theorem grouped {path : String} {metadata : List (String × Json)} {group os before after : List Outline}
    (ih₁ : Retells ds ds' e stack (.parts before) (.parts group))
    (ih₂ : Retells ds ds' e stack (.parts after) (.parts os)) :
    Retells ds ds' e stack (.parts (before ++ after)) (.parts (.merge path metadata group :: os)) := by
  rintro C s s' _ t ⟨hread, objects⟩ hb he
  rw [List.map_append] at hread
  obtain ⟨inner, ids, u, hbefore, hafter, rfl⟩ := hread.of_append
  obtain ⟨hinner, hobjects⟩ := List.forall_mem_append.1 objects
  obtain ⟨hg, -, -⟩ := hafter.grows (hbefore.sane hb.left)
  have hlt := (hbefore.grows hb.left).2.2
  replace hinner : ∀ id ∈ inner, u.graph.isObject (some id) = true :=
    fun id hid => (hg.isObject (hlt id hid)).symm.trans (hinner id hid)
  obtain ⟨D, inner', u', hle, ⟨hread', hinner'⟩, hb', hgroup⟩ :=
    ih₁ ⟨hbefore, hinner⟩ hb (hg.precedes.trans he)
  obtain ⟨D', ids', t', hle', ⟨hread'', hobjects'⟩, hb'', hfields⟩ :=
    ih₂ ⟨hafter, hobjects⟩ (hb'.groupRight path metadata (u'.graph.merged inner') inner') he
  have hnode := u'.shape?_addMerged_self path metadata (u'.graph.merged inner') inner'
  have hg' := (hread''.grows (hb'.groupRight path metadata (u'.graph.merged inner') inner').right).1
  have hshape := (hg'.shape? (Graph.lt_of_shape? hnode)).trans hnode
  refine ⟨D', _, t', hle.trans hle', ⟨.cons (.merge hread' hinner') hread'', ?_⟩, hb'', ?_⟩
  · exact List.forall_mem_cons.2 ⟨Graph.isObject_of_shape? hshape, hobjects'⟩
  · rw [Agree, Graph.merged_cons, Graph.merged_append, hg.merged_eq hinner,
      Graph.fields_of_shape? hshape]
    exact (hgroup.mono hle').putAll hfields

/-! ### References and definitions -/

theorem reference {ref : Json} {path path' : String} (H : ds.Regrouped ds')
    (hdefinition : ∀ name, Retells ds ds' e stack (.job (.definition name)) (.job (.definition name))) :
    Retells ds ds' e stack (.job (.outline (.reference ref path)))
      (.job (.outline (.reference ref path'))) := by
  rintro C s s' _ t hread hb he
  cases hread with
  | reference means defined inside =>
    obtain ⟨D, _, t', hle, hread', hb', hagree⟩ := hdefinition _ inside hb he
    obtain ⟨j, rfl, hij⟩ := hagree.singleton
    obtain ⟨body, hbody⟩ := Option.isSome_iff_exists.1 defined
    obtain ⟨body', hbody', -⟩ := H _ _ hbody
    exact ⟨D, _, t', hle, .reference means (Option.isSome_of_eq_some hbody') hread', hb', hagree⟩

/-- A definition is retold if its body is, while it is being read. -/
theorem definition (H : ds.Regrouped ds') (hinside : ∀ {body : Json} {p p' : Piece},
      ds.lookup name = some body → name ∉ stack → p.Regrouped p' →
        Retells ds ds' e (name :: stack) p p') :
    Retells ds ds' e stack (.job (.definition name)) (.job (.definition name)) := by
  rintro C s s' _ _ hread hb he
  cases hread with
  | known known =>
    obtain ⟨j, hj, hij⟩ := hb.known known
    exact ⟨C, [j], s', le_refl C, .known hj, hb, .cons hij .nil⟩
  | @plain _ _ t _ body path metadata fields ids hu hfree hd hplain hout inside =>
    obtain ⟨body', hd', hplain', hsame⟩ := H name body hd
    rw [hout] at hsame
    generalize hout' : body'.outline (Definitions.path name) = o' at hsame
    cases hsame with
    | @object _ path' _ metadata' _ fields' names hfields =>
      have hu' := hb.replay.unknown_right (Option.isSome_of_eq_some hd) hu
      have hso : ((s.enter name).openObject name path metadata).Sane :=
        Session.sane_openObject (s := s.enter name) hb.left name path metadata
      have hso' : ((s'.enter name).openObject name path' metadata').Sane :=
        Session.sane_openObject (s := s'.enter name) hb.right name path' metadata'
      have hg := (inside.grows hso).1
      have hobject : t.graph.isObject (some s.graph.size) = true :=
        hg.precedes.isObject (Graph.isObject_of_shape? (s.shape?_add_self ⟨path, metadata, .object ∅⟩))
      have het : t.Precedes e := (Session.precedes_closeObject hobject _).trans he
      have heo := hg.precedes.trans het
      have hadd : (s.add ⟨path, metadata, .object ∅⟩).Precedes e :=
        ⟨heo.shape?, fun _ _ hk => heo.known _ _ ((Session.grows_openObject hu _ _).known _ _ hk)⟩
      have hpush := (hb.push ⟨path, metadata, .object ∅⟩ ⟨path', metadata', .object ∅⟩ hadd .object
        (by rintro _ _ ⟨⟩ ⟨⟩; exact .empty)).replay.rememberBoth nofun hu (.inl (C.put_self ..))
      have hopen : ((s.enter name).openObject name path metadata).Beside ds e
          (C.put .twin s.graph.size s'.graph.size) ((s'.enter name).openObject name path' metadata') :=
        ⟨hpush.congr rfl rfl rfl rfl, hso, hso'⟩
      obtain ⟨D, ids', t', hle, hread', hb', hagree⟩ := hinside hd hfree hfields inside hopen het
      have htwin : D .twin s.graph.size s'.graph.size := hle _ _ _ (C.put_self ..)
      have hobject' := Casting.Firm.isObject (.inl htwin) hb'.replay (het.isObject hobject)
      have hcast : List.Forall₂ D.Cast ids ids' := List.Forall₂.imp (fun _ _ h => ⟨_, h⟩) hagree
      have hreads : Reads ds' stack (.one (.definition name)) s' [s'.graph.size]
          (t'.closeObject s'.graph.size (Outline.fieldRefs fields' ids')) :=
        .plain hu' hfree hd' (hplain'.symm.trans hplain) hout' hread'
      exact ⟨D, _, _, (C.le_put _ _ _).trans hle, hreads, ⟨hb'.replay.closeBoth htwin hobject hobject'
        (Casting.fields_fieldRefs names hcast), (Reads.plain hu hfree hd hplain hout inside).sane hb.left,
        hreads.sane hb.right⟩, .cons htwin .nil⟩
  | @other _ _ t _ body id hu hfree hd hother inside =>
    obtain ⟨body', hd', hplain', hsame⟩ := H name body hd
    have hu' := hb.replay.unknown_right (Option.isSome_of_eq_some hd) hu
    have hun := inside.unknown_of_mem List.mem_cons_self hu
    have het : t.Precedes e := (Session.grows_remember hun id).precedes.trans he
    have henter : (s.enter name).Beside ds e C (s'.enter name) := hb.congr rfl rfl rfl rfl
    obtain ⟨D, _, t', hle, hread', hb', hagree⟩ := hinside hd hfree hsame inside henter het
    obtain ⟨j, rfl, hij⟩ := hagree.singleton
    have hreads : Reads ds' stack (.one (.definition name)) s' [j] (t'.remember name j) :=
      .other hu' hfree hd' (hplain'.symm.trans hother) hread'
    exact ⟨D, [j], _, hle, hreads, ⟨hb'.replay.rememberBoth nofun hun (.inl hij),
      (Reads.other hu hfree hd hother inside).sane hb.left, hreads.sane hb.right⟩, .cons hij .nil⟩

end Retells

/-- A regrouped piece retells the other one. The induction is on the definitions that are not being
read, and for each of these on the piece. -/
theorem Regrouped.retells (H : ds.Regrouped ds') (e : Session) (stack : List String)
    (h : p.Regrouped p') : Retells ds ds' e stack p p' := by
  generalize hn : (ds.free stack).length = n
  induction n using Nat.strong_induction_on generalizing stack p p' with
  | _ n ihn =>
    subst hn
    have hdefinition : ∀ name, Retells ds ds' e stack (.job (.definition name))
        (.job (.definition name)) := fun name => .definition H fun hd hfree hsame =>
      ihn _ (Definitions.length_free_cons_lt hd hfree) _ hsame rfl
    induction h with
    | fault | refused => rintro _ _ _ _ _ ⟨⟩
    | reference => exact .reference H hdefinition
    | leaf shape => exact .leaf shape
    | wrapper _ ih => exact ih.wrapper
    | list _ ih => exact ih.list
    | union _ ih => exact ih.union
    | object names _ ih => exact ih.object names
    | merge _ ih => exact ih.merge
    | definition => exact hdefinition _
    | nil => exact .nil
    | cons _ _ ih₁ ih₂ => exact .cons ih₁ ih₂
    | noPart => exact .noPart
    | part _ _ ih₁ ih₂ => exact .part ih₁ ih₂
    | opened _ _ ih₁ ih₂ => exact .opened ih₁ ih₂
    | grouped _ _ ih₁ ih₂ => exact .grouped ih₁ ih₂

end Piece

end

end ShapeSdl
