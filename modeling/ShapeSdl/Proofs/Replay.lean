import ShapeSdl.Proofs.Casting

/-!
# Reading side by side

Whatever is read from a list of definitions can be read from one that says the same, and every node
that is made is cast for one of the first reading.

* `Rewritten definitions definitions' exchange e` : two lists of definitions that say the same;
* `Task.Recast` : two tasks that say the same;
* `Copyable` : what has been formed can be read once more, while the first reading waits, with one
  lemma for each kind of task; `Formed.copyable` : so it is whatever has been formed;
* `Replayable` : what is read of a task can be read of all that say the same, with one lemma for each
  kind of task;
* `Reads.replay` : so it is whatever is read.
-/

namespace ShapeSdl

/-! ## What says the same -/

/-- Two lists of definitions that say the same, the first of which is read into session `e`. What is
inlined is no object definition, and does not give an object. -/
structure Rewritten (definitions definitions' : Definitions) (exchange : Exchange) (e : Session) :
    Prop where
  each : ∀ name body, definitions.lookup name = some body → ∃ body',
    definitions'.lookup name = some body' ∧ body.isPlainObject = body'.isPlainObject ∧
      (body.outline (Definitions.path name)).Recast definitions exchange .firm
        (body'.outline (Definitions.path name))
  notPlain : ∀ name, exchange = .inlined name → ¬ definitions.IsPlain name
  notObject : ∀ name id, exchange = .inlined name → e.known.get? name = some id →
    e.graph.isObject (some id) = false

inductive Job.Recast (definitions : Definitions) (exchange : Exchange) : Fit → Job → Job → Prop
  | outline {fit o o'} (same : o.Recast definitions exchange fit o') :
      Recast definitions exchange fit (.outline o) (.outline o')
  | definition {fit name} : Recast definitions exchange fit (.definition name) (.definition name)
  | inlined {name body o'} (isInlined : exchange = .inlined name)
      (defined : definitions.lookup name = some body)
      (inside : (body.outline (Definitions.path name)).Recast definitions exchange .firm o') :
      Recast definitions exchange .loose (.definition name) (.outline o')

inductive Task.Recast (definitions : Definitions) (exchange : Exchange) : Fit → Task → Task → Prop
  | one {fit job job'} (same : Job.Recast definitions exchange fit job job') :
      Recast definitions exchange fit (.one job) (.one job')
  | all {fit jobs jobs'} (same : List.Forall₂ (Job.Recast definitions exchange fit) jobs jobs') :
      Recast definitions exchange fit (.all jobs) (.all jobs')

section
variable {definitions : Definitions} {exchange : Exchange} {fit : Fit}

theorem Task.recast_outlines {os os' : List Outline}
    (h : List.Forall₂ (Outline.Recast definitions exchange fit) os os') :
    Task.Recast definitions exchange fit (.all (os.map .outline)) (.all (os'.map .outline)) :=
  .all (List.forall₂_map_left_iff.2 (List.forall₂_map_right_iff.2 (h.imp fun _ _ => .outline)))

theorem Task.recast_fieldJobs {fields fields' : List (String × Outline)}
    (h : List.Forall₂ (Outline.Recast definitions exchange fit) (fields.map Prod.snd)
      (fields'.map Prod.snd)) : Task.Recast definitions exchange fit
        (.all (Outline.fieldJobs fields)) (.all (Outline.fieldJobs fields')) := by
  have hjobs : ∀ fields : List (String × Outline),
      Outline.fieldJobs fields = (fields.map Prod.snd).map .outline := by
    intro fields
    rw [List.map_map]
    rfl
  rw [hjobs, hjobs]
  exact recast_outlines h

theorem Casting.fields_fieldRefs {C : Casting} {fields fields' : List (String × Outline)}
    {is js : List NodeId} (hn : fields.map Prod.fst = fields'.map Prod.fst)
    (h : List.Forall₂ C.Cast is js) :
    C.Fields (Outline.fieldRefs fields is) (Outline.fieldRefs fields' js) := by
  rw [show Outline.fieldRefs fields' js = Outline.fieldRefs fields js by
    rw [Outline.fieldRefs, ← hn]; rfl]
  exact Outline.related_fieldRefs fields h

end

section
variable {definitions definitions' : Definitions} {exchange : Exchange} {e s s' t t' : Session}
  {C D : Casting} {i j id : NodeId} {name : String} {stack stack' : List String}
  {spare : NodeId → Prop}

/-! ## Reading once more -/

theorem Casting.Firm.isObject (h : C.Firm i j) (hr : Replay definitions exchange e spare C s s')
    (ho : e.graph.isObject (some i) = true) : s'.graph.isObject (some j) = true := by
  obtain ⟨a, b, ha, hb, hab⟩ := hr.resembles i j h
  rw [Graph.isObject_of_shape? hb, ← hab.isObject_eq, ← Graph.isObject_of_shape? ha]
  exact ho

/-- What has been formed in the first session, which waits, is read once more in the second one. -/
structure Recopied (definitions definitions' : Definitions) (exchange : Exchange) (e : Session)
    (spare : NodeId → Prop) (s : Session) (stack' : List String) (task' : Task) (s' : Session)
    (ids : List NodeId) (C D : Casting) (ids' : List NodeId) (t' : Session) : Prop where
  le : C ≤ D
  reads : Reads definitions' stack' task' s' ids' t'
  replay : Replay definitions exchange e spare D s t'
  firm : List.Forall₂ D.Firm ids ids'

/-- The nodes that have been formed of a task come once more of every task that says the same, as soon
as those that `C` has copied are there. -/
def Copyable (definitions definitions' : Definitions) (exchange : Exchange) (e : Session)
    (spare : NodeId → Prop) (s : Session) (stack' : List String) (C : Casting) (task : Task)
    (ids : List NodeId) : Prop :=
  ∀ ⦃D : Casting⦄ ⦃fit : Fit⦄ ⦃task' : Task⦄ ⦃s' : Session⦄, C ≤ D →
    Task.Recast definitions exchange fit task task' → Replay definitions exchange e spare D s s' →
      ∃ D' ids' t', Recopied definitions definitions' exchange e spare s stack' task' s' ids D D' ids' t'

theorem Recopied.push {task' : Task} {u' : Session} {a : Shape} {n' : Node}
    (hr : Replay definitions exchange e spare D s t') (hle : C ≤ D) (mine : D.HasCopy id)
    (node : e.graph.shape? (some id) = some a) (hres : a.Resembles D n'.shape)
    (hreads : Reads definitions' stack' task' s' [t'.graph.size] u')
    (hg : u'.graph = (t'.add n').graph) (hk : u'.known = t'.known) :
    ∃ D' ids' u', Recopied definitions definitions' exchange e spare s stack' task' s' [id] C D' ids'
      u' :=
  ⟨_, _, u', hle.trans (D.le_put .copy id _), hreads,
    (hr.pushCopy mine node hres).congr rfl rfl hg hk, .cons (.inr (D.put_self ..)) .nil⟩

namespace Copyable

theorem leaf (hnone : exchange ≠ .constants) {n : Node} (h : n.shape.isLeaf = true)
    (node : e.graph.shape? (some id) = some n.shape) (mine : C.HasCopy id) :
    Copyable definitions definitions' exchange e spare s stack' C (.one (.outline (.leaf n h))) [id] := by
  rintro D fit _ s' hle ⟨⟨hrec⟩⟩ hr
  cases hrec with
  | leaf shape =>
    exact Recopied.push hr (le_refl D) (mine.mono hle) node (shape ▸ .leaf h) .leaf rfl rfl
  | constants isConstants => exact absurd isConstants hnone

theorem wrapper (hnone : exchange ≠ .constants) {path : String} {kind : WrapperKind} {value : Json}
    {inner : Outline}
    (ih : Copyable definitions definitions' exchange e spare s stack' C (.one (.outline inner)) [i])
    (node : e.graph.shape? (some id) = some (.wrapper kind (some i) value)) (mine : C.HasCopy id) :
    Copyable definitions definitions' exchange e spare s stack' C
      (.one (.outline (.wrapper path kind value inner))) [id] := by
  rintro D fit _ s' hle ⟨⟨hrec⟩⟩ hr
  cases hrec with
  | wrapper hin =>
    obtain ⟨D', ids', t', h⟩ := ih hle (.one (.outline hin)) hr
    obtain ⟨i', rfl⟩ := List.length_eq_one_iff.1 h.firm.length_eq.symm
    exact Recopied.push h.replay h.le (mine.mono (hle.trans h.le)) node
      (.wrapper (List.forall₂_cons.1 h.firm).1) (.wrapper h.reads) rfl rfl
  | constants isConstants => exact absurd isConstants hnone

theorem list (hnone : exchange ≠ .constants) {path : String} {metadata : List (String × Json)}
    {element : Outline}
    (ih : Copyable definitions definitions' exchange e spare s stack' C (.one (.outline element)) [i])
    (node : e.graph.shape? (some id) = some (.list (some i))) (mine : C.HasCopy id) :
    Copyable definitions definitions' exchange e spare s stack' C
      (.one (.outline (.list path metadata element))) [id] := by
  rintro D fit _ s' hle ⟨⟨hrec⟩⟩ hr
  cases hrec with
  | list hin =>
    obtain ⟨D', ids', t', h⟩ := ih hle (.one (.outline hin)) hr
    obtain ⟨i', rfl⟩ := List.length_eq_one_iff.1 h.firm.length_eq.symm
    exact Recopied.push h.replay h.le (mine.mono (hle.trans h.le)) node
      (.list (List.forall₂_cons.1 h.firm).1.cast) (.list h.reads) rfl rfl
  | constants isConstants => exact absurd isConstants hnone

theorem union (hnone : exchange ≠ .constants) {path : String} {metadata : List (String × Json)}
    {variants : List Outline} {is : List NodeId}
    (ih : Copyable definitions definitions' exchange e spare s stack' C
      (.all (variants.map .outline)) is)
    (node : e.graph.shape? (some id) = some (.union (is.map some))) (mine : C.HasCopy id) :
    Copyable definitions definitions' exchange e spare s stack' C
      (.one (.outline (.union path metadata variants))) [id] := by
  rintro D fit _ s' hle ⟨⟨hrec⟩⟩ hr
  cases hrec with
  | union hin =>
    obtain ⟨D', ids', t', h⟩ := ih hle (Task.recast_outlines hin) hr
    exact Recopied.push h.replay h.le (mine.mono (hle.trans h.le)) node (.union h.firm)
      (.union h.reads) rfl rfl
  | constants isConstants => exact absurd isConstants hnone

theorem object (hnone : exchange ≠ .constants) {path : String} {metadata : List (String × Json)}
    {fields : List (String × Outline)} {is : List NodeId}
    (ih : Copyable definitions definitions' exchange e spare s stack' C
      (.all (Outline.fieldJobs fields)) is)
    (node : e.graph.isObject (some id) = true) (mine : C.HasCopy id) :
    Copyable definitions definitions' exchange e spare s stack' C
      (.one (.outline (.object path metadata fields))) [id] := by
  rintro D fit _ s' hle ⟨⟨hrec⟩⟩ hr
  cases hrec with
  | object _ hin =>
    obtain ⟨D', ids', t', h⟩ := ih hle (Task.recast_fieldJobs hin) hr
    obtain ⟨_, hnode⟩ := Graph.isObject_iff.1 node
    exact Recopied.push h.replay h.le (mine.mono (hle.trans h.le)) hnode .object (.object h.reads)
      rfl rfl
  | constants isConstants => exact absurd isConstants hnone

theorem merge (hnone : exchange ≠ .constants) {path : String} {metadata : List (String × Json)}
    {parts : List Outline} {is : List NodeId}
    (ih : Copyable definitions definitions' exchange e spare s stack' C (.all (parts.map .outline)) is)
    (objects : ∀ i ∈ is, e.graph.isObject (some i) = true)
    (node : e.graph.isObject (some id) = true) (mine : C.HasCopy id) :
    Copyable definitions definitions' exchange e spare s stack' C
      (.one (.outline (.merge path metadata parts))) [id] := by
  rintro D fit _ s' hle ⟨⟨hrec⟩⟩ hr
  cases hrec with
  | @merge _ _ path' _ metadata' _ _ hin =>
    obtain ⟨D', ids', t', h⟩ := ih hle (Task.recast_outlines hin) hr
    obtain ⟨fields, hnode⟩ := Graph.isObject_iff.1 node
    have hobjects : ∀ j ∈ ids', t'.graph.isObject (some j) = true := by
      intro j hj
      obtain ⟨i, hi, hij⟩ := exists_mem_left h.firm hj
      exact hij.isObject h.replay (objects i hi)
    have hres : (Shape.object fields).Resembles D'
        (Node.mk path' metadata' (.object (t'.graph.merged ids'))).shape := .object
    exact Recopied.push h.replay h.le (mine.mono (hle.trans h.le)) hnode hres
      (.merge h.reads hobjects) rfl rfl
  | constants isConstants => exact absurd isConstants hnone

/-- A reference leads to what has been read already, so it is not the one that is inlined. -/
theorem reference (hnone : exchange ≠ .constants) (R : Rewritten definitions definitions' exchange e)
    {ref : Json} {path referred : String} (means : ref.referred? = some referred)
    (defined : (definitions.lookup referred).isSome) (hne : exchange ≠ .inlined referred)
    (ih : Copyable definitions definitions' exchange e spare s stack' C (.one (.definition referred))
      [id]) :
    Copyable definitions definitions' exchange e spare s stack' C
      (.one (.outline (.reference ref path))) [id] := by
  rintro D fit _ s' hle ⟨⟨hrec⟩⟩ hr
  cases hrec with
  | reference =>
    have hsame : Task.Recast definitions exchange fit (.one (.definition referred))
        (.one (.definition referred)) := .one .definition
    obtain ⟨D', ids', t', h⟩ := ih hle hsame hr
    obtain ⟨body, hd⟩ := Option.isSome_iff_exists.1 defined
    obtain ⟨body', hd', -⟩ := R.each _ _ hd
    obtain ⟨i', rfl⟩ := List.length_eq_one_iff.1 h.firm.length_eq.symm
    exact ⟨D', _, t', h.le, .reference means (by rw [hd']; rfl) h.reads, h.replay, h.firm⟩
  | inlined isInlined means' =>
    cases means.symm.trans means'
    exact absurd isInlined hne
  | constants isConstants => exact absurd isConstants hnone

theorem definition (hne : exchange ≠ .inlined name) (known : s.known.get? name = some id) :
    Copyable definitions definitions' exchange e spare s stack' C (.one (.definition name)) [id] := by
  rintro D fit _ s' hle ⟨hrec⟩ hr
  cases hrec with
  | definition =>
    obtain ⟨j, hj, hij⟩ := hr.known _ _ known hne
    exact ⟨D, [j], s', le_refl D, .known hj, hr, .cons hij.firm .nil⟩
  | inlined isInlined => exact absurd isInlined hne

theorem nil : Copyable definitions definitions' exchange e spare s stack' C (.all []) [] := by
  intro D fit _ s' hle hrec hr
  cases hrec with
  | all same =>
    cases same
    exact ⟨D, [], s', le_refl D, .nil, hr, .nil⟩

theorem cons {job : Job} {jobs : List Job} {is : List NodeId}
    (first : Copyable definitions definitions' exchange e spare s stack' C (.one job) [i])
    (rest : Copyable definitions definitions' exchange e spare s stack' C (.all jobs) is) :
    Copyable definitions definitions' exchange e spare s stack' C (.all (job :: jobs)) (i :: is) := by
  intro D fit _ s' hle hrec hr
  cases hrec with
  | all same =>
    cases same with
    | cons hfirst hrest =>
      obtain ⟨D₁, ids₁, t₁, h₁⟩ := first hle (.one hfirst) hr
      obtain ⟨D₂, ids₂, t₂, h₂⟩ := rest (hle.trans h₁.le) (.all hrest) h₁.replay
      obtain ⟨j, rfl⟩ := List.length_eq_one_iff.1 h₁.firm.length_eq.symm
      exact ⟨D₂, _, t₂, h₁.le.trans h₂.le, .cons h₁.reads h₂.reads, h₂.replay,
        .cons ((List.forall₂_cons.1 h₁.firm).1.mono h₂.le) h₂.firm⟩

end Copyable

/-- Nothing but nodes cast firmly comes of reading once more what has been formed, and the first
session stays as it is. -/
theorem Formed.copyable (R : Rewritten definitions definitions' exchange e) (stack' : List String)
    (he : exchange = .inlined name) {task : Task} {ids : List NodeId}
    (hf : Formed definitions e.graph (s.KnowsOther name) C.HasCopy task ids) :
    Copyable definitions definitions' exchange e spare s stack' C task ids := by
  have hnone : exchange ≠ .constants := by
    rw [he]
    nofun
  have hother : ∀ {other : String} {i : NodeId}, s.KnowsOther name other i →
      exchange ≠ .inlined other := by
    intro other i hk hin
    cases he.symm.trans hin
    exact hk.1 rfl
  induction hf with
  | leaf node mine => exact .leaf hnone _ node mine
  | wrapper _ node mine ih => exact .wrapper hnone ih node mine
  | list _ node mine ih => exact .list hnone ih node mine
  | union _ node mine ih => exact .union hnone ih node mine
  | object _ node mine ih => exact .object hnone ih node mine
  | merge _ objects node mine ih => exact .merge hnone ih objects node mine
  | reference means defined inside ih =>
    cases inside with
    | definition known => exact .reference hnone R means defined (hother known) ih
  | definition known => exact .definition (hother known) known.2
  | nil => exact .nil
  | cons _ _ ih₁ ih₂ => exact .cons ih₁ ih₂

/-! ## Constants -/

theorem Graph.Constants.lt {g : Graph} {values : List Json} {id : NodeId} (h : g.Constants values id) :
    id < g.size := by
  cases h with
  | enumeration node | single node | union node => exact Graph.lt_of_shape? node

/-- Reading constants adds nodes, the last of which has them. -/
structure Session.Gains (s t : Session) (values : List Json) (id : NodeId) : Prop where
  grows : s.Grows t
  known : t.known = s.known
  size_le : s.graph.size ≤ id
  constants : t.graph.Constants values id

/-- Constants can be read, and nothing else is read meanwhile. -/
theorem Outline.Constants.reads {o : Outline} {values : List Json} (h : o.Constants values)
    (definitions : Definitions) (stack : List String) (s : Session) :
    ∃ id t, Reads definitions stack (.one (.outline o)) s [id] t ∧ s.Gains t values id := by
  have hall : ∀ {os : List Outline} {values : List Json} (s : Session),
      List.Forall₂ (fun o value => ∃ n h, o = .leaf n h ∧ n.shape = .literal value) os values →
        ∃ ids t, Reads definitions stack (.all (os.map .outline)) s ids t ∧ s.Grows t ∧
          t.known = s.known ∧
          List.Forall₂ (fun i value => t.graph.shape? (some i) = some (.literal value)) ids values := by
    intro os values s heach
    induction heach generalizing s with
    | nil => exact ⟨[], s, .nil, .refl s, rfl, .nil⟩
    | cons hfirst _ ih =>
      obtain ⟨n, hleaf, rfl, hshape⟩ := hfirst
      obtain ⟨ids, t, hreads, hg, hk, hids⟩ := ih (s.add n)
      refine ⟨s.graph.size :: ids, t, .cons .leaf hreads, (s.grows_add n).trans hg, hk, .cons ?_ hids⟩
      rw [hg.shape? (by simp), s.shape?_add_self, hshape]
  cases h with
  | @enumeration _ n hleaf shape texts =>
    exact ⟨_, _, .leaf, s.grows_add n, rfl, le_refl _,
      .enumeration ((s.shape?_add_self n).trans (congrArg some shape)) texts⟩
  | @single value n hleaf shape =>
    exact ⟨_, _, .leaf, s.grows_add n, rfl, le_refl _,
      .single ((s.shape?_add_self n).trans (congrArg some shape))⟩
  | @union _ path metadata os each =>
    obtain ⟨ids, t, hreads, hg, hk, hids⟩ := hall s each
    have hadd := t.grows_add ⟨path, metadata, .union (ids.map some)⟩
    refine ⟨_, _, .union hreads, hg.trans hadd, hk, hg.size_le, ?_⟩
    exact .union (t.shape?_add_self _) (hids.imp fun i value hi => hadd.precedes.shape?_of_not_isObject hi rfl)

/-! ## Side by side -/

end

/-- Whether the nodes that are made now are copied: the innermost definition being read is inlined. -/
def Exchange.copies (exchange : Exchange) (stack : List String) : Bool :=
  stack.head?.any fun name => exchange = .inlined name

/-- How well a node is cast that is asked for by a place. -/
structure Casting.Fits (C : Casting) (exchange : Exchange) (e : Session) (copies : Bool) (fit : Fit)
    (i j : NodeId) : Prop where
  cast : C.Cast i j
  firm : fit = .firm ∨ copies = true → C.Firm i j
  meets : fit = .firm → copies = false → C.Meets exchange e i j

/-- The definition that is inlined has no node while it is being read. -/
structure Poised (exchange : Exchange) (stack : List String) (s : Session) : Prop where
  sane : s.Sane
  unknown : ∀ name ∈ stack, exchange = .inlined name → s.known.get? name = none

/-- What has been read of a task side by side. -/
structure Replayed (definitions definitions' : Definitions) (exchange : Exchange) (e : Session)
    (spare : NodeId → Prop) (stack stack' : List String) (fit : Fit) (task task' : Task) (s' : Session) (ids : List NodeId)
    (t : Session) (C D : Casting) (ids' : List NodeId) (t' : Session) : Prop where
  le : C ≤ D
  reads : Reads definitions' stack' task' s' ids' t'
  replay : Replay definitions exchange e spare D t t'
  fits : List.Forall₂ (D.Fits exchange e (exchange.copies stack) fit) ids ids'
  formed : ∀ name, stack.head? = some name → exchange = .inlined name →
    Formed definitions e.graph (t.KnowsOther name) D.HasCopy task ids

section
variable {definitions definitions' : Definitions} {exchange : Exchange} {e s s' t t' u u' : Session}
  {C D : Casting} {i j id : NodeId} {name : String} {stack stack' : List String} {fit : Fit}
  {copies : Bool} {task task' : Task} {ids : List NodeId} {spare : NodeId → Prop}

theorem Exchange.copies_eq_true : exchange.copies stack = true ↔
    ∃ name, stack.head? = some name ∧ exchange = .inlined name := by
  cases stack <;> simp [copies]

namespace Casting

theorem Fits.mono (h : C.Fits exchange e copies fit i j) (hle : C ≤ D) :
    D.Fits exchange e copies fit i j :=
  ⟨h.cast.mono hle, fun hf => (h.firm hf).mono hle, fun hf hc => (h.meets hf hc).mono hle⟩

theorem Meets.fits (h : C.Meets exchange e i j) : C.Fits exchange e copies fit i j :=
  ⟨h.firm.cast, fun _ => h.firm, fun _ _ => h⟩

theorem Firm.fits_loose (h : C.Firm i j) : C.Fits exchange e copies .loose i j :=
  ⟨h.cast, fun _ => h, nofun⟩

theorem Firm.meets (h : C.Firm i j) (he : exchange = .inlined name)
    (hk : e.known.get? name = some i) : C.Meets exchange e i j :=
  h.imp id fun h => ⟨h, name, he, hk⟩

def role (copies : Bool) : Role := if copies then .copy else .twin

theorem role_ne_stand (copies : Bool) : role copies ≠ .stand := by cases copies <;> nofun

theorem fits_put (C : Casting) (exchange : Exchange) (e : Session) (copies : Bool) (fit : Fit)
    (i j : NodeId) : (C.put (role copies) i j).Fits exchange e copies fit i j where
  cast := ⟨_, C.put_self ..⟩
  firm _ := by
    cases copies with
    | false => exact .inl (C.put_self ..)
    | true => exact .inr (C.put_self ..)
  meets _ hc := by
    subst hc
    exact .inl (C.put_self ..)

end Casting

namespace Poised

theorem of_reads (h : Poised exchange stack s) (hr : Reads definitions stack task s ids t) :
    Poised exchange stack t :=
  ⟨hr.sane h.sane, fun name hname he => hr.unknown_of_mem hname (h.unknown name hname he)⟩

theorem enter (h : Poised exchange stack s) (hu : s.known.get? name = none) :
    Poised exchange (name :: stack) (s.enter name) :=
  ⟨h.sane, List.forall_mem_cons.2 ⟨fun _ => hu, h.unknown⟩⟩

theorem openObject (h : Poised exchange stack s) (hne : exchange ≠ .inlined name) (path : String)
    (metadata : List (String × Json)) :
    Poised exchange (name :: stack) ((s.enter name).openObject name path metadata) := by
  refine ⟨Session.sane_openObject (s := s.enter name) h.sane _ _ _,
    List.forall_mem_cons.2 ⟨fun he => absurd he hne, fun other hother he => ?_⟩⟩
  have hother' : other ≠ name := fun heq => hne (heq ▸ he)
  exact (Entries.get?_put_of_ne _ _ hother').trans (h.unknown other hother he)

end Poised

/-- While the inlined definition is being read, no other one has its node. -/
theorem Poised.formed_definition (h : Poised exchange stack s)
    (hr : Reads definitions stack (.one (.definition name)) s [id] t) (P : NodeId → Prop) :
    ∀ top, stack.head? = some top → exchange = .inlined top →
      Formed definitions e.graph (t.KnowsOther top) P (.one (.definition name)) [id] := by
  intro top htop he
  have hk := hr.known_of_definition h.sane
  refine .definition ⟨?_, hk⟩
  rintro rfl
  rw [(h.of_reads hr).unknown name (List.mem_of_mem_head? htop) he] at hk
  cases hk

theorem Replay.unknown_right (h : Replay definitions exchange e spare C s s')
    (hd : (definitions.lookup name).isSome) (hu : s.known.get? name = none) :
    s'.known.get? name = none := by
  rw [Option.eq_none_iff_forall_ne_some]
  intro j hj
  obtain ⟨i, hi, -⟩ := h.known' name j hd hj
  cases hu.symm.trans hi

/-- What has been formed of a part stays formed. -/
theorem Replayed.formed_mono {ids' : List NodeId} {D' : Casting}
    (h : Replayed definitions definitions' exchange e spare stack stack' fit task task' s' ids t C D ids' t')
    (hle : D ≤ D') (top : String) (htop : stack.head? = some top) (hin : exchange = .inlined top) :
    Formed definitions e.graph (t.KnowsOther top) D'.HasCopy task ids :=
  (h.formed top htop hin).mono (fun _ _ h => h) fun _ h => h.mono hle

/-- Whatever is read of a task can be read of one that says the same, where the two have been read side
by side before. -/
def Replayable (definitions definitions' : Definitions) (exchange : Exchange) (e : Session)
    (spare : NodeId → Prop) (stack : List String) (task : Task) (s : Session) (ids : List NodeId)
    (t : Session) : Prop :=
  ∀ ⦃C : Casting⦄ ⦃fit : Fit⦄ ⦃task' : Task⦄ ⦃s' : Session⦄ ⦃stack' : List String⦄,
    Task.Recast definitions exchange fit task task' → Replay definitions exchange e spare C s s' →
      stack' ⊆ stack → Poised exchange stack s → t.Precedes e → ∃ D ids' t',
        Replayed definitions definitions' exchange e spare stack stack' fit task task' s' ids t C D ids' t'

/-! ### New nodes -/

theorem Replayed.push (hr : Replay definitions exchange e spare D t t') (hle : C ≤ D) (n n' : Node)
    (hreads : Reads definitions' stack' task' s' [t'.graph.size] u')
    (hg : u.graph = (t.add n).graph) (hk : u.known = t.known) (hg' : u'.graph = (t'.add n').graph)
    (hk' : u'.known = t'.known) (he : u.Precedes e) (hres : n.shape.Resembles D n'.shape)
    (hfields : exchange.copies stack = false → ∀ fields fields', n.shape = .object fields →
      n'.shape = .object fields' → D.Fields fields fields')
    (hformed : ∀ name, stack.head? = some name → exchange = .inlined name → ∀ D' : Casting,
      D ≤ D' → D'.HasCopy t.graph.size →
        Formed definitions e.graph (t.KnowsOther name) D'.HasCopy task [t.graph.size]) :
    ∃ D' ids' u', Replayed definitions definitions' exchange e spare stack stack' fit task task' s'
      [t.graph.size] u C D' ids' u' := by
  have he' : (t.add n).Precedes e := ⟨hg ▸ he.shape?, hk ▸ he.known⟩
  have hpush := hr.push (Casting.role (exchange.copies stack)) n n' he' (fun _ => hres)
    (fun h => absurd h (Casting.role_ne_stand _)) fun htwin => hfields (by
      cases hc : exchange.copies stack with
      | false => rfl
      | true =>
        rw [hc] at htwin
        cases htwin)
  refine ⟨_, _, u', hle.trans (D.le_put _ _ _), hreads, hpush.congr hg hk hg' hk',
    .cons (Casting.fits_put ..) .nil, fun name hname hin => ?_⟩
  have hcopy := D.put_self (Casting.role (exchange.copies stack)) t.graph.size t'.graph.size
  rw [Exchange.copies_eq_true.2 ⟨name, hname, hin⟩] at hcopy ⊢
  rw [show u.KnowsOther name = t.KnowsOther name by unfold Session.KnowsOther; rw [hk]]
  exact hformed name hname hin _ (D.le_put _ _ _) ⟨_, hcopy⟩

theorem Replayed.constants {o o' : Outline} {values : List Json} (hex : exchange = .constants)
    (nonempty : values ≠ []) (simple : ∀ value ∈ values, value.category.isSome = true)
    (left : o.Constants values) (right : o'.Constants values)
    (h : Reads definitions stack (.one (.outline o)) s [id] t)
    (hr : Replay definitions exchange e spare C s s') (he : t.Precedes e) :
    ∃ D ids' t', Replayed definitions definitions' exchange e spare stack stack' .loose
      (.one (.outline o)) (.one (.outline o')) s' [id] t C D ids' t' := by
  obtain ⟨i, u, hu, hgain⟩ := left.reads definitions stack s
  obtain ⟨hid, rfl⟩ := h.unique hu
  cases hid
  obtain ⟨j, t', ht', hgain'⟩ := right.reads definitions' stack' s'
  have hgrown := hr.grow hgain.grows hgain.known hgain'.grows fun _ _ => by rw [hgain'.known]
  have hfitting : Replay.Fitting e spare C t t' .stand id j := by
    refine ⟨⟨hgain.constants.lt, hgain'.constants.lt⟩,
      fun hk => absurd (hr.spared _ hk).1 (Nat.not_lt.2 hgain'.size_le), fun role k hk => ?_,
      fun role k hk => ?_, nofun,
      fun _ => .constants nonempty simple (he.constants hgain.constants) hgain'.constants, nofun⟩
    · exact absurd (hr.lt _ _ _ hk).2 (Nat.not_lt.2 hgain'.size_le)
    · exact absurd (hr.lt _ _ _ hk).1 (Nat.not_lt.2 hgain.size_le)
  have hfits : (C.put .stand id j).Fits exchange e (exchange.copies stack) .loose id j := by
    refine ⟨⟨_, C.put_self ..⟩, fun hf => ?_, nofun⟩
    obtain ⟨name, -, hin⟩ := Exchange.copies_eq_true.1 (hf.resolve_left nofun)
    cases hex.symm.trans hin
  refine ⟨_, [j], t', C.le_put .stand id j, ht', hgrown.assign hfitting, .cons hfits .nil, ?_⟩
  intro name _ hin
  cases hex.symm.trans hin

namespace Replayable

theorem leaf {n : Node} (hleaf : n.shape.isLeaf = true) :
    Replayable definitions definitions' exchange e spare stack (.one (.outline (.leaf n hleaf))) s
      [s.graph.size] (s.add n) := by
  rintro C fit _ s' stack' ⟨⟨hrec⟩⟩ hr hsub hp he
  cases hrec with
  | @leaf _ _ n' _ _ shape =>
    have hnode := he.shape?_of_not_isObject (s.shape?_add_self n) (Shape.isObject_of_isLeaf hleaf)
    exact Replayed.push hr (le_refl C) n n' .leaf rfl rfl rfl rfl he (shape ▸ .leaf hleaf)
      (fun _ fields _ hobject => by rw [hobject] at hleaf; cases hleaf)
      fun _ _ _ _ _ hmine => .leaf hnode hmine
  | constants isConstants nonempty simple left right =>
    exact Replayed.constants isConstants nonempty simple left right .leaf hr he

theorem wrapper {path : String} {kind : WrapperKind} {value : Json} {inner : Outline}
    (ih : Replayable definitions definitions' exchange e spare stack (.one (.outline inner)) s [id] t) :
    Replayable definitions definitions' exchange e spare stack
      (.one (.outline (.wrapper path kind value inner))) s [t.graph.size]
        (t.add ⟨path, [], .wrapper kind (some id) value⟩) := by
  rintro C fit _ s' stack' ⟨⟨hrec⟩⟩ hr hsub hp he
  cases hrec with
  | @wrapper _ _ path' _ _ _ _ hin =>
    have hg := t.grows_add ⟨path, [], .wrapper kind (some id) value⟩
    obtain ⟨D, ids', t', hd⟩ := ih (.one (.outline hin)) hr hsub hp (hg.precedes.trans he)
    obtain ⟨j, rfl⟩ := List.length_eq_one_iff.1 hd.fits.length_eq.symm
    have hfit := (List.forall₂_cons.1 hd.fits).1
    have hnode := he.shape?_of_not_isObject (t.shape?_add_self _) rfl
    by_cases hfirm : fit = .firm ∨ exchange.copies stack = true
    · exact Replayed.push hd.replay hd.le ⟨path, [], .wrapper kind (some id) value⟩
        ⟨path', [], .wrapper kind (some j) value⟩ (.wrapper hd.reads) rfl rfl rfl rfl he
        (.wrapper (hfit.firm hfirm)) (fun _ _ _ hobject => nomatch hobject)
        fun top htop hin D' hle hmine => .wrapper (hd.formed_mono hle top htop hin) hnode hmine
    · have hnode' := t'.shape?_add_self ⟨path', [], .wrapper kind (some j) value⟩
      have hpush := hd.replay.push .stand ⟨path, [], .wrapper kind (some id) value⟩
        ⟨path', [], .wrapper kind (some j) value⟩ he (fun hne => absurd rfl hne)
        (fun _ => .wrapper hnode hnode' hfit.cast) nofun
      refine ⟨_, _, _, hd.le.trans (D.le_put .stand _ _), .wrapper hd.reads, hpush, .cons ?_ .nil,
        fun top htop hin => ?_⟩
      · exact ⟨⟨_, D.put_self ..⟩, fun h => absurd h hfirm, fun h => absurd (.inl h) hfirm⟩
      · exact absurd (.inr (Exchange.copies_eq_true.2 ⟨top, htop, hin⟩)) hfirm
  | constants isConstants nonempty simple left right => cases left

theorem list {path : String} {metadata : List (String × Json)} {element : Outline}
    (ih : Replayable definitions definitions' exchange e spare stack (.one (.outline element)) s [id] t) :
    Replayable definitions definitions' exchange e spare stack
      (.one (.outline (.list path metadata element))) s [t.graph.size]
        (t.add ⟨path, metadata, .list (some id)⟩) := by
  rintro C fit _ s' stack' ⟨⟨hrec⟩⟩ hr hsub hp he
  cases hrec with
  | @list _ _ path' _ metadata' _ _ hin =>
    have hg := t.grows_add ⟨path, metadata, .list (some id)⟩
    obtain ⟨D, ids', t', hd⟩ := ih (.one (.outline hin)) hr hsub hp (hg.precedes.trans he)
    obtain ⟨j, rfl⟩ := List.length_eq_one_iff.1 hd.fits.length_eq.symm
    have hfit := (List.forall₂_cons.1 hd.fits).1
    have hnode := he.shape?_of_not_isObject (t.shape?_add_self _) rfl
    exact Replayed.push hd.replay hd.le ⟨path, metadata, .list (some id)⟩
      ⟨path', metadata', .list (some j)⟩ (.list hd.reads) rfl rfl rfl rfl he
      (.list hfit.cast) (fun _ _ _ hobject => nomatch hobject)
      fun top htop hin D' hle hmine => .list (hd.formed_mono hle top htop hin) hnode hmine
  | constants isConstants nonempty simple left right => cases left

theorem union {path : String} {metadata : List (String × Json)} {variants : List Outline}
    (inside : Reads definitions stack (.all (variants.map .outline)) s ids t)
    (ih : Replayable definitions definitions' exchange e spare stack (.all (variants.map .outline)) s
      ids t) : Replayable definitions definitions' exchange e spare stack
        (.one (.outline (.union path metadata variants))) s [t.graph.size]
          (t.add ⟨path, metadata, .union (ids.map some)⟩) := by
  rintro C fit _ s' stack' ⟨⟨hrec⟩⟩ hr hsub hp he
  cases hrec with
  | @union _ _ path' _ metadata' _ _ hin =>
    have hg := t.grows_add ⟨path, metadata, .union (ids.map some)⟩
    obtain ⟨D, ids', t', hd⟩ := ih (Task.recast_outlines hin) hr hsub hp (hg.precedes.trans he)
    have hnode := he.shape?_of_not_isObject (t.shape?_add_self _) rfl
    exact Replayed.push hd.replay hd.le ⟨path, metadata, .union (ids.map some)⟩
      ⟨path', metadata', .union (ids'.map some)⟩ (.union hd.reads) rfl rfl rfl rfl he
      (.union (hd.fits.imp fun _ _ h => h.firm (.inl rfl))) (fun _ _ _ hobject => nomatch hobject)
      fun top htop hin D' hle hmine => .union (hd.formed_mono hle top htop hin) hnode hmine
  | constants isConstants nonempty simple left right =>
    exact Replayed.constants isConstants nonempty simple left right (.union inside) hr he

theorem object {path : String} {metadata : List (String × Json)} {fields : List (String × Outline)}
    (ih : Replayable definitions definitions' exchange e spare stack
      (.all (Outline.fieldJobs fields)) s ids t) :
    Replayable definitions definitions' exchange e spare stack
      (.one (.outline (.object path metadata fields))) s [t.graph.size]
        (t.add ⟨path, metadata, .object (Outline.fieldRefs fields ids)⟩) := by
  rintro C fit _ s' stack' ⟨⟨hrec⟩⟩ hr hsub hp he
  cases hrec with
  | @object _ _ path' _ metadata' _ fields' hnames hin =>
    have hg := t.grows_add ⟨path, metadata, .object (Outline.fieldRefs fields ids)⟩
    obtain ⟨D, ids', t', hd⟩ := ih (Task.recast_fieldJobs hin) hr hsub hp (hg.precedes.trans he)
    have hnode := he.isObject (Graph.isObject_of_shape? (t.shape?_add_self
      ⟨path, metadata, .object (Outline.fieldRefs fields ids)⟩))
    refine Replayed.push hd.replay hd.le ⟨path, metadata, .object (Outline.fieldRefs fields ids)⟩
      ⟨path', metadata', .object (Outline.fieldRefs fields' ids')⟩ (.object hd.reads)
      rfl rfl rfl rfl he .object (fun _ f f' hf hf' => ?_)
      fun top htop hin D' hle hmine => .object (hd.formed_mono hle top htop hin) hnode hmine
    cases hf
    cases hf'
    exact Casting.fields_fieldRefs hnames (hd.fits.imp fun _ _ h => h.cast)
  | constants isConstants nonempty simple left right => cases left

theorem merge (R : Rewritten definitions definitions' exchange e) {path : String}
    {metadata : List (String × Json)} {parts : List Outline}
    (objects : ∀ id ∈ ids, t.graph.isObject (some id) = true)
    (ih : Replayable definitions definitions' exchange e spare stack (.all (parts.map .outline)) s
      ids t) : Replayable definitions definitions' exchange e spare stack
        (.one (.outline (.merge path metadata parts))) s [t.graph.size]
          (t.addMerged path metadata (t.graph.merged ids) ids) := by
  rintro C fit _ s' stack' ⟨⟨hrec⟩⟩ hr hsub hp he
  cases hrec with
  | @merge _ _ path' _ metadata' _ _ hin =>
    have hg := t.grows_addMerged path metadata (t.graph.merged ids) ids
    have het : t.Precedes e := hg.precedes.trans he
    obtain ⟨D, ids', t', hd⟩ := ih (Task.recast_outlines hin) hr hsub hp het
    have hfirm : List.Forall₂ D.Firm ids ids' := hd.fits.imp fun _ _ h => h.firm (.inl rfl)
    have hobjects : ∀ j ∈ ids', t'.graph.isObject (some j) = true := by
      intro j hj
      obtain ⟨i, hi, hij⟩ := exists_mem_left hfirm hj
      exact hij.isObject hd.replay (het.isObject (objects i hi))
    have hnode := he.isObject (Graph.isObject_of_shape? (t.shape?_add_self
      ⟨path, metadata, .object (t.graph.merged ids)⟩))
    refine Replayed.push hd.replay hd.le ⟨path, metadata, .object (t.graph.merged ids)⟩
      ⟨path', metadata', .object (t'.graph.merged ids')⟩ (.merge hd.reads hobjects) rfl rfl rfl rfl he
      .object (fun hc f f' hf hf' => ?_) fun top htop hin D' hle hmine =>
        .merge (hd.formed_mono hle top htop hin) (fun i hi => het.isObject (objects i hi)) hnode hmine
    cases hf
    cases hf'
    -- What gives an object is not the inlined definition, so every part is a twin.
    refine Graph.related_merged (forall₂_imp_of_mem hd.fits fun i hi j hij => ?_)
    rcases hij.meets rfl hc with htwin | ⟨-, name, hin, hk⟩
    · exact hd.replay.fields i j htwin
    · have hno := R.notObject name i hin hk
      rw [het.isObject (objects i hi)] at hno
      cases hno
  | constants isConstants nonempty simple left right => cases left

/-! ### References and definitions -/

theorem reference (R : Rewritten definitions definitions' exchange e) {ref : Json} {path : String}
    (means : ref.referred? = some name) (defined : (definitions.lookup name).isSome)
    (inside : Reads definitions stack (.one (.definition name)) s [id] t)
    (ih : Replayable definitions definitions' exchange e spare stack (.one (.definition name)) s [id]
      t) : Replayable definitions definitions' exchange e spare stack
        (.one (.outline (.reference ref path))) s [id] t := by
  rintro C fit _ s' stack' ⟨⟨hrec⟩⟩ hr hsub hp he
  have hformed : ∀ (P : NodeId → Prop) top, stack.head? = some top → exchange = .inlined top →
      Formed definitions e.graph (t.KnowsOther top) P (.one (.outline (.reference ref path))) [id] :=
    fun P top htop hin => .reference means defined (hp.formed_definition inside P top htop hin)
  cases hrec with
  | reference =>
    obtain ⟨D, ids', t', hd⟩ := ih (.one .definition) hr hsub hp he
    obtain ⟨j, rfl⟩ := List.length_eq_one_iff.1 hd.fits.length_eq.symm
    obtain ⟨body, hbody⟩ := Option.isSome_iff_exists.1 defined
    obtain ⟨body', hbody', -⟩ := R.each _ _ hbody
    exact ⟨D, _, t', hd.le, .reference means (by rw [hbody']; rfl) hd.reads, hd.replay, hd.fits,
      hformed _⟩
  | inlined isInlined means' hdefined hin =>
    cases means.symm.trans means'
    obtain ⟨D, ids', t', hd⟩ := ih (.one (.inlined isInlined hdefined hin)) hr hsub hp he
    exact ⟨D, _, t', hd.le, hd.reads, hd.replay, hd.fits, hformed _⟩
  | constants isConstants nonempty simple left right => cases left

/-- The inlined definition is read once more in the second session if it has no node there. -/
theorem known (R : Rewritten definitions definitions' exchange e) (hk : s.known.get? name = some id) :
    Replayable definitions definitions' exchange e spare stack (.one (.definition name)) s [id] s := by
  rintro C fit _ s' stack' ⟨hrec⟩ hr hsub hp he
  have hread : Reads definitions stack (.one (.definition name)) s [id] s := .known hk
  have hformed := fun P : NodeId → Prop => hp.formed_definition (e := e) hread P
  cases hrec with
  | definition =>
    by_cases hin : exchange = .inlined name
    · obtain ⟨body, hd, hother, hf⟩ := hr.formed name id hin hk
      cases hk' : s'.known.get? name with
      | some j =>
        obtain ⟨i, hi, hij⟩ := hr.known' name j (by rw [hd]; rfl) hk'
        cases hk.symm.trans hi
        exact ⟨C, [j], s', le_refl C, .known hk', hr, .cons hij.fits .nil, hformed _⟩
      | none =>
        have hfree : name ∉ stack' := by
          intro hmem
          cases hk.symm.trans (hp.unknown name (hsub hmem) hin)
        obtain ⟨body', hd', hplain, hrec⟩ := R.each name body hd
        have henter : Replay definitions exchange e spare C s (s'.enter name) :=
          hr.congr rfl rfl rfl rfl
        obtain ⟨D, ids', t', h⟩ := hf.copyable R (name :: stack') hin (le_refl C)
          (.one (.outline hrec)) henter
        obtain ⟨j, rfl⟩ := List.length_eq_one_iff.1 h.firm.length_eq.symm
        have hij := (List.forall₂_cons.1 h.firm).1.meets hin (he.known name id hk)
        exact ⟨D, [j], _, h.le, .other hk' hfree hd' (hplain.symm.trans hother) h.reads,
          h.replay.rememberRight hk hij, .cons hij.fits .nil, hformed _⟩
    · obtain ⟨j, hj, hij⟩ := hr.known name id hk hin
      exact ⟨C, [j], s', le_refl C, .known hj, hr, .cons hij.fits .nil, hformed _⟩
  | inlined isInlined hdefined hin =>
    obtain ⟨body, hd, -, hf⟩ := hr.formed name id isInlined hk
    cases hdefined.symm.trans hd
    obtain ⟨D, ids', t', h⟩ := hf.copyable R stack' isInlined (le_refl C) (.one (.outline hin)) hr
    exact ⟨D, ids', t', h.le, h.reads, h.replay, h.firm.imp fun _ _ h => h.fits_loose, hformed _⟩

/-- An object definition gets its object in both sessions, and then its fields. -/
theorem plain (R : Rewritten definitions definitions' exchange e) {body : Json} {path : String}
    {metadata : List (String × Json)} {fields : List (String × Outline)}
    (hu : s.known.get? name = none) (hfree : name ∉ stack) (hd : definitions.lookup name = some body)
    (hplain : body.isPlainObject = .ok true)
    (hout : body.outline (Definitions.path name) = .object path metadata fields)
    (inside : Reads definitions (name :: stack) (.all (Outline.fieldJobs fields))
      ((s.enter name).openObject name path metadata) ids t)
    (ih : Replayable definitions definitions' exchange e spare (name :: stack)
      (.all (Outline.fieldJobs fields)) ((s.enter name).openObject name path metadata) ids t) :
    Replayable definitions definitions' exchange e spare stack (.one (.definition name)) s
      [s.graph.size] (t.closeObject s.graph.size (Outline.fieldRefs fields ids)) := by
  rintro C fit _ s' stack' ⟨hrec⟩ hr hsub hp he
  have hread := Reads.plain hu hfree hd hplain hout inside
  have hne : exchange ≠ .inlined name := fun hin => R.notPlain name hin ⟨body, hd, hplain⟩
  cases hrec with
  | inlined isInlined => exact absurd isInlined hne
  | definition =>
    obtain ⟨body', hd', hplain', hrec⟩ := R.each name body hd
    rw [hout] at hrec
    generalize hout' : body'.outline (Definitions.path name) = o' at hrec
    cases hrec with
    | @object _ _ path' _ metadata' _ fields' hnames hin =>
      have hu' := hr.unknown_right (Option.isSome_of_eq_some hd) hu
      have hso : ((s.enter name).openObject name path metadata).Sane :=
        Session.sane_openObject (s := s.enter name) hp.sane name path metadata
      have hg := (inside.grows hso).1
      have hobject : t.graph.isObject (some s.graph.size) = true :=
        hg.precedes.isObject (Graph.isObject_of_shape? (s.shape?_add_self ⟨path, metadata, .object ∅⟩))
      have het : t.Precedes e := (Session.precedes_closeObject hobject _).trans he
      have heo := hg.precedes.trans het
      have hadd : (s.add ⟨path, metadata, .object ∅⟩).Precedes e :=
        ⟨heo.shape?, fun _ _ hk => heo.known _ _ ((Session.grows_openObject hu _ _).known _ _ hk)⟩
      have hpush := (hr.push .twin ⟨path, metadata, .object ∅⟩ ⟨path', metadata', .object ∅⟩ hadd
        (fun _ => .object) nofun fun _ f f' hf hf' => by cases hf; cases hf'; exact .empty).rememberBoth
          hne hu (.inl (C.put_self ..))
      have hopen : Replay definitions exchange e spare (C.put .twin s.graph.size s'.graph.size)
          ((s.enter name).openObject name path metadata)
          ((s'.enter name).openObject name path' metadata') := hpush.congr rfl rfl rfl rfl
      obtain ⟨D, ids', t', hdone⟩ := ih (Task.recast_fieldJobs hin) hopen
        (List.cons_subset_cons name hsub) (hp.openObject hne path metadata) het
      have htwin : D .twin s.graph.size s'.graph.size := hdone.le _ _ _ (C.put_self ..)
      have hobject' := Casting.Firm.isObject (.inl htwin) hdone.replay (het.isObject hobject)
      exact ⟨D, _, _, (C.le_put _ _ _).trans hdone.le,
        .plain hu' (mt (@hsub name) hfree) hd' (hplain'.symm.trans hplain) hout' hdone.reads,
        hdone.replay.closeBoth htwin hobject hobject'
          (Casting.fields_fieldRefs hnames (hdone.fits.imp fun _ _ h => h.cast)),
        .cons (Casting.Meets.fits (.inl htwin)) .nil, hp.formed_definition hread _⟩

/-- Any other definition gets its node when it has been read, the inlined one in the first session
only, if something is written for it. -/
theorem other (R : Rewritten definitions definitions' exchange e) {body : Json}
    (hu : s.known.get? name = none) (hfree : name ∉ stack) (hd : definitions.lookup name = some body)
    (hother : body.isPlainObject = .ok false)
    (inside : Reads definitions (name :: stack)
      (.one (.outline (body.outline (Definitions.path name)))) (s.enter name) [id] t)
    (ih : Replayable definitions definitions' exchange e spare (name :: stack)
      (.one (.outline (body.outline (Definitions.path name)))) (s.enter name) [id] t) :
    Replayable definitions definitions' exchange e spare stack (.one (.definition name)) s [id]
      (t.remember name id) := by
  rintro C fit _ s' stack' ⟨hrec⟩ hr hsub hp he
  have hread := Reads.other hu hfree hd hother inside
  have hun := inside.unknown_of_mem List.mem_cons_self hu
  have het : t.Precedes e := (Session.grows_remember hun id).precedes.trans he
  cases hrec with
  | definition =>
    obtain ⟨body', hd', hplain', hrec⟩ := R.each name body hd
    have hu' := hr.unknown_right (Option.isSome_of_eq_some hd) hu
    have henter : Replay definitions exchange e spare C (s.enter name) (s'.enter name) :=
      hr.congr rfl rfl rfl rfl
    obtain ⟨D, ids', t', hdone⟩ := ih (.one (.outline hrec)) henter (List.cons_subset_cons name hsub)
      (hp.enter hu) het
    obtain ⟨j, rfl⟩ := List.length_eq_one_iff.1 hdone.fits.length_eq.symm
    have hfit := (List.forall₂_cons.1 hdone.fits).1
    have hreads : Reads definitions' stack' (.one (.definition name)) s' [j] (t'.remember name j) :=
      .other hu' (mt (@hsub name) hfree) hd' (hplain'.symm.trans hother) hdone.reads
    by_cases hin : exchange = .inlined name
    · have hij := (hfit.firm (.inl rfl)).meets hin (he.known name id (Entries.get?_put_self ..))
      have hleft := hdone.replay.rememberLeft hin hun ⟨body, hd, hother, hdone.formed name rfl hin⟩
      exact ⟨D, [j], _, hdone.le, hreads, hleft.rememberRight (Entries.get?_put_self ..) hij,
        .cons hij.fits .nil, hp.formed_definition hread _⟩
    · have hij := hfit.meets rfl (by simpa [Exchange.copies] using hin)
      exact ⟨D, [j], _, hdone.le, hreads, hdone.replay.rememberBoth hin hun hij,
        .cons hij.fits .nil, hp.formed_definition hread _⟩
  | inlined isInlined hdefined hin =>
    cases hdefined.symm.trans hd
    have henter : Replay definitions exchange e spare C (s.enter name) s' := hr.congr rfl rfl rfl rfl
    obtain ⟨D, ids', t', hdone⟩ := ih (.one (.outline hin)) henter
      (List.subset_cons_of_subset name hsub) (hp.enter hu) het
    exact ⟨D, ids', t', hdone.le, hdone.reads, hdone.replay.rememberLeft isInlined hun
      ⟨body, hd, hother, hdone.formed name rfl isInlined⟩,
      hdone.fits.imp fun _ _ h => (h.firm (.inl rfl)).fits_loose, hp.formed_definition hread _⟩

/-! ### Several jobs -/

theorem nil : Replayable definitions definitions' exchange e spare stack (.all []) s [] s := by
  intro C fit _ s' stack' hrec hr _ _ _
  cases hrec with
  | all same =>
    cases same
    exact ⟨C, [], s', le_refl C, .nil, hr, .nil, fun _ _ _ => .nil⟩

theorem cons {job : Job} {jobs : List Job} (first : Reads definitions stack (.one job) s [id] t)
    (rest : Reads definitions stack (.all jobs) t ids u)
    (ih₁ : Replayable definitions definitions' exchange e spare stack (.one job) s [id] t)
    (ih₂ : Replayable definitions definitions' exchange e spare stack (.all jobs) t ids u) :
    Replayable definitions definitions' exchange e spare stack (.all (job :: jobs)) s (id :: ids)
      u := by
  intro C fit _ s' stack' hrec hr hsub hp he
  cases hrec with
  | all same =>
    cases same with
    | cons hfirst hrest =>
      have hp' := hp.of_reads first
      have hg := (rest.grows hp'.sane).1
      obtain ⟨D₁, ids₁, t₁, hd₁⟩ := ih₁ (.one hfirst) hr hsub hp (hg.precedes.trans he)
      obtain ⟨D₂, ids₂, t₂, hd₂⟩ := ih₂ (.all hrest) hd₁.replay hsub hp' he
      obtain ⟨j, rfl⟩ := List.length_eq_one_iff.1 hd₁.fits.length_eq.symm
      refine ⟨D₂, _, t₂, hd₁.le.trans hd₂.le, .cons hd₁.reads hd₂.reads, hd₂.replay,
        .cons ((List.forall₂_cons.1 hd₁.fits).1.mono hd₂.le) hd₂.fits, fun top htop hin => ?_⟩
      refine .cons ((hd₁.formed_mono hd₂.le top htop hin).mono ?_ fun _ h => h)
        (hd₂.formed top htop hin)
      exact fun _ _ h => ⟨h.1, hg.known _ _ h.2⟩

end Replayable

/-- Whatever is read of a task can be read of one that says the same. -/
theorem Reads.replay (R : Rewritten definitions definitions' exchange e)
    (h : Reads definitions stack task s ids t) :
    Replayable definitions definitions' exchange e spare stack task s ids t := by
  induction h with
  | leaf => exact .leaf _
  | wrapper _ ih => exact ih.wrapper
  | list _ ih => exact ih.list
  | union inside ih => exact ih.union inside
  | object _ ih => exact ih.object
  | merge _ objects ih => exact ih.merge R objects
  | reference means defined inside ih => exact ih.reference R means defined inside
  | known known => exact .known R known
  | plain unknown free defined isPlain outlined inside ih =>
    exact ih.plain R unknown free defined isPlain outlined inside
  | other unknown free defined isOther inside ih =>
    exact ih.other R unknown free defined isOther inside
  | nil => exact .nil
  | cons first rest ih₁ ih₂ => exact .cons first rest ih₁ ih₂

end

end ShapeSdl
