import ShapeSdl.Proofs.Merge
import Mathlib.Data.List.Forall2

/-!
# What can be read

Whether the definitions of a document can be read is seen from their outlines, provided that every
definition that leads to itself is an object definition: then none is met again before it has a node.

* `Outline.MeansObject` : whether an outline gives an object, by references if need be;
* `Sound` : nothing in a task is refused, every reference means a definition, and every part of a
  merged object is an object;
* `Settled.sound` : what has been read is sound;
* `Sound.reads` : what is sound can be read, in whatever order.
-/

namespace ShapeSdl

/-! ## Soundness -/

/-- An outline that gives an object, or hands on that of a definition. -/
inductive Outline.MeansObject (definitions : Definitions) : Outline → Prop
  | object {path metadata fields} : MeansObject definitions (.object path metadata fields)
  | merge {path metadata parts} : MeansObject definitions (.merge path metadata parts)
  | reference {ref path name body} (means : ref.referred? = some name)
      (defined : definitions.lookup name = some body)
      (onward : MeansObject definitions (body.outline (Definitions.path name))) :
      MeansObject definitions (.reference ref path)

def Job.MeansObject (definitions : Definitions) : Job → Prop
  | outline o => o.MeansObject definitions
  | definition name => ∃ body, definitions.lookup name = some body ∧
      (body.outline (Definitions.path name)).MeansObject definitions

/-- Nothing in a task is refused, every reference means a definition, and the parts of merged objects
are objects. -/
inductive Sound (definitions : Definitions) : Task → Prop
  | leaf {n h} : Sound definitions (.one (.outline (.leaf n h)))
  | wrapper {path kind value inner} (inside : Sound definitions (.one (.outline inner))) :
      Sound definitions (.one (.outline (.wrapper path kind value inner)))
  | list {path metadata element} (inside : Sound definitions (.one (.outline element))) :
      Sound definitions (.one (.outline (.list path metadata element)))
  | union {path metadata variants} (inside : Sound definitions (.all (variants.map .outline))) :
      Sound definitions (.one (.outline (.union path metadata variants)))
  | object {path metadata fields} (inside : Sound definitions (.all (Outline.fieldJobs fields))) :
      Sound definitions (.one (.outline (.object path metadata fields)))
  | merge {path metadata parts} (inside : Sound definitions (.all (parts.map .outline)))
      (objects : ∀ o ∈ parts, o.MeansObject definitions) :
      Sound definitions (.one (.outline (.merge path metadata parts)))
  | reference {ref path name} (means : ref.referred? = some name)
      (defined : (definitions.lookup name).isSome) :
      Sound definitions (.one (.outline (.reference ref path)))
  | definition {name} (defined : (definitions.lookup name).isSome) :
      Sound definitions (.one (.definition name))
  | nil : Sound definitions (.all [])
  | cons {job jobs} (first : Sound definitions (.one job)) (rest : Sound definitions (.all jobs)) :
      Sound definitions (.all (job :: jobs))

def Definitions.Sound (definitions : Definitions) : Prop :=
  ∀ name body, definitions.lookup name = some body →
    ShapeSdl.Sound definitions (.one (.outline (body.outline (path name))))

/-- Every definition that leads to itself is an object definition. -/
def Definitions.Unrolled (definitions : Definitions) : Prop :=
  ∀ name, definitions.Leads name name → definitions.IsPlain name

theorem Definitions.Root.meansObject {definitions : Definitions} {name root : String} {body : Json}
    (h : definitions.Root name root) (hd : definitions.lookup root = some body)
    (ho : (body.outline (path root)).MeansObject definitions) :
    (Job.definition name).MeansObject definitions := by
  induction h with
  | self => exact ⟨body, hd, ho⟩
  | step hd' hh hm _ ih =>
    obtain ⟨next, hn, hnext⟩ := ih hd ho
    exact ⟨_, hd', hh ▸ .reference hm hn hnext⟩

/-! ## What has been read is sound -/

theorem Built.meansObject {definitions : Definitions} {s : Session} {unfinished own : List NodeId}
    {o : Outline} {id : NodeId} (h : Built s unfinished (.one (.outline o)) [id] own)
    (hr : o.isReference = false) (ho : s.graph.isObject (some id) = true) :
    o.MeansObject definitions := by
  obtain ⟨fields, hs⟩ := Graph.isObject_iff.1 ho
  cases h with
  | @leaf n hleaf _ node =>
    rw [Graph.shape?, node, Option.map_some, Option.some.injEq] at hs
    rw [hs] at hleaf
    cases hleaf
  | wrapper _ node | list _ node | union _ node =>
    rw [Graph.shape?, node] at hs
    cases hs
  | object => exact .object
  | merge => exact .merge
  | reference => cases hr

theorem Built.of_mem {s : Session} {unfinished : List NodeId} {o : Outline} :
    ∀ {os : List Outline} {ids own : List NodeId},
      Built s unfinished (.all (os.map .outline)) ids own → o ∈ os →
        ∃ id ∈ ids, ∃ own', Built s unfinished (.one (.outline o)) [id] own'
  | p :: os, ids, own, h, hmem => by
    cases h with
    | cons first rest =>
      rcases List.mem_cons.1 hmem with rfl | hmem
      · exact ⟨_, List.mem_cons_self, _, first⟩
      · obtain ⟨id, hid, own', ho⟩ := Built.of_mem rest hmem
        exact ⟨id, List.mem_cons_of_mem _ hid, own', ho⟩

namespace Settled

variable {definitions : Definitions} {own : String → List NodeId} {s : Session}
  {unfinished mine ids : List NodeId} {task : Task}

theorem meansObject (S : Settled definitions own s) {o : Outline} {id : NodeId}
    (h : Built s unfinished (.one (.outline o)) [id] mine)
    (ho : s.graph.isObject (some id) = true) : o.MeansObject definitions := by
  cases hr : o.isReference with
  | false => exact h.meansObject hr ho
  | true =>
    obtain ⟨ref, path, rfl⟩ := Outline.isReference_iff.1 hr
    cases h with
    | @reference _ _ name _ means known =>
      obtain ⟨root, hroot, hk⟩ := S.rooted _ _ known
      obtain ⟨body, _, hd, -, hb⟩ := S.built root id hk List.not_mem_nil
      have hself : (body.outline (Definitions.path root)).isReference = false := by
        have ha := hroot.isAlias
        rwa [Definitions.isAlias, hd] at ha
      obtain ⟨next, hn, hnext⟩ := hroot.meansObject hd (hb.meansObject hself ho)
      exact .reference means hn hnext

theorem lookup_isSome (S : Settled definitions own s) {name : String} {id : NodeId}
    (hk : s.known.get? name = some id) : (definitions.lookup name).isSome := by
  obtain ⟨body, _, hd, -⟩ := S.built name id hk List.not_mem_nil
  rw [hd]
  rfl

/-- What has been read is sound. -/
theorem sound (S : Settled definitions own s) (h : Built s unfinished task ids mine) :
    Sound definitions task := by
  induction h with
  | leaf => exact .leaf
  | wrapper _ _ ih => exact .wrapper ih
  | list _ _ ih => exact .list ih
  | union _ _ ih => exact .union ih
  | object _ _ ih => exact .object ih
  | merge inside _ merged ih =>
    apply Sound.merge ih
    intro o ho
    obtain ⟨id, hid, _, hb⟩ := inside.of_mem ho
    exact S.meansObject hb ((S.merged.keeps _ merged).objects id hid)
  | reference means known => exact .reference means (S.lookup_isSome known)
  | definition known => exact .definition (S.lookup_isSome known)
  | nil => exact .nil
  | cons _ _ ih₁ ih₂ => exact .cons ih₁ ih₂

theorem definitions_sound (S : Settled definitions own s)
    (hk : ∀ name, (definitions.lookup name).isSome → s.Knows name) : definitions.Sound := by
  intro name body hd
  obtain ⟨id, hid⟩ := hk name (by rw [hd]; rfl)
  obtain ⟨body', _, hd', -, hb⟩ := S.built name id hid List.not_mem_nil
  cases hd.symm.trans hd'
  exact S.sound hb

end Settled

/-! ## What is sound can be read -/

def Task.jobs : Task → List Job
  | one job => [job]
  | all jobs => jobs

/-- Definitions that mean objects have objects. -/
def Session.Objects (definitions : Definitions) (s : Session) : Prop :=
  ∀ name id, s.known.get? name = some id → (Job.definition name).MeansObject definitions →
    s.graph.isObject (some id) = true

namespace Session

variable {definitions : Definitions} {s t : Session}

theorem Objects.of_grows (h : s.Objects definitions) (hs : s.Sane) (hg : s.graph.Grows t.graph)
    (hk : t.known = s.known) : t.Objects definitions := by
  intro name id hid hm
  rw [hk] at hid
  exact (hg.isObject (hs name id hid)).trans (h name id hid hm)

theorem Objects.remember (h : s.Objects definitions) {name : String} {id : NodeId}
    (ho : (Job.definition name).MeansObject definitions → s.graph.isObject (some id) = true) :
    (s.remember name id).Objects definitions := by
  intro other i hi hm
  rw [Session.remember, Entries.get?_put] at hi
  split at hi
  · rename_i he
    subst he
    cases hi
    exact ho hm
  · exact h other i hi hm

theorem isObject_add {n : Node} {fields : Entries String Ref} (hn : n.shape = .object fields) :
    (s.add n).graph.isObject (some s.graph.size) = true := by
  rw [Graph.isObject, Graph.shape?, node?_add_self, Option.map_some, hn]
  rfl

end Session

namespace Reads

variable {definitions : Definitions} {stack : List String} {task : Task} {s t : Session}
  {ids : List NodeId}

theorem eq_singleton {job : Job} (h : Reads definitions stack (.one job) s ids t) :
    ∃ id, ids = [id] := by
  cases h <;> exact ⟨_, rfl⟩

theorem objects (h : Reads definitions stack task s ids t) (hs : s.Sane) (ho : s.Objects definitions) :
    t.Objects definitions ∧ List.Forall₂
      (fun job id => Job.MeansObject definitions job → t.graph.isObject (some id) = true)
      task.jobs ids := by
  induction h with
  | @leaf _ s n h =>
    exact ⟨ho.of_grows hs (s.grows_add n).toGrows rfl, .cons (fun hm => nomatch hm) .nil⟩
  | wrapper inside ih | list inside ih | union inside ih =>
    obtain ⟨ht, -⟩ := ih hs ho
    exact ⟨ht.of_grows (inside.sane hs) (Session.grows_add ..).toGrows rfl,
      .cons (fun hm => nomatch hm) .nil⟩
  | object inside ih =>
    obtain ⟨ht, -⟩ := ih hs ho
    exact ⟨ht.of_grows (inside.sane hs) (Session.grows_add ..).toGrows rfl,
      .cons (fun _ => Session.isObject_add rfl) .nil⟩
  | merge inside _ ih =>
    obtain ⟨ht, -⟩ := ih hs ho
    exact ⟨ht.of_grows (inside.sane hs) (Session.grows_addMerged ..).toGrows rfl,
      .cons (fun _ => Session.isObject_add rfl) .nil⟩
  | reference means _ _ ih =>
    obtain ⟨ht, hj⟩ := ih hs ho
    refine ⟨ht, .cons (fun hm => ?_) .nil⟩
    cases hm with
    | reference means' defined onward =>
      cases means.symm.trans means'
      exact (List.forall₂_cons.1 hj).1 ⟨_, defined, onward⟩
  | known hk => exact ⟨ho, .cons (fun hm => ho _ _ hk hm) .nil⟩
  | @plain stack s t name body path metadata fields ids hu _ _ _ _ inside ih =>
    have hso := Session.sane_openObject (s := s.enter name) hs name path metadata
    have hopen : ((s.enter name).openObject name path metadata).Objects definitions :=
      (ho.of_grows (t := s.add ⟨path, metadata, .object ∅⟩) hs (s.grows_add _).toGrows rfl).remember
        fun _ => Session.isObject_add rfl
    obtain ⟨ht, -⟩ := ih hso hopen
    have hnew : t.graph.isObject (some s.graph.size) = true := by
      rw [(inside.grows hso).1.isObject (by simp [Session.enter])]
      exact Session.isObject_add (s := s) rfl
    exact ⟨fun other i hi hm => Session.isObject_closeObject _ (ht other i hi hm),
      .cons (fun _ => Session.isObject_closeObject _ hnew) .nil⟩
  | @other stack s t name body id hu _ hd _ inside ih =>
    obtain ⟨ht, hj⟩ := ih hs ho
    have hobj : (Job.definition name).MeansObject definitions → t.graph.isObject (some id) = true := by
      rintro ⟨body', hd', hm⟩
      cases hd.symm.trans hd'
      exact (List.forall₂_cons.1 hj).1 hm
    exact ⟨ht.remember hobj, .cons hobj .nil⟩
  | nil => exact ⟨ho, .nil⟩
  | cons first rest ih₁ ih₂ =>
    obtain ⟨h₁, hj₁⟩ := ih₁ hs ho
    obtain ⟨h₂, hj₂⟩ := ih₂ (first.sane hs) h₁
    refine ⟨h₂, .cons (fun hm => ?_) hj₂⟩
    rw [(rest.grows (first.sane hs)).1.isObject (first.lt hs)]
    exact (List.forall₂_cons.1 hj₁).1 hm

theorem forall_isObject {jobs : List Job} (h : Reads definitions stack (.all jobs) s ids t)
    (hs : s.Sane) (ho : s.Objects definitions) (hj : ∀ job ∈ jobs, job.MeansObject definitions) :
    ∀ id ∈ ids, t.graph.isObject (some id) = true := by
  have hall := (h.objects hs ho).2
  change List.Forall₂ _ jobs ids at hall
  clear h
  induction hall with
  | nil => simp
  | cons hfirst _ ih =>
    obtain ⟨hjob, hjobs⟩ := List.forall_mem_cons.1 hj
    exact List.forall_mem_cons.2 ⟨hfirst hjob, ih hjobs⟩

end Reads

structure Session.Ready (definitions : Definitions) (stack : List String) (s : Session) : Prop where
  sane : s.Sane
  objects : s.Objects definitions
  opened : ∀ name ∈ stack, definitions.IsPlain name → s.Knows name

namespace Session.Ready

variable {definitions : Definitions} {stack : List String} {s t : Session}

theorem begin (s : Session) : s.begin.Ready definitions [] :=
  ⟨s.sane_begin, nofun, nofun⟩

theorem read {task : Task} {ids : List NodeId} {stack' : List String}
    (h : s.Ready definitions stack) (hr : Reads definitions stack' task s ids t) :
    t.Ready definitions stack :=
  ⟨hr.sane h.sane, (hr.objects h.sane h.objects).1,
    fun name hname hp => (hr.grows h.sane).1.knows (h.opened name hname hp)⟩

theorem openObject (h : s.Ready definitions stack) {name : String} (hu : s.known.get? name = none)
    (path : String) (metadata : List (String × Json)) :
    ((s.enter name).openObject name path metadata).Ready definitions (name :: stack) where
  sane := Session.sane_openObject (s := s.enter name) h.sane name path metadata
  objects := (h.objects.of_grows (t := s.add ⟨path, metadata, .object ∅⟩) h.sane
    (s.grows_add _).toGrows rfl).remember fun _ => Session.isObject_add rfl
  opened := List.forall_mem_cons.2 ⟨fun _ => ⟨_, Entries.get?_put_self ..⟩,
    fun other hother hp => (grows_openObject hu path metadata).knows (h.opened other hother hp)⟩

end Session.Ready

theorem Sound.isPlainObject {definitions : Definitions} {schema : Json} {path : String}
    (h : Sound definitions (.one (.outline (schema.outline path)))) :
    ∃ plain, schema.isPlainObject = .ok plain := by
  cases schema with
  | obj entries =>
    simp only [Json.isPlainObject]
    split <;> exact ⟨_, rfl⟩
  | _ =>
    rw [Json.outline] at h
    cases h

theorem Sound.fields {definitions : Definitions} {path : String} {metadata : List (String × Json)}
    {fields : Except Fault (List (String × Outline))}
    (h : Sound definitions (.one (.outline (.ofFields path metadata fields)))) :
    ∃ outlines, fields = .ok outlines ∧ Sound definitions (.all (Outline.fieldJobs outlines)) := by
  cases fields with
  | error f => cases h
  | ok outlines =>
    cases h with
    | object inside => exact ⟨outlines, rfl, inside⟩

/-- A definition that can be entered can be read, if what it is made of can be. -/
theorem Reads.exists_definition {definitions : Definitions} {stack : List String} {s : Session}
    {name : String} {body : Json} (hu : s.known.get? name = none) (hfree : name ∉ stack)
    (hd : definitions.lookup name = some body)
    (hb : Sound definitions (.one (.outline (body.outline (Definitions.path name)))))
    (hr : s.Ready definitions stack)
    (ih : ∀ {task : Task} {t : Session}, Sound definitions task →
      task.mentions ⊆ (body.outline (Definitions.path name)).mentions →
        t.Ready definitions (name :: stack) → ∃ ids u, Reads definitions (name :: stack) task t ids u) :
    ∃ ids t, Reads definitions stack (.one (.definition name)) s ids t := by
  obtain ⟨plain, hp⟩ := hb.isPlainObject
  cases plain with
  | true =>
    obtain ⟨entries, -, ho⟩ := Json.outline_of_isPlainObject hp
    rw [ho] at hb
    obtain ⟨outlines, hfs, hin⟩ := hb.fields
    have hout : body.outline (Definitions.path name) =
        .object (Definitions.path name) (Json.metadata entries) outlines := by
      rw [ho, hfs]
      rfl
    obtain ⟨ids, t, h⟩ := ih hin
      (by rw [hout, Outline.mentions, Outline.mentionsFields_eq]; exact List.Subset.refl _)
      (hr.openObject hu (Definitions.path name) (Json.metadata entries))
    exact ⟨_, _, .plain hu hfree hd hp hout h⟩
  | false =>
    have hready : (s.enter name).Ready definitions (name :: stack) := by
      refine ⟨hr.sane, hr.objects, List.forall_mem_cons.2 ⟨?_, hr.opened⟩⟩
      rintro ⟨body', hd', hp'⟩
      cases hd.symm.trans hd'
      cases hp.symm.trans hp'
    obtain ⟨ids, t, h⟩ := ih hb (List.Subset.refl _) hready
    obtain ⟨id, rfl⟩ := h.eq_singleton
    exact ⟨_, _, .other hu hfree hd hp h⟩

/-- What is sound can be read. -/
theorem Sound.reads {definitions : Definitions} (hall : definitions.Sound)
    (hself : definitions.Unrolled) {stack : List String} {task : Task} (h : Sound definitions task) :
    ∀ {s : Session}, Trail definitions stack task → s.Ready definitions stack →
      ∃ ids t, Reads definitions stack task s ids t := by
  -- The bodies of definitions are read with fewer definitions left to be entered.
  induction hn : (definitions.free stack).length using Nat.strongRecOn
    generalizing stack task with
  | ind n ihn =>
    subst hn
    have hdef : ∀ {name : String} {s : Session}, (definitions.lookup name).isSome →
        Trail definitions stack (.one (.definition name)) → s.Ready definitions stack →
          ∃ ids t, Reads definitions stack (.one (.definition name)) s ids t := by
      intro name s hl ht hr
      obtain ⟨body, hd⟩ := Option.isSome_iff_exists.1 hl
      cases hu : s.known.get? name with
      | some id => exact ⟨_, _, .known hu⟩
      | none =>
        have hfree : name ∉ stack := by
          intro hmem
          have hp := hself name (ht name hmem name (List.mem_singleton_self _))
          obtain ⟨id, hid⟩ := hr.opened name hmem hp
          cases hu.symm.trans hid
        exact Reads.exists_definition hu hfree hd (hall name body hd) hr fun hs hm hr =>
          ihn _ (Definitions.length_free_cons_lt hd hfree) hs rfl (ht.enter hd hm) hr
    induction h with
    | leaf => exact fun _ _ => ⟨_, _, .leaf⟩
    | wrapper _ ih =>
      intro s ht hr
      obtain ⟨ids, t, h⟩ := ih ht hr
      obtain ⟨id, rfl⟩ := h.eq_singleton
      exact ⟨_, _, .wrapper h⟩
    | list _ ih =>
      intro s ht hr
      obtain ⟨ids, t, h⟩ := ih ht hr
      obtain ⟨id, rfl⟩ := h.eq_singleton
      exact ⟨_, _, .list h⟩
    | union _ ih =>
      intro s ht hr
      obtain ⟨ids, t, h⟩ := ih ht.union hr
      exact ⟨_, _, .union h⟩
    | object _ ih =>
      intro s ht hr
      obtain ⟨ids, t, h⟩ := ih ht.object hr
      exact ⟨_, _, .object h⟩
    | merge _ objects ih =>
      intro s ht hr
      obtain ⟨ids, t, h⟩ := ih ht.merge hr
      refine ⟨_, _, .merge h (h.forall_isObject hr.sane hr.objects ?_)⟩
      rintro _ hmem
      obtain ⟨o, ho, rfl⟩ := List.mem_map.1 hmem
      exact objects o ho
    | reference means defined =>
      intro s ht hr
      obtain ⟨ids, t, h⟩ := hdef defined (ht.reference means) hr
      obtain ⟨id, rfl⟩ := h.eq_singleton
      exact ⟨_, _, .reference means defined h⟩
    | definition defined => exact hdef defined
    | nil => exact fun _ _ => ⟨_, _, .nil⟩
    | cons _ _ ih₁ ih₂ =>
      intro s ht hr
      obtain ⟨ids, t, h⟩ := ih₁ ht.first hr
      obtain ⟨id, rfl⟩ := h.eq_singleton
      obtain ⟨ids', u, h'⟩ := ih₂ ht.rest (hr.read h)
      exact ⟨_, _, .cons h h'⟩

end ShapeSdl
