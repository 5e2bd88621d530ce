import ShapeSdl.Proofs.Layout
import ShapeSdl.Proofs.OwnPath

/-!
# Aliases

* `Definitions.isAlias` : whether a definition only hands on the node of another one, as a bare
  reference does, or a union whose only variant is one (`Json.outline_of_ref`,
  `Json.outline_of_variant`);
* `Definitions.Root` : the definition at the end of a chain of aliases (`Root.unique`);
* `Reads.rooted` : a definition that has been read has the node of its root;
* `Layout.root_eq` : definitions with one node have one root.
-/

namespace ShapeSdl

/-- Whether reading makes no node and hands on that of a definition. -/
def Outline.isReference : Outline → Bool
  | reference .. => true
  | _ => false

theorem Outline.isReference_iff {o : Outline} :
    o.isReference = true ↔ ∃ ref path, o = .reference ref path := by
  cases o <;> simp [isReference]

namespace Json

theorem outline_of_ref {schema ref : Json} {entries : List (String × Json)}
    (he : schema.entries = .ok entries) (hf : schema.form = .reference ref) (path : String) :
    schema.outline path = .reference ref path := by
  rw [outline_eq he, hf]

end Json

namespace Definitions

/-- Whether a definition only hands on the node of another one. -/
def isAlias (definitions : Definitions) (name : String) : Bool :=
  (definitions.lookup name).any fun body => (body.outline (path name)).isReference

/-- The definition that a chain of aliases ends with. -/
inductive Root (definitions : Definitions) : String → String → Prop
  | self {name body} (defined : definitions.lookup name = some body)
      (stays : (body.outline (path name)).isReference = false) : Root definitions name name
  | step {name body ref at_ next root} (defined : definitions.lookup name = some body)
      (hands : body.outline (path name) = .reference ref at_) (means : ref.referred? = some next)
      (onward : Root definitions next root) : Root definitions name root

variable {definitions : Definitions} {name root other : String}

theorem IsPlain.isAlias (h : definitions.IsPlain name) : definitions.isAlias name = false := by
  obtain ⟨body, hd, hp⟩ := h
  obtain ⟨entries, -, ho⟩ := Json.outline_of_isPlainObject hp
  rw [Definitions.isAlias, hd, Option.any_some, ho]
  cases body.fieldsOutline (path name) <;> rfl

theorem IsPlain.root_self (h : definitions.IsPlain name) : Root definitions name name := by
  have ha := h.isAlias
  obtain ⟨body, hd, -⟩ := h
  rw [Definitions.isAlias, hd] at ha
  exact .self hd ha

theorem lookup_of_isAlias (h : definitions.isAlias name = true) :
    ∃ body, definitions.lookup name = some body := by
  rw [Definitions.isAlias, Option.any_eq_true] at h
  obtain ⟨body, hd, -⟩ := h
  exact ⟨body, hd⟩

theorem Root.lookup (h : Root definitions name root) :
    ∃ body, definitions.lookup root = some body := by
  induction h with
  | self hd => exact ⟨_, hd⟩
  | step _ _ _ _ ih => exact ih

theorem Root.isAlias (h : Root definitions name root) : definitions.isAlias root = false := by
  induction h with
  | self hd hs => rw [Definitions.isAlias, hd]; exact hs
  | step _ _ _ _ ih => exact ih

theorem Root.unique (h : Root definitions name root) (h' : Root definitions name other) :
    root = other := by
  induction h with
  | self hd hs =>
    cases h' with
    | self => rfl
    | step hd' hh =>
      cases hd.symm.trans hd'
      rw [hh] at hs
      cases hs
  | step hd hh hm _ ih =>
    cases h' with
    | self hd' hs =>
      cases hd.symm.trans hd'
      rw [hh] at hs
      cases hs
    | step hd' hh' hm' ho =>
      cases hd.symm.trans hd'
      cases hh.symm.trans hh'
      cases hm.symm.trans hm'
      exact ih ho

theorem Root.eq_self (h : Root definitions name root) (ha : definitions.isAlias name = false) :
    root = name := by
  cases h with
  | self => rfl
  | step hd hh =>
    rw [Definitions.isAlias, hd] at ha
    simp only [Option.any_some, hh] at ha
    cases ha

theorem Root.leads (h : Root definitions name root) :
    Relation.ReflTransGen (Refers definitions) name root := by
  induction h with
  | self => exact .refl
  | step hd hh hm _ ih =>
    refine .head ⟨_, hd, ?_⟩ ih
    rw [hh, Outline.mentions, hm]
    exact List.mem_singleton_self _

end Definitions

/-- Every definition that has a node has that of its root. -/
def Session.Rooted (definitions : Definitions) (s : Session) : Prop :=
  ∀ name id, s.known.get? name = some id →
    ∃ root, definitions.Root name root ∧ s.known.get? root = some id

/-- A definition that is its own root or has just been traced to one is rooted. -/
theorem Session.Rooted.settle {definitions : Definitions} {s t : Session} (h : s.Rooted definitions)
    {name root : String} {id : NodeId} (hr : definitions.Root name root)
    (hroot : t.known.get? root = some id) (hname : t.known.get? name = some id)
    (hk : ∀ other, other ≠ name → t.known.get? other = s.known.get? other)
    (hg : ∀ other j, s.known.get? other = some j → t.known.get? other = some j) :
    t.Rooted definitions := by
  intro other j hj
  by_cases he : other = name
  · subst he
    cases hname.symm.trans hj
    exact ⟨root, hr, hroot⟩
  · rw [hk other he] at hj
    obtain ⟨r, hr, hrj⟩ := h other j hj
    exact ⟨r, hr, hg r j hrj⟩

/-- A definition that has been read has the node of its root. -/
theorem Reads.rooted {definitions : Definitions} {stack : List String} {task : Task} {s t : Session}
    {ids : List NodeId} (h : Reads definitions stack task s ids t) (hs : s.Sane)
    (hr : s.Rooted definitions) : t.Rooted definitions := by
  induction h with
  | leaf | known | nil => exact hr
  | wrapper _ ih | list _ ih | union _ ih | object _ ih | merge _ _ ih | reference _ _ _ ih =>
    exact ih hs hr
  | @plain stack s t name body path metadata fields ids hu hfree hd _ ho inside ih =>
    have hg := Session.grows_openObject hu path metadata
    have hself : definitions.Root name name := .self hd (by rw [ho]; rfl)
    apply ih (Session.sane_openObject (s := s.enter name) hs name path metadata)
    exact hr.settle hself (Entries.get?_put_self ..) (Entries.get?_put_self ..)
      (fun _ he => Entries.get?_put_of_ne _ _ he) hg.known
  | @other stack s t name body id hu hfree hd _ inside ih =>
    have ht := ih hs hr
    have hun := inside.unknown_of_mem List.mem_cons_self hu
    have hg := Session.grows_remember hun id
    have hk : ∀ other, other ≠ name → (t.remember name id).known.get? other = t.known.get? other :=
      fun _ he => Entries.get?_put_of_ne _ _ he
    have hname : (t.remember name id).known.get? name = some id := Entries.get?_put_self ..
    cases hb : (body.outline (Definitions.path name)).isReference with
    | false => exact ht.settle (.self hd hb) hname hname hk hg.known
    | true =>
      obtain ⟨ref, at_, ho⟩ := Outline.isReference_iff.1 hb
      rw [ho] at inside
      cases inside with
      | reference means _ inside =>
        obtain ⟨root, hroot, hkr⟩ := ht _ _ (inside.known_of_definition hs)
        exact ht.settle (.step hd ho means hroot) (hg.known _ _ hkr) hname hk hg.known
  | cons first _ ih₁ ih₂ => exact ih₂ (first.sane hs) (ih₁ hs hr)

/-- A definition that is its own root owns its node. -/
theorem Layout.mem_own {definitions : Definitions} {own : String → List NodeId}
    {stack : List String} {s : Session} (L : Layout definitions own stack s) {name : String}
    {id : NodeId} (ha : definitions.isAlias name = false) (hfree : name ∉ stack)
    (hk : s.known.get? name = some id) : id ∈ own name := by
  obtain ⟨body, _, hd, -, hb⟩ := L.built name id hk hfree
  have ho : ∀ ref path, body.outline (Definitions.path name) ≠ .reference ref path := by
    intro ref path ho
    rw [Definitions.isAlias, hd, Option.any_some, ho] at ha
    cases ha
  obtain ⟨path, hp⟩ := hb.path? ho
  obtain ⟨⟨inner, hown⟩, -⟩ := hb.last hp
  rw [hown]
  exact List.mem_append_right _ (List.mem_singleton_self _)

/-- Definitions with one node have one root. -/
theorem Layout.root_eq {definitions : Definitions} {own : String → List NodeId} {s : Session}
    (L : Layout definitions own [] s) (hr : s.Rooted definitions) {name other root root' : String}
    {id : NodeId} (hname : s.known.get? name = some id) (hother : s.known.get? other = some id)
    (h : definitions.Root name root) (h' : definitions.Root other root') : root = root' := by
  obtain ⟨r, hroot, hk⟩ := hr name id hname
  obtain ⟨r', hroot', hk'⟩ := hr other id hother
  cases hroot.unique h
  cases hroot'.unique h'
  exact L.apart _ _ id (L.mem_own h.isAlias List.not_mem_nil hk)
    (L.mem_own h'.isAlias List.not_mem_nil hk')

end ShapeSdl
