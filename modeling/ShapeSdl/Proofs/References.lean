import ShapeSdl.Proofs.Reads
import Mathlib.Logic.Relation

/-!
# Which definitions lead to which

* `Outline.mentions` : the definitions that the references of an outline mean;
* `Definitions.Refers`, `Definitions.Leads` : a definition refers to what its body mentions, and
  leads to what it refers to, at once or through others;
* `Trail` : every definition that is being read leads to what is to be read;
* `Session.Opened` : the unfinished objects are those of definitions that are being read;
* `Reads.closed` : what is mentioned has been read, and what has been read has nothing unread left.
-/

namespace ShapeSdl

/-! ## Mentions -/

namespace Outline

mutual

/-- The definitions that the references of an outline mean. -/
def mentions : Outline → List String
  | fault _ | leaf .. => []
  | reference ref _ => ref.referred?.toList
  | refused inner _ | wrapper _ _ _ inner | list _ _ inner => mentions inner
  | union _ _ os | merge _ _ os => mentionsAll os
  | object _ _ fields => mentionsFields fields

def mentionsAll : List Outline → List String
  | [] => []
  | o :: rest => mentions o ++ mentionsAll rest

def mentionsFields : List (String × Outline) → List String
  | [] => []
  | (_, o) :: rest => mentions o ++ mentionsFields rest

end

end Outline

def Job.mentions : Job → List String
  | outline o => o.mentions
  | definition name => [name]

def Task.mentions : Task → List String
  | one job => job.mentions
  | all jobs => jobs.flatMap Job.mentions

theorem Outline.mentionsAll_eq (os : List Outline) :
    mentionsAll os = (Task.all (os.map .outline)).mentions := by
  induction os with
  | nil => rfl
  | cons o rest ih => rw [mentionsAll, ih]; rfl

theorem Outline.mentionsFields_eq (fields : List (String × Outline)) :
    mentionsFields fields = (Task.all (fieldJobs fields)).mentions := by
  induction fields with
  | nil => rfl
  | cons field rest ih => rw [mentionsFields, ih]; rfl

namespace Definitions

def IsPlain (definitions : Definitions) (name : String) : Prop :=
  ∃ body, definitions.lookup name = some body ∧ body.isPlainObject = .ok true

/-- The body of definition `name` mentions definition `other`. -/
def Refers (definitions : Definitions) (name other : String) : Prop :=
  ∃ body, definitions.lookup name = some body ∧ other ∈ (body.outline (path name)).mentions

/-- Definition `name` refers to definition `other`, at once or through others. -/
def Leads (definitions : Definitions) : String → String → Prop :=
  Relation.TransGen (Refers definitions)

end Definitions

/-! ## The trail -/

/-- Every definition that is being read leads to what is to be read. -/
def Trail (definitions : Definitions) (stack : List String) (task : Task) : Prop :=
  ∀ name ∈ stack, ∀ other ∈ task.mentions, definitions.Leads name other

namespace Trail

variable {definitions : Definitions} {stack : List String} {task task' : Task}

theorem nil (definitions : Definitions) (task : Task) : Trail definitions [] task := by
  intro name hname
  cases hname

theorem mono (h : Trail definitions stack task) (hm : task'.mentions ⊆ task.mentions) :
    Trail definitions stack task' := fun name hname other hother => h name hname other (hm hother)

theorem enter {name : String} {body : Json} (h : Trail definitions stack (.one (.definition name)))
    (hd : definitions.lookup name = some body)
    (hm : task.mentions ⊆ (body.outline (Definitions.path name)).mentions) :
    Trail definitions (name :: stack) task := by
  intro other hother m hmem
  have hlast : definitions.Refers name m := ⟨body, hd, hm hmem⟩
  rcases List.mem_cons.1 hother with rfl | hother
  · exact .single hlast
  · exact .tail (h other hother name (List.mem_singleton_self _)) hlast

theorem union {path : String} {metadata : List (String × Json)} {variants : List Outline}
    (h : Trail definitions stack (.one (.outline (.union path metadata variants)))) :
    Trail definitions stack (.all (variants.map .outline)) :=
  h.mono (Outline.mentionsAll_eq variants ▸ List.Subset.refl _)

theorem merge {path : String} {metadata : List (String × Json)} {parts : List Outline}
    (h : Trail definitions stack (.one (.outline (.merge path metadata parts)))) :
    Trail definitions stack (.all (parts.map .outline)) :=
  h.mono (Outline.mentionsAll_eq parts ▸ List.Subset.refl _)

theorem object {path : String} {metadata : List (String × Json)} {fields : List (String × Outline)}
    (h : Trail definitions stack (.one (.outline (.object path metadata fields)))) :
    Trail definitions stack (.all (Outline.fieldJobs fields)) :=
  h.mono (Outline.mentionsFields_eq fields ▸ List.Subset.refl _)

theorem reference {ref : Json} {path name : String} (hm : ref.referred? = some name)
    (h : Trail definitions stack (.one (.outline (.reference ref path)))) :
    Trail definitions stack (.one (.definition name)) := by
  apply h.mono
  intro other hother
  show other ∈ ref.referred?.toList
  rwa [hm]

theorem first {job : Job} {jobs : List Job} (h : Trail definitions stack (.all (job :: jobs))) :
    Trail definitions stack (.one job) := h.mono (List.subset_append_left _ _)

theorem rest {job : Job} {jobs : List Job} (h : Trail definitions stack (.all (job :: jobs))) :
    Trail definitions stack (.all jobs) := h.mono (List.subset_append_right _ _)

end Trail

/-! ## Objects that are being read -/

/-- The unfinished objects are those of definitions that are being read. -/
def Session.Opened (definitions : Definitions) (stack : List String) (s : Session) : Prop :=
  ∀ id ∈ s.unfinished, ∃ name ∈ stack, definitions.IsPlain name ∧ s.known.get? name = some id

namespace Session

variable {definitions : Definitions} {stack : List String} {s t : Session}

theorem Opened.mono {stack' : List String} (h : s.Opened definitions stack)
    (hu : t.unfinished = s.unfinished) (hs : stack ⊆ stack')
    (hk : ∀ name id, s.known.get? name = some id → t.known.get? name = some id) :
    t.Opened definitions stack' := by
  intro id hid
  obtain ⟨name, hname, hplain, hn⟩ := h id (hu ▸ hid)
  exact ⟨name, hs hname, hplain, hk _ _ hn⟩

theorem Opened.openObject (h : s.Opened definitions stack) {name : String}
    (hp : definitions.IsPlain name) (hu : s.known.get? name = none) (path : String)
    (metadata : List (String × Json)) :
    ((s.enter name).openObject name path metadata).Opened definitions (name :: stack) := by
  refine List.forall_mem_cons.2 ⟨⟨name, List.mem_cons_self, hp, Entries.get?_put_self ..⟩, ?_⟩
  intro id hid
  obtain ⟨other, hother, hplain, hk⟩ := h id hid
  exact ⟨other, List.mem_cons_of_mem _ hother, hplain,
    (grows_openObject hu path metadata).known _ _ hk⟩

end Session

/-! ## What reading leaves -/

namespace Session

def Knows (s : Session) (name : String) : Prop := ∃ id, s.known.get? name = some id

theorem Grows.knows {s t : Session} (h : s.Grows t) {name : String} (hs : s.Knows name) :
    t.Knows name := by
  obtain ⟨id, hid⟩ := hs
  exact ⟨id, h.known name id hid⟩

theorem knows_put_of_ne {e : Entries String NodeId} {name other : String} {id : NodeId}
    (hne : other ≠ name) (h : ∃ i, (e.put name id).get? other = some i) :
    ∃ i, e.get? other = some i := by
  rwa [Entries.get?_put_of_ne _ _ hne] at h

end Session

namespace Reads

variable {definitions : Definitions} {stack : List String} {task : Task} {s t : Session}
  {ids : List NodeId}

/-- Every object that is opened is closed again. -/
theorem unfinished_eq (h : Reads definitions stack task s ids t) : t.unfinished = s.unfinished := by
  induction h with
  | leaf | known | nil => rfl
  | wrapper _ ih | list _ ih | union _ ih | object _ ih | merge _ _ ih | reference _ _ _ ih => exact ih
  | plain _ _ _ _ _ _ ih => rw [Session.closeObject, ih]; rfl
  | other _ _ _ _ _ ih => exact ih
  | cons _ _ ih₁ ih₂ => exact ih₂.trans ih₁

/-- What a task mentions has a node afterwards. -/
theorem knows (h : Reads definitions stack task s ids t) (hs : s.Sane) :
    ∀ name ∈ task.mentions, t.Knows name := by
  induction h with
  | leaf | nil => simp [Task.mentions, Job.mentions, Outline.mentions]
  | wrapper _ ih | list _ ih => exact ih hs
  | @union _ _ _ _ _ variants _ _ ih | @merge _ _ _ _ _ variants _ _ _ ih =>
    intro name hname
    apply ih hs name
    rwa [← Outline.mentionsAll_eq]
  | object _ ih =>
    intro name hname
    apply ih hs name
    rwa [← Outline.mentionsFields_eq]
  | reference means _ _ ih =>
    intro name hname
    apply ih hs name
    rw [Task.mentions, Job.mentions, Outline.mentions, means] at hname
    exact hname
  | known hk =>
    intro name hname
    rw [List.mem_singleton.1 hname]
    exact ⟨_, hk⟩
  | plain hu hfree hd hp ho inside =>
    intro name hname
    rw [List.mem_singleton.1 hname]
    exact ⟨_, (plain hu hfree hd hp ho inside).known_of_definition hs⟩
  | other hu hfree hd hp inside =>
    intro name hname
    rw [List.mem_singleton.1 hname]
    exact ⟨_, (other hu hfree hd hp inside).known_of_definition hs⟩
  | cons first rest ih₁ ih₂ =>
    refine List.forall_mem_append.2 ⟨fun name hname => ?_, ih₂ (first.sane hs)⟩
    exact (rest.grows (first.sane hs)).1.knows (ih₁ hs name hname)

/-- A definition that has been read meanwhile has left nothing unread that it refers to. -/
theorem closed (h : Reads definitions stack task s ids t) (hs : s.Sane) :
    ∀ name, ¬ s.Knows name → t.Knows name →
      ∀ other, definitions.Refers name other → t.Knows other := by
  induction h with
  | leaf | nil | known => exact fun name hun hk => absurd hk hun
  | wrapper _ ih | list _ ih | union _ ih | object _ ih | merge _ _ ih | reference _ _ _ ih =>
    exact ih hs
  | @plain stack s t name body path metadata fields ids hu _ hd _ ho inside ih =>
    intro other hun hk m hm
    have hso := Session.sane_openObject (s := s.enter name) hs name path metadata
    by_cases he : other = name
    · subst he
      obtain ⟨body', hd', hm⟩ := hm
      cases hd.symm.trans hd'
      rw [ho, Outline.mentions, Outline.mentionsFields_eq] at hm
      exact inside.knows hso m hm
    · exact ih hso other (fun h => hun (Session.knows_put_of_ne he h)) hk m hm
  | @other stack s t name body id hu _ hd _ inside ih =>
    intro other hun hk m hm
    have hg := Session.grows_remember (inside.unknown_of_mem List.mem_cons_self hu) id
    by_cases he : other = name
    · subst he
      obtain ⟨body', hd', hm⟩ := hm
      cases hd.symm.trans hd'
      exact hg.knows (inside.knows hs m hm)
    · exact hg.knows (ih hs other hun (Session.knows_put_of_ne he hk) m hm)
  | @cons stack s t u job jobs id ids first rest ih₁ ih₂ =>
    intro name hun hk m hm
    by_cases ht : t.Knows name
    · exact (rest.grows (first.sane hs)).1.knows (ih₁ hs name hun ht m hm)
    · exact ih₂ (first.sane hs) name ht hk m hm

end Reads

end ShapeSdl
