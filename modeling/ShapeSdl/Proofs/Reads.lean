import ShapeSdl.Proofs.Outline
import ShapeSdl.Schema.Document

/-!
# Reading by rules

* `Reads definitions stack task s ids t` : reading a task takes session `s` to session `t` and gives
  the nodes `ids`, while the definitions `stack` are being read. One rule for each outline that is
  not refused, and three for a definition: it has its node already, it is an object, it is none;
* `Session.Sane`, `Session.Grows`, `Reads.grows` : reading only adds. Nodes that are there stay as
  they are, and a definition keeps its node;
* `Reads.unique` : reading gives one result;
* `Outline.run_eq_ok_iff`, `readDefinition_eq_ok_iff` : reading succeeds exactly by the rules.
-/

namespace ShapeSdl

open Reading
open Fault (bind_eq_ok bind_eq_error pure_eq_ok)

/-! ## What is read -/

/-- A schema by its outline, or a definition by its name. -/
inductive Job where
  | outline (o : Outline)
  | definition (name : String)

/-- One thing to be read, or several one after the other. -/
inductive Task where
  | one (job : Job)
  | all (jobs : List Job)

/-- The name of the definition that a reference within the document means. -/
def Json.referred? : Json → Option String
  | .str text =>
    if Text.startsWith "#" text then some (Reference.definitionName text) else none
  | _ => none

/-- The fields of an object whose fields have these outlines and nodes. -/
def Outline.fieldRefs (fields : List (String × Outline)) (ids : List NodeId) : Entries String Ref :=
  .ofList ((fields.map Prod.fst).zip (ids.map some))

def Outline.fieldJobs (fields : List (String × Outline)) : List Job :=
  fields.map fun field => .outline field.2

namespace Graph

/-- The fields of a node; none if it is no object. -/
def fields (g : Graph) (r : Ref) : Entries String Ref :=
  match g.shape? r with
  | some (.object fields) => fields
  | _ => ∅

theorem isObject_iff {g : Graph} {r : Ref} :
    g.isObject r = true ↔ ∃ fields, g.shape? r = some (.object fields) := by
  unfold isObject
  constructor
  · intro h
    cases hs : g.shape? r with
    | none => rw [hs] at h; cases h
    | some shape =>
      rw [hs] at h
      cases shape <;> first | exact ⟨_, rfl⟩ | cases h
  · rintro ⟨fields, h⟩
    rw [h]
    rfl

/-- The fields of several nodes written over `fields`, in order. -/
def mergedOver (g : Graph) (fields : Entries String Ref) (ids : List NodeId) : Entries String Ref :=
  ids.foldl (fun fields id => fields.putAll (g.fields (some id)).toList) fields

def merged (g : Graph) (ids : List NodeId) : Entries String Ref := g.mergedOver ∅ ids

@[simp] theorem mergedOver_nil (g : Graph) (fields : Entries String Ref) :
    g.mergedOver fields [] = fields := rfl

theorem mergedOver_cons (g : Graph) (fields : Entries String Ref) (id : NodeId)
    (ids : List NodeId) : g.mergedOver fields (id :: ids) =
      g.mergedOver (fields.putAll (g.fields (some id)).toList) ids := rfl

end Graph

/-! ## The rules -/

/-- Reading a task takes session `s` to session `t` and gives the nodes `ids`. -/
inductive Reads (definitions : Definitions) :
    List String → Task → Session → List NodeId → Session → Prop
  | leaf {stack s n h} :
      Reads definitions stack (.one (.outline (.leaf n h))) s [s.graph.size] (s.add n)
  | wrapper {stack s t path kind value inner id}
      (inside : Reads definitions stack (.one (.outline inner)) s [id] t) :
      Reads definitions stack (.one (.outline (.wrapper path kind value inner))) s [t.graph.size]
        (t.add ⟨path, [], .wrapper kind (some id) value⟩)
  | list {stack s t path metadata element id}
      (inside : Reads definitions stack (.one (.outline element)) s [id] t) :
      Reads definitions stack (.one (.outline (.list path metadata element))) s [t.graph.size]
        (t.add ⟨path, metadata, .list (some id)⟩)
  | union {stack s t path metadata variants ids}
      (inside : Reads definitions stack (.all (variants.map .outline)) s ids t) :
      Reads definitions stack (.one (.outline (.union path metadata variants))) s [t.graph.size]
        (t.add ⟨path, metadata, .union (ids.map some)⟩)
  | object {stack s t path metadata fields ids}
      (inside : Reads definitions stack (.all (Outline.fieldJobs fields)) s ids t) :
      Reads definitions stack (.one (.outline (.object path metadata fields))) s [t.graph.size]
        (t.add ⟨path, metadata, .object (Outline.fieldRefs fields ids)⟩)
  | merge {stack s t path metadata parts ids}
      (inside : Reads definitions stack (.all (parts.map .outline)) s ids t)
      (objects : ∀ id ∈ ids, t.graph.isObject (some id) = true) :
      Reads definitions stack (.one (.outline (.merge path metadata parts))) s [t.graph.size]
        (t.addMerged path metadata (t.graph.merged ids) ids)
  | reference {stack s t ref path name id} (means : ref.referred? = some name)
      (defined : (definitions.lookup name).isSome)
      (inside : Reads definitions stack (.one (.definition name)) s [id] t) :
      Reads definitions stack (.one (.outline (.reference ref path))) s [id] t
  | known {stack s name id} (known : s.known.get? name = some id) :
      Reads definitions stack (.one (.definition name)) s [id] s
  | plain {stack s t name body path metadata fields ids} (unknown : s.known.get? name = none)
      (free : name ∉ stack) (defined : definitions.lookup name = some body)
      (isPlain : body.isPlainObject = .ok true)
      (outlined : body.outline (Definitions.path name) = .object path metadata fields)
      (inside : Reads definitions (name :: stack) (.all (Outline.fieldJobs fields))
        ((s.enter name).openObject name path metadata) ids t) :
      Reads definitions stack (.one (.definition name)) s [s.graph.size]
        (t.closeObject s.graph.size (Outline.fieldRefs fields ids))
  | other {stack s t name body id} (unknown : s.known.get? name = none)
      (free : name ∉ stack) (defined : definitions.lookup name = some body)
      (isOther : body.isPlainObject = .ok false)
      (inside : Reads definitions (name :: stack)
        (.one (.outline (body.outline (Definitions.path name)))) (s.enter name) [id] t) :
      Reads definitions stack (.one (.definition name)) s [id] (t.remember name id)
  | nil {stack s} : Reads definitions stack (.all []) s [] s
  | cons {stack s t u job jobs id ids}
      (first : Reads definitions stack (.one job) s [id] t)
      (rest : Reads definitions stack (.all jobs) t ids u) :
      Reads definitions stack (.all (job :: jobs)) s (id :: ids) u

/-- Reading is the same where all definitions are, and more. -/
theorem Reads.mono {definitions definitions' : Definitions} {stack : List String} {task : Task}
    {s t : Session} {ids : List NodeId} (h : Reads definitions stack task s ids t)
    (hl : ∀ name body, definitions.lookup name = some body → definitions'.lookup name = some body) :
    Reads definitions' stack task s ids t := by
  induction h with
  | leaf => exact .leaf
  | wrapper _ ih => exact .wrapper ih
  | list _ ih => exact .list ih
  | union _ ih => exact .union ih
  | object _ ih => exact .object ih
  | merge _ objects ih => exact .merge ih objects
  | reference means defined _ ih =>
    obtain ⟨body, hbody⟩ := Option.isSome_iff_exists.1 defined
    exact .reference means (Option.isSome_of_eq_some (hl _ _ hbody)) ih
  | known known => exact .known known
  | plain unknown free defined isPlain outlined _ ih =>
    exact .plain unknown free (hl _ _ defined) isPlain outlined ih
  | other unknown free defined isOther _ ih => exact .other unknown free (hl _ _ defined) isOther ih
  | nil => exact .nil
  | cons _ _ ih₁ ih₂ => exact .cons ih₁ ih₂

theorem Reads.congr {definitions definitions' : Definitions} {stack : List String} {task : Task}
    {s t : Session} {ids : List NodeId} (h : Reads definitions stack task s ids t)
    (hl : ∀ name, definitions.lookup name = definitions'.lookup name) :
    Reads definitions' stack task s ids t := h.mono fun name _ hbody => (hl name).symm.trans hbody

theorem Reads.append {definitions : Definitions} {stack : List String} {jobs more : List Job}
    {s t u : Session} {ids ids' : List NodeId} (h : Reads definitions stack (.all jobs) s ids t)
    (hmore : Reads definitions stack (.all more) t ids' u) :
    Reads definitions stack (.all (jobs ++ more)) s (ids ++ ids') u := by
  induction jobs generalizing s ids with
  | nil => cases h; exact hmore
  | cons job jobs ih =>
    cases h with
    | cons first rest => exact .cons first (ih rest)

theorem Reads.of_append {definitions : Definitions} {stack : List String} {jobs more : List Job}
    {s u : Session} {ids : List NodeId}
    (h : Reads definitions stack (.all (jobs ++ more)) s ids u) :
    ∃ before after t, Reads definitions stack (.all jobs) s before t ∧
      Reads definitions stack (.all more) t after u ∧ ids = before ++ after := by
  induction jobs generalizing s ids with
  | nil => exact ⟨[], ids, s, .nil, h, rfl⟩
  | cons job jobs ih =>
    cases h with
    | cons first rest =>
      obtain ⟨before, after, t, hjobs, hmore, rfl⟩ := ih rest
      exact ⟨_, after, t, .cons first hjobs, hmore, rfl⟩

/-! ## Sessions that grow -/

namespace Graph

/-- Graph `h` has the nodes of graph `g` as they are, and perhaps more. -/
structure Grows (g h : Graph) : Prop where
  size_le : g.size ≤ h.size
  node? : ∀ id < g.size, h.node? (some id) = g.node? (some id)

theorem Grows.refl (g : Graph) : g.Grows g := ⟨Nat.le_refl _, fun _ _ => rfl⟩

theorem Grows.trans {g h k : Graph} (h₁ : g.Grows h) (h₂ : h.Grows k) : g.Grows k :=
  ⟨Nat.le_trans h₁.size_le h₂.size_le,
    fun id hid => (h₂.node? id (Nat.lt_of_lt_of_le hid h₁.size_le)).trans (h₁.node? id hid)⟩

theorem Grows.shape? {g h : Graph} (hg : g.Grows h) {id : NodeId} (hid : id < g.size) :
    h.shape? (some id) = g.shape? (some id) := by
  rw [Graph.shape?, hg.node? id hid, Graph.shape?]

theorem Grows.isObject {g h : Graph} (hg : g.Grows h) {id : NodeId} (hid : id < g.size) :
    h.isObject (some id) = g.isObject (some id) := by
  rw [Graph.isObject, hg.shape? hid, Graph.isObject]

theorem Grows.fields {g h : Graph} (hg : g.Grows h) {id : NodeId} (hid : id < g.size) :
    h.fields (some id) = g.fields (some id) := by
  rw [Graph.fields, hg.shape? hid, Graph.fields]

end Graph

namespace Session

/-- Every definition that has a node has one of the graph. -/
def Sane (s : Session) : Prop := ∀ name id, s.known.get? name = some id → id < s.graph.size

/-- Session `t` comes later than session `s`: nodes stay, and definitions keep theirs. -/
structure Grows (s t : Session) : Prop extends s.graph.Grows t.graph where
  known : ∀ name id, s.known.get? name = some id → t.known.get? name = some id
  merges : s.merges ⊆ t.merges

theorem Grows.refl (s : Session) : s.Grows s := ⟨.refl _, fun _ _ h => h, List.Subset.refl _⟩

theorem Grows.trans {s t u : Session} (h₁ : s.Grows t) (h₂ : t.Grows u) : s.Grows u :=
  ⟨h₁.toGrows.trans h₂.toGrows, fun name id h => h₂.known name id (h₁.known name id h),
    List.Subset.trans h₁.merges h₂.merges⟩

@[simp] theorem size_add (s : Session) (n : Node) : (s.add n).graph.size = s.graph.size + 1 :=
  Graph.size_add ..

@[simp] theorem known_add (s : Session) (n : Node) : (s.add n).known = s.known := rfl

theorem node?_add_self (s : Session) (n : Node) :
    (s.add n).graph.node? (some s.graph.size) = some n := by
  simp [add, Graph.node?_add]

theorem grows_add (s : Session) (n : Node) : s.Grows (s.add n) := by
  refine ⟨⟨by simp, fun id hid => ?_⟩, fun _ _ h => h, List.Subset.refl _⟩
  rw [add, Graph.node?_add, if_neg (Nat.ne_of_lt hid)]

theorem sane_add {s : Session} (h : s.Sane) (n : Node) : (s.add n).Sane :=
  fun name id hk => Nat.lt_of_lt_of_le (h name id hk) (s.grows_add n).size_le

theorem grows_addMerged (s : Session) (path : String) (metadata : List (String × Json))
    (fields : Entries String Ref) (parts : List NodeId) :
    s.Grows (s.addMerged path metadata fields parts) :=
  have h := s.grows_add ⟨path, metadata, .object fields⟩
  ⟨h.toGrows, h.known, List.subset_cons_self _ _⟩

theorem grows_remember {s : Session} {name : String} (h : s.known.get? name = none) (id : NodeId) :
    s.Grows (s.remember name id) := by
  refine ⟨.refl _, fun other i hi => ?_, List.Subset.refl _⟩
  have hne : other ≠ name := by rintro rfl; simp [h] at hi
  rwa [remember, Entries.get?_put_of_ne _ _ hne]

theorem sane_remember {s : Session} (h : s.Sane) {name : String} {id : NodeId}
    (hid : id < s.graph.size) : (s.remember name id).Sane := by
  intro other i hi
  rw [remember, Entries.get?_put] at hi
  split at hi
  · cases hi; exact hid
  · exact h other i hi

theorem grows_openObject {s : Session} {name : String} (h : s.known.get? name = none)
    (path : String) (metadata : List (String × Json)) :
    s.Grows ((s.enter name).openObject name path metadata) :=
  have hg := (s.grows_add ⟨path, metadata, .object ∅⟩).trans
    (grows_remember (s := s.add ⟨path, metadata, .object ∅⟩) h s.graph.size)
  ⟨hg.toGrows, hg.known, hg.merges⟩

theorem sane_openObject {s : Session} (h : s.Sane) (name path : String)
    (metadata : List (String × Json)) : (s.openObject name path metadata).Sane :=
  sane_remember (sane_add h ⟨path, metadata, .object ∅⟩) (by simp)

@[simp] theorem size_openObject (s : Session) (name path : String)
    (metadata : List (String × Json)) :
    (s.openObject name path metadata).graph.size = s.graph.size + 1 := s.size_add _

@[simp] theorem size_addMerged (s : Session) (path : String) (metadata : List (String × Json))
    (fields : Entries String Ref) (parts : List NodeId) :
    (s.addMerged path metadata fields parts).graph.size = s.graph.size + 1 := s.size_add _

theorem shape?_addMerged_self (s : Session) (path : String) (metadata : List (String × Json))
    (fields : Entries String Ref) (parts : List NodeId) :
    (s.addMerged path metadata fields parts).graph.shape? (some s.graph.size) =
      some (.object fields) :=
  congrArg (Option.map Node.shape) (s.node?_add_self ⟨path, metadata, .object fields⟩)

theorem node?_closeObject_of_ne (s : Session) {id j : NodeId} (fields : Entries String Ref)
    (h : j ≠ id) : (s.closeObject id fields).graph.node? (some j) = s.graph.node? (some j) :=
  Graph.node?_setShape_of_ne _ _ h

theorem node?_closeObject_self {s : Session} {id : NodeId} {n : Node}
    (h : s.graph.node? (some id) = some n) (fields : Entries String Ref) :
    (s.closeObject id fields).graph.node? (some id) = some { n with shape := .object fields } := by
  rw [closeObject, Graph.node?_setShape_self, h]
  rfl

theorem shape?_closeObject_of_ne (s : Session) {id j : NodeId} (fields : Entries String Ref)
    (h : j ≠ id) : (s.closeObject id fields).graph.shape? (some j) = s.graph.shape? (some j) :=
  congrArg (Option.map Node.shape) (s.node?_closeObject_of_ne fields h)

theorem isObject_closeObject {s : Session} {id j : NodeId} (fields : Entries String Ref)
    (h : s.graph.isObject (some j) = true) :
    (s.closeObject id fields).graph.isObject (some j) = true := by
  by_cases he : j = id
  · subst he
    obtain ⟨old, hold⟩ := Graph.isObject_iff.1 h
    obtain ⟨n, hn, -⟩ := Option.map_eq_some_iff.1 hold
    rw [Graph.isObject, Graph.shape?, node?_closeObject_self hn]
    rfl
  · rwa [Graph.isObject, shape?_closeObject_of_ne _ _ he]

@[simp] theorem size_closeObject (s : Session) (id : NodeId) (fields : Entries String Ref) :
    (s.closeObject id fields).graph.size = s.graph.size := Graph.size_setShape ..

theorem grows_closeObject {s t : Session} (h : s.Grows t) {id : NodeId} (hid : s.graph.size ≤ id)
    (fields : Entries String Ref) : s.Grows (t.closeObject id fields) := by
  refine ⟨⟨?_, fun j hj => ?_⟩, h.known, h.merges⟩
  · rw [size_closeObject]; exact h.size_le
  · rw [closeObject, Graph.node?_setShape_of_ne _ _ (Nat.ne_of_lt (Nat.lt_of_lt_of_le hj hid))]
    exact h.node? j hj

end Session

namespace Reads

variable {definitions : Definitions} {stack : List String} {task : Task} {s t : Session}
  {ids : List NodeId}

theorem grows (h : Reads definitions stack task s ids t) (hs : s.Sane) :
    s.Grows t ∧ t.Sane ∧ ∀ id ∈ ids, id < t.graph.size := by
  induction h with
  | leaf =>
    exact ⟨Session.grows_add _ _, Session.sane_add hs _, by simp⟩
  | wrapper _ ih | list _ ih | union _ ih | object _ ih =>
    obtain ⟨hg, ht, -⟩ := ih hs
    exact ⟨hg.trans (Session.grows_add _ _), Session.sane_add ht _, by simp⟩
  | merge _ _ ih =>
    obtain ⟨hg, ht, -⟩ := ih hs
    exact ⟨hg.trans (Session.grows_addMerged ..), Session.sane_add ht _, by simp [Session.addMerged]⟩
  | reference _ _ _ ih => exact ih hs
  | known hk => exact ⟨.refl _, hs, by simpa using hs _ _ hk⟩
  | @plain stack s t name body path metadata fields ids hu _ _ _ _ _ ih =>
    obtain ⟨hg, ht, -⟩ := ih (Session.sane_openObject (s := s.enter name) hs _ _ _)
    have hlt : s.graph.size < t.graph.size := by
      have := hg.size_le
      rw [Session.size_openObject] at this
      exact this
    refine ⟨Session.grows_closeObject ((Session.grows_openObject hu _ _).trans hg)
      (Nat.le_refl _) _, fun other i hi => ?_, by simpa using hlt⟩
    rw [Session.size_closeObject]; exact ht other i hi
  | @other stack s t name body id hu _ _ _ _ ih =>
    obtain ⟨hg, ht, hids⟩ := ih hs
    refine ⟨⟨hg.toGrows, fun other i hi => ?_, hg.merges⟩,
      Session.sane_remember ht (by simpa using hids), hids⟩
    have hne : other ≠ name := by rintro rfl; simp [hu] at hi
    rw [Session.remember, Entries.get?_put_of_ne _ _ hne]
    exact hg.known other i hi
  | nil => exact ⟨.refl _, hs, by simp⟩
  | cons _ _ ih₁ ih₂ =>
    obtain ⟨hg₁, hs₁, hid⟩ := ih₁ hs
    obtain ⟨hg₂, hs₂, hids⟩ := ih₂ hs₁
    refine ⟨hg₁.trans hg₂, hs₂, List.forall_mem_cons.2 ⟨?_, hids⟩⟩
    exact Nat.lt_of_lt_of_le (hid _ (List.mem_singleton_self _)) hg₂.size_le

theorem sane (h : Reads definitions stack task s ids t) (hs : s.Sane) : t.Sane := (h.grows hs).2.1

theorem lt {job : Job} {id : NodeId} (h : Reads definitions stack (.one job) s [id] t)
    (hs : s.Sane) : id < t.graph.size := (h.grows hs).2.2 id (List.mem_singleton_self id)

/-- A definition that has been read has its node. -/
theorem known_of_definition {name : String} {id : NodeId}
    (h : Reads definitions stack (.one (.definition name)) s [id] t) (hs : s.Sane) :
    t.known.get? name = some id := by
  cases h with
  | known hk => exact hk
  | plain _ _ _ _ _ inside =>
    have hso := Session.sane_openObject (s := s.enter name) hs name
    exact (inside.grows (hso _ _)).1.known name _ (Entries.get?_put_self ..)
  | other => exact Entries.get?_put_self ..

/-- A definition that is being read gets no node from what is read meanwhile. -/
theorem unknown_of_mem (h : Reads definitions stack task s ids t) {name : String}
    (hmem : name ∈ stack) (hu : s.known.get? name = none) : t.known.get? name = none := by
  induction h with
  | leaf | known | nil => exact hu
  | wrapper _ ih | list _ ih | union _ ih | object _ ih | merge _ _ ih | reference _ _ _ ih =>
    exact ih hmem hu
  | @plain _ s _ other _ path metadata _ _ _ hfree _ _ _ _ ih =>
    have hne : name ≠ other := fun e => hfree (e ▸ hmem)
    apply ih (List.mem_cons_of_mem _ hmem)
    exact (Entries.get?_put_of_ne _ _ hne).trans hu
  | @other _ _ _ other _ _ _ hfree _ _ _ ih =>
    have hne : name ≠ other := fun e => hfree (e ▸ hmem)
    exact (Entries.get?_put_of_ne _ _ hne).trans (ih (List.mem_cons_of_mem _ hmem) hu)
  | cons _ _ ih₁ ih₂ => exact ih₂ hmem (ih₁ hmem hu)

theorem unique (h : Reads definitions stack task s ids t) :
    ∀ {ids' : List NodeId} {t' : Session}, Reads definitions stack task s ids' t' →
      ids = ids' ∧ t = t' := by
  induction h with
  | leaf =>
    rintro _ _ ⟨⟩
    exact ⟨rfl, rfl⟩
  | wrapper _ ih =>
    rintro _ _ ⟨⟩
    obtain ⟨hid, rfl⟩ := ih ‹_›
    cases hid
    exact ⟨rfl, rfl⟩
  | list _ ih =>
    rintro _ _ ⟨⟩
    obtain ⟨hid, rfl⟩ := ih ‹_›
    cases hid
    exact ⟨rfl, rfl⟩
  | union _ ih | object _ ih =>
    rintro _ _ ⟨⟩
    obtain ⟨rfl, rfl⟩ := ih ‹_›
    exact ⟨rfl, rfl⟩
  | merge _ _ ih =>
    intro _ _ h'
    cases h' with
    | merge inside' =>
      obtain ⟨rfl, rfl⟩ := ih inside'
      exact ⟨rfl, rfl⟩
  | reference means _ _ ih =>
    intro _ _ h'
    cases h' with
    | reference means' _ inside' =>
      cases means.symm.trans means'
      exact ih inside'
  | known known =>
    intro _ _ h'
    cases h' with
    | known known' =>
      cases known.symm.trans known'
      exact ⟨rfl, rfl⟩
    | plain unknown' | other unknown' => cases known.symm.trans unknown'
  | plain unknown _ defined isPlain outlined _ ih =>
    intro _ _ h'
    cases h' with
    | known known' => cases unknown.symm.trans known'
    | plain _ _ defined' _ outlined' inside' =>
      cases defined.symm.trans defined'
      cases outlined.symm.trans outlined'
      obtain ⟨rfl, rfl⟩ := ih inside'
      exact ⟨rfl, rfl⟩
    | other _ _ defined' isOther' =>
      cases defined.symm.trans defined'
      cases isPlain.symm.trans isOther'
  | other unknown _ defined isOther _ ih =>
    intro _ _ h'
    cases h' with
    | known known' => cases unknown.symm.trans known'
    | plain _ _ defined' isPlain' =>
      cases defined.symm.trans defined'
      cases isOther.symm.trans isPlain'
    | other _ _ defined' _ inside' =>
      cases defined.symm.trans defined'
      obtain ⟨hid, rfl⟩ := ih inside'
      cases hid
      exact ⟨rfl, rfl⟩
  | nil =>
    rintro _ _ ⟨⟩
    exact ⟨rfl, rfl⟩
  | cons _ _ ih₁ ih₂ =>
    intro _ _ h'
    cases h' with
    | cons first' rest' =>
      obtain ⟨hid, rfl⟩ := ih₁ first'
      cases hid
      obtain ⟨rfl, rfl⟩ := ih₂ rest'
      exact ⟨rfl, rfl⟩

end Reads

/-! ## Reading follows the rules -/

namespace Reading

theorem exists_ok {σ α : Type} {x : EStateM.Result Fault σ α} {p : α → σ → Bool}
    (h : (match x with | .ok a s => p a s | .error .. => false) = true) :
    ∃ a s, x = .ok a s ∧ p a s = true := by
  cases x with
  | ok a s => exact ⟨a, s, rfl, h⟩
  | error => cases h

theorem exists_error {σ α : Type} {x : EStateM.Result Fault σ α} {p : Fault → Bool}
    (h : (match x with | .ok .. => false | .error f _ => p f) = true) :
    ∃ f s, x = .error f s ∧ p f = true := by
  cases x with
  | ok => cases h
  | error f s => exact ⟨f, s, rfl, h⟩

theorem throw_ne_ok {α : Type} {f : Fault} {a : α} {s t : Session} :
    (throw f : Reading α) s ≠ .ok a t := nofun

theorem addNode_eq_ok {path : String} {metadata : List (String × Json)} {shape : Shape}
    {s t : Session} {id : NodeId} :
    addNode path metadata shape s = .ok id t ↔ id = s.graph.size ∧ t = s.add ⟨path, metadata, shape⟩ := by
  change EStateM.Result.ok _ _ = _ ↔ _
  simp [eq_comm]

theorem addMerged_eq_ok {path : String} {metadata : List (String × Json)}
    {fields : Entries String Ref} {parts : List NodeId} {s t : Session} {id : NodeId} :
    addMerged path metadata fields parts s = .ok id t ↔
      id = s.graph.size ∧ t = s.addMerged path metadata fields parts := by
  change EStateM.Result.ok _ _ = _ ↔ _
  simp [eq_comm]

theorem openObject_bind {β : Type} (name path : String) (metadata : List (String × Json))
    (f : NodeId → Reading β) (s : Session) :
    (openObject name path metadata >>= f) s =
      f s.graph.size (s.openObject name path metadata) := rfl

theorem closeObject_bind {β : Type} (id : NodeId) (fields : Entries String Ref) (x : Reading β)
    (s : Session) : (do closeObject id fields; x) s = x (s.closeObject id fields) := rfl

theorem remember_bind {β : Type} (name : String) (id : NodeId) (x : Reading β) (s : Session) :
    (do remember name id; x) s = x (s.remember name id) := rfl

theorem enter_bind {β : Type} (name : String) (x : Reading β) (s : Session) :
    (do enter name; x) s = x (s.enter name) := rfl

theorem get_bind {β : Type} (f : Session → Reading β) (s : Session) : (get >>= f) s = f s s := rfl

theorem begin_bind {β : Type} (x : Reading β) (s : Session) :
    (do modify Session.begin; x) s = x s.begin := rfl

theorem lift_eq_ok {α : Type} {x : Except Fault α} {s t : Session} {a : α} :
    (liftM x : Reading α) s = .ok a t ↔ x = .ok a ∧ s = t := by
  cases x with
  | error f => exact ⟨fun h => absurd h throw_ne_ok, nofun⟩
  | ok b =>
    rw [liftM_ok, pure_eq_ok]
    simp

theorem lift_eq_error {α : Type} {x : Except Fault α} {s t : Session} {f : Fault} :
    (liftM x : Reading α) s = .error f t ↔ x = .error f ∧ s = t := by
  cases x with
  | ok a => exact ⟨nofun, nofun⟩
  | error e =>
    change EStateM.Result.error e s = _ ↔ _
    simp

end Reading

namespace Outline

variable {definitions : Definitions} {stack : List String} {follow : Json → String → Reading NodeId}

/-- References are followed by the rules. -/
def Follows (definitions : Definitions) (stack : List String)
    (follow : Json → String → Reading NodeId) : Prop :=
  ∀ ref path s id t, s.Sane → (follow ref path s = .ok id t ↔
    Reads definitions stack (.one (.outline (.reference ref path))) s [id] t)

theorem runParts_cons_eq_ok {path : String} {index : Nat} {before fields : Entries String Ref}
    {o : Outline} {rest : List Outline} {s t : Session} {ids : List NodeId} :
    runParts follow path index before (o :: rest) s = .ok (fields, ids) t ↔
      ∃ id u is, o.run follow s = .ok id u ∧ u.graph.isObject (some id) = true ∧
        runParts follow path (index + 1) (before.putAll (u.graph.fields (some id)).toList) rest u =
          .ok (fields, is) t ∧ ids = id :: is := by
  rw [runParts, bind_eq_ok]
  refine exists_congr fun id => exists_congr fun u => ?_
  rw [get_bind]
  by_cases ho : u.graph.isObject (some id) = true
  · obtain ⟨more, hm⟩ := Graph.isObject_iff.1 ho
    have hf : u.graph.fields (some id) = more := by rw [Graph.fields, hm]
    rw [hf]
    simp only [hm, bind_eq_ok, pure_eq_ok, Prod.mk.injEq]
    constructor
    · rintro ⟨h, ⟨_, is⟩, _, hr, ⟨rfl, rfl⟩, rfl⟩; exact ⟨is, h, ho, hr, rfl⟩
    · rintro ⟨is, h, -, hr, rfl⟩; exact ⟨h, (fields, is), t, hr, ⟨rfl, rfl⟩, rfl⟩
  · refine iff_of_false ?_ fun ⟨_, _, h, _⟩ => ho h
    rintro ⟨-, h⟩
    cases hm : u.graph.shape? (some id) with
    | none => rw [hm] at h; exact throw_ne_ok h
    | some shape =>
      rw [hm] at h
      cases shape with
      | object more => exact ho (Graph.isObject_iff.2 ⟨more, hm⟩)
      | _ => exact throw_ne_ok h

mutual

/-- Reading by an outline succeeds exactly by the rules. -/
theorem run_eq_ok_iff (hf : Follows definitions stack follow) :
    ∀ (o : Outline) {s t : Session} {id : NodeId}, s.Sane →
      (o.run follow s = .ok id t ↔ Reads definitions stack (.one (.outline o)) s [id] t)
  | .fault f, s, t, id, _ => ⟨nofun, nofun⟩
  | .refused inner f, s, t, id, _ => by
    rw [run, bind_eq_ok]
    exact ⟨fun ⟨_, _, _, h⟩ => absurd h throw_ne_ok, nofun⟩
  | .reference ref path, s, t, id, hs => hf ref path s id t hs
  | .leaf n _, s, t, id, _ => by
    rw [run, addNode_eq_ok]
    constructor
    · rintro ⟨rfl, rfl⟩; exact .leaf
    · rintro ⟨⟩; exact ⟨rfl, rfl⟩
  | .wrapper path kind value inner, s, t, id, hs => by
    simp only [run, bind_eq_ok, addNode_eq_ok, run_eq_ok_iff hf inner hs]
    constructor
    · rintro ⟨i, u, h, rfl, rfl⟩; exact .wrapper h
    · rintro ⟨⟩; exact ⟨_, _, ‹_›, rfl, rfl⟩
  | .list path metadata element, s, t, id, hs => by
    simp only [run, bind_eq_ok, addNode_eq_ok, run_eq_ok_iff hf element hs]
    constructor
    · rintro ⟨i, u, h, rfl, rfl⟩; exact .list h
    · rintro ⟨⟩; exact ⟨_, _, ‹_›, rfl, rfl⟩
  | .union path metadata variants, s, t, id, hs => by
    simp only [run, bind_eq_ok, addNode_eq_ok, runAll_eq_ok_iff hf variants hs]
    constructor
    · rintro ⟨i, u, h, rfl, rfl⟩; exact .union h
    · rintro ⟨⟩; exact ⟨_, _, ‹_›, rfl, rfl⟩
  | .object path metadata fields, s, t, id, hs => by
    simp only [run, bind_eq_ok, addNode_eq_ok, runFields_eq_ok_iff hf fields hs]
    constructor
    · rintro ⟨_, u, ⟨ids, h, rfl⟩, rfl, rfl⟩; exact .object h
    · rintro ⟨⟩; exact ⟨_, _, ⟨_, ‹_›, rfl⟩, rfl, rfl⟩
  | .merge path metadata parts, s, t, id, hs => by
    simp only [run, bind_eq_ok, addMerged_eq_ok, runParts_eq_ok_iff hf path 0 ∅ parts hs]
    constructor
    · rintro ⟨⟨fields, ids⟩, u, ⟨h, ho, hm⟩, rfl, rfl⟩
      dsimp only at hm
      subst hm
      exact .merge h ho
    · intro h
      cases h with
      | merge h ho => exact ⟨(_, _), _, ⟨h, ho, rfl⟩, rfl, rfl⟩

theorem runAll_eq_ok_iff (hf : Follows definitions stack follow) :
    ∀ (os : List Outline) {s t : Session} {ids : List NodeId}, s.Sane →
      (runAll follow os s = .ok ids t ↔
        Reads definitions stack (.all (os.map .outline)) s ids t)
  | [], s, t, ids, _ => by
    rw [runAll, pure_eq_ok]
    constructor
    · rintro ⟨rfl, rfl⟩; exact .nil
    · rintro ⟨⟩; exact ⟨rfl, rfl⟩
  | o :: rest, s, t, ids, hs => by
    simp only [runAll, bind_eq_ok, pure_eq_ok, run_eq_ok_iff hf o hs]
    constructor
    · rintro ⟨i, u, h, is, v, hr, rfl, rfl⟩
      exact .cons h ((runAll_eq_ok_iff hf rest (h.sane hs)).1 hr)
    · intro h
      cases h with
      | cons h hr => exact ⟨_, _, h, _, _, (runAll_eq_ok_iff hf rest (h.sane hs)).2 hr, rfl, rfl⟩

theorem runFields_eq_ok_iff (hf : Follows definitions stack follow) :
    ∀ (fields : List (String × Outline)) {s t : Session} {refs : List (String × Ref)}, s.Sane →
      (runFields follow fields s = .ok refs t ↔
        ∃ ids, Reads definitions stack (.all (fieldJobs fields)) s ids t ∧
          refs = (fields.map Prod.fst).zip (ids.map some))
  | [], s, t, refs, _ => by
    rw [runFields, pure_eq_ok]
    constructor
    · rintro ⟨rfl, rfl⟩; exact ⟨[], .nil, rfl⟩
    · rintro ⟨_, ⟨⟩, rfl⟩; exact ⟨rfl, rfl⟩
  | (name, o) :: rest, s, t, refs, hs => by
    simp only [runFields, bind_eq_ok, pure_eq_ok, run_eq_ok_iff hf o hs]
    constructor
    · rintro ⟨i, u, h, _, v, hr, rfl, rfl⟩
      obtain ⟨ids, hr', rfl⟩ := (runFields_eq_ok_iff hf rest (h.sane hs)).1 hr
      exact ⟨i :: ids, .cons h hr', rfl⟩
    · rintro ⟨ids, h, rfl⟩
      cases h with
      | cons h hr =>
        exact ⟨_, _, h, _, _, (runFields_eq_ok_iff hf rest (h.sane hs)).2 ⟨_, hr, rfl⟩, rfl, rfl⟩

theorem runParts_eq_ok_iff (hf : Follows definitions stack follow) (path : String) (index : Nat)
    (before : Entries String Ref) :
    ∀ (parts : List Outline) {s t : Session} {fields : Entries String Ref} {ids : List NodeId},
      s.Sane → (runParts follow path index before parts s = .ok (fields, ids) t ↔
        Reads definitions stack (.all (parts.map .outline)) s ids t ∧
          (∀ id ∈ ids, t.graph.isObject (some id) = true) ∧ fields = t.graph.mergedOver before ids)
  | [], s, t, fields, ids, _ => by
    rw [runParts, pure_eq_ok, Prod.mk.injEq]
    constructor
    · rintro ⟨⟨rfl, rfl⟩, rfl⟩
      exact ⟨.nil, by simp, rfl⟩
    · rintro ⟨h, -, rfl⟩
      cases h
      exact ⟨⟨rfl, rfl⟩, rfl⟩
  | o :: rest, s, t, fields, ids, hs => by
    rw [runParts_cons_eq_ok]
    simp only [run_eq_ok_iff hf o hs]
    constructor
    · rintro ⟨id, u, is, h, ho, hr, rfl⟩
      obtain ⟨hrest, hos, rfl⟩ := (runParts_eq_ok_iff hf path _ _ rest (h.sane hs)).1 hr
      have hg := (hrest.grows (h.sane hs)).1
      refine ⟨.cons h hrest, List.forall_mem_cons.2 ⟨(hg.isObject (h.lt hs)).trans ho, hos⟩, ?_⟩
      rw [← hg.fields (h.lt hs)]
      rfl
    · rintro ⟨h, hos, rfl⟩
      cases h with
      | cons h hrest =>
        have hg := (hrest.grows (h.sane hs)).1
        obtain ⟨ho, hos⟩ := List.forall_mem_cons.1 hos
        refine ⟨_, _, _, h, (hg.isObject (h.lt hs)).symm.trans ho, ?_, rfl⟩
        rw [runParts_eq_ok_iff hf path _ _ rest (h.sane hs), ← hg.fields (h.lt hs)]
        exact ⟨hrest, hos, rfl⟩

end

theorem readFields_eq_ok_iff (hf : Follows definitions stack follow) {schema : Json} {path : String}
    {s t : Session} {fields : Entries String Ref} (hs : s.Sane) :
    readFields follow schema path s = .ok fields t ↔ ∃ outlines ids,
      schema.fieldsOutline path = .ok outlines ∧
        Reads definitions stack (.all (fieldJobs outlines)) s ids t ∧
          fields = fieldRefs outlines ids := by
  rw [readFields_eq_run, bind_eq_ok]
  constructor
  · rintro ⟨outlines, u, hl, h⟩
    obtain ⟨ho, rfl⟩ := lift_eq_ok.1 hl
    obtain ⟨refs, v, hr, hp⟩ := bind_eq_ok.1 h
    obtain ⟨ids, hids, rfl⟩ := (runFields_eq_ok_iff hf outlines hs).1 hr
    obtain ⟨rfl, rfl⟩ := pure_eq_ok.1 hp
    exact ⟨outlines, ids, ho, hids, rfl⟩
  · rintro ⟨outlines, ids, ho, h, rfl⟩
    have hr := (runFields_eq_ok_iff hf outlines hs).2 ⟨ids, h, rfl⟩
    exact ⟨outlines, s, lift_eq_ok.2 ⟨ho, rfl⟩, bind_eq_ok.2 ⟨_, t, hr, pure_eq_ok.2 ⟨rfl, rfl⟩⟩⟩

theorem followReference_follows (read : String → Reading NodeId)
    (hr : ∀ name s t id, s.Sane → (read name s = .ok id t ↔
      Reads definitions stack (.one (.definition name)) s [id] t)) :
    Follows definitions stack (followReference definitions read) := by
  intro ref path s id t hs
  have key : followReference definitions read ref path s = .ok id t ↔
      ∃ name, ref.referred? = some name ∧ (definitions.lookup name).isSome ∧
        read name s = .ok id t := by
    cases ref with
    | str text =>
      simp only [followReference, Json.referred?]
      by_cases hp : Text.startsWith "#" text = true
      · rw [if_pos hp, if_pos hp]
        simp only [Option.some.injEq, exists_eq_left']
        cases definitions.lookup (Reference.definitionName text) with
        | none =>
          apply iff_of_false throw_ne_ok
          rintro ⟨hdef, -⟩
          cases hdef
        | some body => exact ⟨fun h => ⟨rfl, h⟩, And.right⟩
      · rw [if_neg hp, if_neg hp]
        apply iff_of_false throw_ne_ok
        rintro ⟨_, hm, -⟩
        cases hm
    | _ =>
      apply iff_of_false throw_ne_ok
      rintro ⟨_, hm, -⟩
      cases hm
  rw [key]
  constructor
  · rintro ⟨name, hm, hd, h⟩
    exact .reference hm hd ((hr name s t id hs).1 h)
  · intro h
    cases h with
    | reference hm hd h => exact ⟨_, hm, hd, (hr _ s t id hs).2 h⟩

end Outline

/-! ## Definitions -/

namespace Definitions

/-- The definitions that are not being read already. -/
def free (definitions : Definitions) (stack : List String) : Definitions :=
  definitions.filter fun d => d.1 ∉ stack

theorem free_nil (definitions : Definitions) : definitions.free [] = definitions := by
  simp [free]

theorem without_free (definitions : Definitions) (stack : List String) (name : String) :
    (definitions.free stack).without name = definitions.free (name :: stack) := by
  simp only [free, without, List.filter_filter, List.mem_cons, not_or]
  congr 1
  funext d
  simp

theorem lookup_free {definitions : Definitions} {stack : List String} {name : String} :
    (definitions.free stack).lookup name = if name ∈ stack then none else definitions.lookup name := by
  induction definitions with
  | nil => simp [free]
  | cons d rest ih =>
    obtain ⟨k, v⟩ := d
    unfold free at ih ⊢
    rw [List.filter_cons]
    split <;> rename_i hk
    · rw [Entries.lookup_cons_ite, Entries.lookup_cons_ite, ih]
      split
      · rename_i e; simp_all
      · rfl
    · rw [ih, Entries.lookup_cons_ite]
      split
      · rfl
      · rw [if_neg]
        rintro rfl
        simp_all

theorem length_free_cons_lt {definitions : Definitions} {stack : List String} {name : String}
    {body : Json} (hd : definitions.lookup name = some body) (hf : name ∉ stack) :
    (definitions.free (name :: stack)).length < (definitions.free stack).length := by
  have hl : (definitions.free stack).lookup name = some body := by rw [lookup_free, if_neg hf, hd]
  rw [← without_free]
  exact length_without_lt hl

end Definitions

/-- What is done when the body of a definition is entered. -/
def readBody (follow : Json → String → Reading NodeId) (name : String) (body : Json) :
    Reading NodeId := do
  Reading.enter name
  if ← body.isPlainObject then
    let id ← openObject name (Definitions.path name) (Json.metadata (← body.entries))
    let fields ← readFields follow body (Definitions.path name)
    closeObject id fields
    return id
  else
    let id ← readSchema follow body (Definitions.path name)
    remember name id
    return id

theorem readDefinition_eq (definitions free : Definitions) (name : String) :
    readDefinition definitions free name = (do
      match (← get).known.get? name with
      | some id => return id
      | none => match free.lookup name with
        | none => throw (.structural (.cyclicDefinition name))
        | some body =>
          let follow := followReference definitions (readDefinition definitions (free.without name))
          readBody follow name body) := by
  rw [readDefinition]
  congr 1
  funext s
  cases s.known.get? name with
  | some id => rfl
  | none =>
    dsimp only
    split
    · rename_i hl
      simp only [hl]
    · rename_i hl
      simp only [hl]
      rfl

theorem readBody_eq_ok_iff {definitions : Definitions} {stack : List String} {name : String}
    {s t : Session} {id : NodeId} {follow : Json → String → Reading NodeId} {body : Json}
    (hf : Outline.Follows definitions (name :: stack) follow) (hs : s.Sane)
    (hu : s.known.get? name = none) (hfree : name ∉ stack)
    (hd : definitions.lookup name = some body) :
    readBody follow name body s = .ok id t ↔
      Reads definitions stack (.one (.definition name)) s [id] t := by
  have hse : (s.enter name).Sane := hs
  unfold readBody
  rw [enter_bind]
  cases hp : body.isPlainObject with
  | error f =>
    refine iff_of_false (fun h => absurd h throw_ne_ok) fun h => ?_
    cases h with
    | known h => cases hu.symm.trans h
    | plain _ _ hd' hp' => cases hd.symm.trans hd'; cases hp.symm.trans hp'
    | other _ _ hd' hp' => cases hd.symm.trans hd'; cases hp.symm.trans hp'
  | ok plain =>
    rw [liftM_ok, pure_bind]
    cases plain with
    | true =>
      obtain ⟨entries, he, ho⟩ := Json.outline_of_isPlainObject hp
      have hso := Session.sane_openObject hse name (Definitions.path name) (Json.metadata entries)
      rw [if_pos rfl, he, liftM_ok, pure_bind, openObject_bind, bind_eq_ok]
      simp only [Outline.readFields_eq_ok_iff hf hso, closeObject_bind, pure_eq_ok]
      constructor
      · rintro ⟨_, u, ⟨fields, ids, hfs, h, rfl⟩, rfl, rfl⟩
        exact .plain hu hfree hd hp ((ho _).trans (by rw [hfs]; rfl)) h
      · intro h
        cases h with
        | known h => cases hu.symm.trans h
        | plain _ _ hd' _ hob h =>
          cases hd.symm.trans hd'
          obtain ⟨rfl, rfl, hfs⟩ := Outline.ofFields_eq_object ((ho _).symm.trans hob)
          exact ⟨_, _, ⟨_, _, hfs, h, rfl⟩, rfl, rfl⟩
        | other _ _ hd' hp' => cases hd.symm.trans hd'; cases hp.symm.trans hp'
    | false =>
      rw [if_neg nofun, readSchema_eq_run, bind_eq_ok]
      simp only [Outline.run_eq_ok_iff hf _ hse, remember_bind, pure_eq_ok]
      constructor
      · rintro ⟨i, u, h, rfl, rfl⟩
        exact .other hu hfree hd hp h
      · intro h
        cases h with
        | known h => cases hu.symm.trans h
        | plain _ _ hd' hp' => cases hd.symm.trans hd'; cases hp.symm.trans hp'
        | other _ _ hd' _ h =>
          cases hd.symm.trans hd'
          exact ⟨_, _, h, rfl, rfl⟩

/-- Reading a definition succeeds exactly by the rules. -/
theorem readDefinition_eq_ok_iff {definitions : Definitions} {stack : List String} {name : String}
    {s t : Session} {id : NodeId} (hs : s.Sane) :
    readDefinition definitions (definitions.free stack) name s = .ok id t ↔
      Reads definitions stack (.one (.definition name)) s [id] t := by
  rw [readDefinition_eq, get_bind]
  cases hk : s.known.get? name with
  | some i =>
    dsimp only
    rw [pure_eq_ok]
    constructor
    · rintro ⟨rfl, rfl⟩
      exact .known hk
    · intro h
      cases h with
      | known h => exact ⟨Option.some.inj (hk.symm.trans h), rfl⟩
      | plain h => cases hk.symm.trans h
      | other h => cases hk.symm.trans h
  | none =>
    dsimp only
    cases hl : (definitions.free stack).lookup name with
    | none =>
      rw [Definitions.lookup_free] at hl
      apply iff_of_false throw_ne_ok
      intro h
      cases h with
      | known h => cases hk.symm.trans h
      | plain _ hf hd => rw [if_neg hf, hd] at hl; cases hl
      | other _ hf hd => rw [if_neg hf, hd] at hl; cases hl
    | some body =>
      have hlt : (definitions.free (name :: stack)).length < (definitions.free stack).length := by
        rw [← Definitions.without_free]
        exact Definitions.length_without_lt hl
      have ih : ∀ other (s t : Session) id, s.Sane →
          (readDefinition definitions (definitions.free (name :: stack)) other s = .ok id t ↔
            Reads definitions (name :: stack) (.one (.definition other)) s [id] t) :=
        fun _ _ _ _ hs => readDefinition_eq_ok_iff hs
      rw [Definitions.lookup_free] at hl
      rw [Definitions.without_free]
      split at hl
      · cases hl
      · rename_i hfree
        exact readBody_eq_ok_iff (Outline.followReference_follows _ ih) hs hk hfree hl
termination_by (definitions.free stack).length

theorem readDefinition_follows (definitions : Definitions) (stack : List String) :
    Outline.Follows definitions stack
      (followReference definitions (readDefinition definitions (definitions.free stack))) :=
  Outline.followReference_follows _ fun _ _ _ _ => readDefinition_eq_ok_iff

/-! ## Documents -/

def Definitions.jobs (definitions : Definitions) : List Job :=
  definitions.map fun d => .definition d.1

theorem Definitions.isSome_lookup {definitions : Definitions} {d : String × Json}
    (h : d ∈ definitions) : (definitions.lookup d.1).isSome := by
  rw [List.lookup_isSome_iff]
  exact ⟨d, h, beq_self_eq_true _⟩

theorem Definitions.mem_of_lookup {definitions : Definitions} {name : String} {body : Json}
    (h : definitions.lookup name = some body) : (name, body) ∈ definitions := by
  obtain ⟨before, after, rfl, -⟩ := List.lookup_eq_some_iff.1 h
  exact List.mem_append_right _ List.mem_cons_self

/-- What is read as the root of a document, if it applies. -/
def Json.rootOutline (schema : Json) (root : String) : Option Outline :=
  if (schema.get? "properties").isSome ∧ root ≠ "" then some (schema.outline "#") else none

theorem Session.sane_begin (s : Session) : s.begin.Sane := nofun

theorem readDefinition_nil_eq_ok_iff {definitions : Definitions} {name : String} {s t : Session}
    {id : NodeId} (hs : s.Sane) :
    readDefinition definitions definitions name s = .ok id t ↔
      Reads definitions [] (.one (.definition name)) s [id] t := by
  rw [← readDefinition_eq_ok_iff hs, Definitions.free_nil]

theorem follows_nil (definitions : Definitions) : Outline.Follows definitions []
    (followReference definitions (readDefinition definitions definitions)) :=
  Outline.followReference_follows _ fun _ _ _ _ => readDefinition_nil_eq_ok_iff

theorem readDefinitions_eq_ok_iff {definitions : Definitions} {s t : Session}
    {nodes : List (String × NodeId)} (hs : s.Sane) :
    readDefinitions definitions s = .ok nodes t ↔
      ∃ ids, Reads definitions [] (.all definitions.jobs) s ids t ∧
        nodes = (definitions.map Prod.fst).zip ids := by
  have key : ∀ (ds : Definitions) {s : Session} {nodes : List (String × NodeId)}, s.Sane →
      ((ds.mapM fun d => do return (d.1, ← readDefinition definitions definitions d.1) :
        Reading (List (String × NodeId))) s = .ok nodes t ↔
        ∃ ids, Reads definitions [] (.all ds.jobs) s ids t ∧
          nodes = (ds.map Prod.fst).zip ids) := by
    intro ds
    induction ds with
    | nil =>
      intro s nodes _
      rw [List.mapM_nil, pure_eq_ok]
      constructor
      · rintro ⟨rfl, rfl⟩
        exact ⟨[], .nil, rfl⟩
      · rintro ⟨_, h, rfl⟩
        cases h
        exact ⟨rfl, rfl⟩
    | cons d rest ih =>
      intro s nodes hs
      obtain ⟨name, body⟩ := d
      rw [List.mapM_cons, bind_eq_ok]
      constructor
      · rintro ⟨_, u, hfirst, hrest⟩
        obtain ⟨id, _, hone, hp⟩ := bind_eq_ok.1 hfirst
        obtain ⟨rfl, rfl⟩ := pure_eq_ok.1 hp
        have hd := (readDefinition_nil_eq_ok_iff hs).1 hone
        obtain ⟨_, v, hall, hp⟩ := bind_eq_ok.1 hrest
        obtain ⟨rfl, rfl⟩ := pure_eq_ok.1 hp
        obtain ⟨ids, hr, rfl⟩ := (ih (hd.sane hs)).1 hall
        exact ⟨id :: ids, .cons hd hr, rfl⟩
      · rintro ⟨ids, h, rfl⟩
        cases h with
        | @cons _ _ u _ _ _ id ids hd hr =>
          have hr := (ih (hd.sane hs)).2 ⟨ids, hr, rfl⟩
          refine ⟨(name, id), u, bind_eq_ok.2 ⟨id, u, ?_, rfl⟩, bind_eq_ok.2 ⟨_, t, hr, rfl⟩⟩
          exact (readDefinition_nil_eq_ok_iff hs).2 hd
  exact key definitions hs

/-- A document is read exactly when its definitions are, one after the other, and then its root if
it applies. -/
theorem readDocument_eq_ok_iff {schema : Json} {root : String} {s t : Session} {batch : Batch} :
    readDocument schema root s = .ok batch t ↔ ∃ definitions ids u,
      schema.definitions = .ok definitions ∧
      Reads definitions [] (.all definitions.jobs) s.begin ids u ∧
      let declared := u.graph.declared ((definitions.map Prod.fst).zip ids)
      if (schema.get? "properties").isSome ∧ root ≠ "" then
        ∃ id, Reads definitions [] (.one (.outline (schema.outline "#"))) u [id] t ∧
          batch = (Entries.ofList declared).put (TypeName.pascal root) (some id)
      else batch = .ofList declared ∧ u = t := by
  have hb := s.sane_begin
  unfold readDocument
  rw [begin_bind, bind_eq_ok]
  constructor
  · rintro ⟨definitions, u, hl, h⟩
    obtain ⟨hd, rfl⟩ := lift_eq_ok.1 hl
    obtain ⟨nodes, u, hn, h⟩ := bind_eq_ok.1 h
    obtain ⟨ids, hr, rfl⟩ := (readDefinitions_eq_ok_iff hb).1 hn
    rw [get_bind] at h
    refine ⟨definitions, ids, u, hd, hr, ?_⟩
    dsimp only at h ⊢
    split at h <;> rename_i hroot
    · rw [if_pos hroot]
      obtain ⟨id, v, hi, hp⟩ := bind_eq_ok.1 h
      obtain ⟨rfl, rfl⟩ := pure_eq_ok.1 hp
      rw [readSchema_eq_run, Outline.run_eq_ok_iff (follows_nil definitions) _ (hr.sane hb)] at hi
      exact ⟨id, hi, rfl⟩
    · rw [if_neg hroot]
      obtain ⟨rfl, rfl⟩ := pure_eq_ok.1 h
      exact ⟨rfl, rfl⟩
  · rintro ⟨definitions, ids, u, hd, hr, h⟩
    have hn := (readDefinitions_eq_ok_iff hb).2 ⟨ids, hr, rfl⟩
    refine ⟨definitions, s.begin, lift_eq_ok.2 ⟨hd, rfl⟩, bind_eq_ok.2 ⟨_, u, hn, ?_⟩⟩
    rw [get_bind]
    dsimp only at h ⊢
    split at h <;> rename_i hroot
    · rw [if_pos hroot]
      obtain ⟨id, hi, rfl⟩ := h
      refine bind_eq_ok.2 ⟨id, t, ?_, rfl⟩
      rwa [readSchema_eq_run, Outline.run_eq_ok_iff (follows_nil definitions) _ (hr.sane hb)]
    · rw [if_neg hroot]
      obtain ⟨rfl, rfl⟩ := h
      rfl

end ShapeSdl
