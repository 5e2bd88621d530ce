import ShapeSdl.Proofs.Ahead
import ShapeSdl.Proofs.Cyclic

/-!
# Nodes that come before their fields

An object definition gets its node before its fields are read, so that they may refer to it. If they
do not, it makes no difference: the definition ends up as its body would if it stood in any other
place.

* `Graph.rotate first last` : the positions when the last node is put in at `first`;
* `Session.Moved s name ρ t t'` : two sessions that have come from session `s` differ in the positions
  of new nodes and in definition `name` only;
* `Session.Awaits` : a definition without a node refers to another one. What is come to is referred
  to through such definitions (`Visit.ComesTo.exists_awaits`);
* `readDefinition_as_schema` : an object definition that does not come to itself is read as its body
  is read.
-/

namespace ShapeSdl

open Reading
open Fault (bind_eq_ok bind_eq_error)

/-! ## The last node put in before others -/

namespace Graph

variable {first last id : Nat}

/-- The position of a node when the one at position `last` has been put in at position `first`. -/
def rotate (first last id : Nat) : Nat :=
  if id < last then past first id else if id = last then first else id

theorem rotate_of_lt (h : id < last) : rotate first last id = past first id := if_pos h

@[simp] theorem rotate_last (first last : Nat) : rotate first last last = first := by
  simp [rotate]

theorem rotate_of_gt (h : last < id) : rotate first last id = id := by
  rw [rotate, if_neg (Nat.not_lt_of_gt h), if_neg (Nat.ne_of_gt h)]

theorem rotate_bijective (h : first ≤ last) : Function.Bijective (rotate first last) := by
  constructor
  · intro i j hij
    simp only [rotate, past] at hij
    split_ifs at hij <;> omega
  · intro j
    rcases Nat.lt_trichotomy j first with hj | rfl | hj
    · exact ⟨j, by rw [rotate_of_lt (by omega), past_of_lt hj]⟩
    · exact ⟨last, rotate_last j last⟩
    · rcases Nat.lt_or_ge last j with hl | hl
      · exact ⟨j, rotate_of_gt hl⟩
      · exact ⟨j - 1, by rw [rotate_of_lt (by omega), past_of_le (by omega)]; omega⟩

end Graph

/-- Session `t'` has the nodes of session `t` at other positions, those of session `s` at the same
ones. All definitions but `name` have the same nodes. -/
structure Session.Moved (s : Session) (name : String) (ρ : NodeId → NodeId) (t t' : Session) :
    Prop where
  bijective : Function.Bijective ρ
  old : ∀ id < s.graph.size, ρ id = id
  node? : ∀ id, t'.graph.node? (some (ρ id)) = (t.graph.node? (some id)).map (Node.rename ρ)
  known : ∀ other, other ≠ name → t'.known.get? other = (t.known.get? other).map ρ

/-- A node that comes first and gets its fields is as good as one that comes last with them. -/
theorem Session.Ahead.moved {name path : String} {metadata : List (String × Json)}
    {s t t' : Session} {fields : Entries String Ref}
    (h : t.Ahead name s.graph.size ⟨path, metadata, .object ∅⟩ t') (ht : t.Intact)
    (hf : ∀ next, some next ∈ fields.values → next < t.graph.size) :
    s.Moved name (Graph.rotate s.graph.size t.graph.size) (t.add ⟨path, metadata, .object fields⟩)
      (t'.closeObject s.graph.size (fields.mapValues (Option.map (Graph.past s.graph.size)))) where
  bijective := Graph.rotate_bijective h.first_le
  old id hid := by
    rw [Graph.rotate_of_lt (Nat.lt_of_lt_of_le hid h.first_le), Graph.past_of_lt hid]
  node? id := by
    rcases Nat.lt_trichotomy id t.graph.size with hid | rfl | hid
    · rw [Graph.rotate_of_lt hid, node?_closeObject_of_ne _ _ (Graph.past_ne _ id), h.node?,
        Session.add, Graph.node?_add, if_neg (Nat.ne_of_lt hid)]
      cases hn : t.graph.node? (some id) with
      | none => rfl
      | some node =>
        refine congrArg some (Node.rename_congr fun next hnext => ?_)
        exact (Graph.rotate_of_lt (ht.links_of_node? hn next hnext)).symm
    · rw [Graph.rotate_last, node?_closeObject_self h.own, node?_add_self]
      have hrename : (Shape.object fields).rename (Graph.past s.graph.size) =
          (Shape.object fields).rename (Graph.rotate s.graph.size t.graph.size) :=
        Shape.rename_congr fun next hnext => (Graph.rotate_of_lt (hf next hnext)).symm
      exact congrArg (fun shape => some (Node.mk path metadata shape)) hrename
    · rw [Graph.rotate_of_gt hid, Graph.node?, Graph.node?, Array.getElem?_eq_none,
        Array.getElem?_eq_none]
      · rfl
      · exact Nat.le_trans (Nat.le_of_eq (size_add ..)) hid
      · refine Nat.le_trans (Nat.le_of_eq ?_) hid
        exact (size_closeObject ..).trans h.size
  known other hne := by
    change t'.known.get? other = (t.known.get? other).map _
    rw [h.known other hne]
    cases hk : t.known.get? other with
    | none => rfl
    | some id => exact congrArg some (Graph.rotate_of_lt (ht.sane other id hk)).symm

/-! ## What leads to a definition -/

/-- A definition that has no node as yet refers to another one. -/
def Session.Awaits (definitions : Definitions) (s : Session) (name other : String) : Prop :=
  s.known.get? name = none ∧ definitions.Refers name other

section
variable {definitions : Definitions} {v w : Visit} {name : String}

theorem Goes.grows (h : Goes definitions v w) (hs : v.session.Sane) :
    v.session.Grows w.session ∧ w.session.Sane := by
  cases h with
  | wrapper | refused | list | union | object | reference | first => exact ⟨.refl _, hs⟩
  | merge read | rest read => exact ⟨(read.grows hs).1, read.sane hs⟩
  | @plain _ s name _ path metadata _ unknown =>
    exact ⟨Session.grows_openObject unknown path metadata,
      Session.sane_openObject (s := s.enter name) hs name path metadata⟩
  | other => exact ⟨⟨.refl _, fun _ _ hk => hk, List.Subset.refl _⟩, hs⟩

theorem Goes.unknown (h : Goes definitions v w) (hstack : w.stack = name :: v.stack) :
    v.session.known.get? name = none := by
  cases h with
  | plain unknown | other unknown =>
    cases hstack
    exact unknown
  | _ => exact absurd (congrArg List.length hstack) (by simp)

/-- What is come to is referred to, through definitions that have no node at the beginning. -/
theorem Visit.ComesTo.exists_awaits (h : v.ComesTo definitions name) (hs : v.session.Sane) :
    ∃ other ∈ v.task.mentions,
      Relation.ReflTransGen (v.session.Awaits definitions) other name := by
  obtain ⟨stack, s, hway⟩ := h
  induction hway using Relation.ReflTransGen.head_induction_on with
  | refl => exact ⟨name, List.mem_singleton_self _, .refl⟩
  | @head v w hstep _ ih =>
    obtain ⟨hgrows, hsane⟩ := hstep.grows hs
    obtain ⟨other, hmem, hchain⟩ := ih hsane
    have hawaits : w.session.Awaits definitions ≤ v.session.Awaits definitions := by
      rintro a b ⟨hunknown, hrefers⟩
      refine ⟨Option.eq_none_iff_forall_ne_some.2 fun id hid => ?_, hrefers⟩
      cases hunknown.symm.trans (hgrows.known a id hid)
    have hback := Relation.ReflTransGen.mono hawaits other name hchain
    rcases hstep.stack_cases with ⟨-, hm⟩ | ⟨entered, htask, hstack, hm⟩
    · exact ⟨other, hm hmem, hback⟩
    · refine ⟨entered, ?_, .head ⟨hstep.unknown hstack, hm other hmem⟩ hback⟩
      rw [htask]
      exact List.mem_singleton_self _

end

/-! ## Object definitions -/

section
variable {follow : Json → String → Reading NodeId} {body : Json} {entries : List (String × Json)}

/-- The body of an object definition as a schema: its node comes after its fields. -/
theorem readSchema_of_isPlainObject (hp : body.isPlainObject = .ok true)
    (he : body.entries = .ok entries) (path : String) :
    readSchema follow body path = (do
      let fields ← readFields follow body path
      addNode path (Json.metadata entries) (.object fields)) := by
  obtain ⟨entries', he', ho⟩ := Json.outline_of_isPlainObject hp
  cases he.symm.trans he'
  rw [readSchema_eq_run, ho, Outline.run_ofFields, readFields_eq_run]
  simp only [bind_assoc, pure_bind]

/-- The body of an object definition that is entered: its node comes before its fields. -/
theorem readBody_of_isPlainObject (hp : body.isPlainObject = .ok true)
    (he : body.entries = .ok entries) (name : String) (s : Session) :
    readBody follow name body s = (do
      let fields ← readFields follow body (Definitions.path name)
      closeObject s.graph.size fields
      return s.graph.size) ((s.enter name).openObject name (Definitions.path name)
        (Json.metadata entries)) := by
  unfold readBody
  rw [enter_bind, hp, liftM_ok, pure_bind, if_pos rfl, he, liftM_ok, pure_bind, openObject_bind]
  rfl

end

section
variable {definitions : Definitions} {stack : List String} {name : String} {body : Json}
  {s : Session}

/-- The fields of an object definition are the same after it has got its node, unless they come to
it. -/
theorem readFields_openObject {entries : List (String × Json)} (hs : s.Intact)
    (isPlain : body.isPlainObject = .ok true) (he : body.entries = .ok entries)
    (apart : ¬ Visit.ComesTo definitions
      ⟨stack, .one (.outline (body.outline (Definitions.path name))), s⟩ name) :
    EndsAhead name s.graph.size ⟨Definitions.path name, Json.metadata entries, .object ∅⟩
      (Entries.mapValues (Option.map (Graph.past s.graph.size)))
      (readFields (followReference definitions
          (readDefinition definitions (definitions.free stack)))
        body (Definitions.path name) s)
      (readFields (followReference definitions
          (readDefinition definitions (definitions.free (name :: stack))))
        body (Definitions.path name)
        ((s.enter name).openObject name (Definitions.path name) (Json.metadata entries))) := by
  obtain ⟨entries', he', ho⟩ := Json.outline_of_isPlainObject isPlain
  cases he.symm.trans he'
  have hopen := Session.Ahead.openObject hs name (Definitions.path name) (Json.metadata entries)
  refine Outline.readFields_ahead (readDefinition_follows definitions stack) ?_ hs.sane hopen
    fun fields hfields => ?_
  · -- Only the definition itself is on one stack and not on both, and it is not asked for.
    refine Outline.followReference_ahead fun other s s' hs h hn => ?_
    refine readDefinition_ahead (fun another hanother => ?_) other hs h hn
    exact List.mem_cons.trans (or_iff_right hanother)
  · rw [ho, hfields] at apart
    exact Goes.object.not_comesTo apart

/-- An object definition that has no node and is not being read is read as its body would be in any
other place, unless that comes back to the definition. Both fail with one fault, or both give an
object with the path of the definition and the same metadata, with the same fields in the same order.
What they have read besides is the same, and so are the nodes of all other definitions. Only the
positions differ, since the definition has got its node first. -/
theorem readDefinition_as_schema (hs : s.Intact) (unknown : s.known.get? name = none)
    (free : name ∉ stack) (defined : definitions.lookup name = some body)
    (isPlain : body.isPlainObject = .ok true)
    (apart : ¬ Visit.ComesTo definitions
      ⟨stack, .one (.outline (body.outline (Definitions.path name))), s⟩ name) :
    let read := readDefinition definitions (definitions.free stack)
    let asSchema := readSchema (followReference definitions read) body (Definitions.path name)
    (∃ f t t', asSchema s = .error f t ∧ read name s = .error f t') ∨
    ∃ ρ id t t' entries fields, asSchema s = .ok id t ∧ read name s = .ok (ρ id) t' ∧
      s.Moved name ρ t t' ∧ body.entries = .ok entries ∧
      t.graph.node? (some id) =
        some ⟨Definitions.path name, Json.metadata entries, .object fields⟩ ∧
      t'.graph.node? (some (ρ id)) = some ⟨Definitions.path name, Json.metadata entries,
        .object (fields.mapValues (Option.map ρ))⟩ := by
  obtain ⟨entries, he, -⟩ := Json.outline_of_isPlainObject isPlain
  have hfields := readFields_openObject hs isPlain he apart
  intro read asSchema
  have hread : read name s = readBody (followReference definitions
      (readDefinition definitions (definitions.free (name :: stack)))) name body s := by
    change readDefinition definitions (definitions.free stack) name s = _
    rw [readDefinition_eq, get_bind, unknown]
    simp only [Definitions.lookup_free, if_neg free, defined, Definitions.without_free]
  have hschema : asSchema = _ := readSchema_of_isPlainObject isPlain he (Definitions.path name)
  rw [hread, hschema, readBody_of_isPlainObject isPlain he]
  generalize hone : readFields _ body (Definitions.path name) s = one at hfields
  generalize htwo : readFields _ body (Definitions.path name) (Session.openObject _ _ _ _) = two
    at hfields
  cases hfields with
  | @error f t t' => exact .inl ⟨f, t, t', bind_eq_error.2 (.inl hone), bind_eq_error.2 (.inl htwo)⟩
  | @ok fields t t' ahead =>
    obtain ⟨outlines, ids, -, hreads, rfl⟩ :=
      (Outline.readFields_eq_ok_iff (readDefinition_follows definitions stack) hs.sane).1 hone
    have hlinks : ∀ next, some next ∈ (Outline.fieldRefs outlines ids).values →
        next < t.graph.size := by
      intro next hnext
      obtain ⟨_, hid, ⟨⟩⟩ := List.mem_map.1 (Outline.values_fieldRefs_subset outlines ids hnext)
      exact (hreads.grows hs.sane).2.2 next hid
    have hmoved := ahead.moved (hreads.intact hs) hlinks
    refine .inr ⟨_, t.graph.size, _, _, entries, Outline.fieldRefs outlines ids,
      bind_eq_ok.2 ⟨_, t, hone, rfl⟩, bind_eq_ok.2 ⟨_, t', htwo, ?_⟩, hmoved, he, ?_, ?_⟩
    · rw [Graph.rotate_last]
      rfl
    · exact t.node?_add_self _
    · rw [hmoved.node?, Session.node?_add_self]
      rfl

end

/-- A pet refers to its home and to its owner. -/
def homePet : Json := .obj [
  ("type", .str "object"), ("x-kind", .str "animal"),
  ("properties", .obj [
    ("home", .obj [("$ref", .str "#/$defs/home")]),
    ("owner", .obj [("$ref", .str "#/$defs/person")])]),
  ("required", .arr [.str "home"])]

/-- The home refers to the pet again, and the owner to nothing. -/
def homeDefinitions : Definitions := [
  ("home", .obj [("type", .str "object"), ("properties", .obj [
    ("pet", .obj [("$ref", .str "#/$defs/pet")])])]),
  ("person", .obj [("properties", .obj [("name", .obj [("type", .str "string")])])]),
  ("pet", homePet)]

/-- The session in which the home has its node and its fields are being read. -/
def homeSession : Session :=
  (({} : Session).enter "home").openObject "home" (Definitions.path "home") []

theorem homeSession_intact : homeSession.Intact := Session.intact_empty.openObject ..

theorem homeDefinitions_leads : homeDefinitions.Leads "pet" "pet" :=
  .tail (.single (b := "home") ⟨homePet, rfl, by decide +kernel⟩) ⟨_, rfl, by decide +kernel⟩

theorem homePet_not_comesTo : ¬ Visit.ComesTo homeDefinitions
    ⟨["home"], .one (.outline (homePet.outline (Definitions.path "pet"))), homeSession⟩ "pet" := by
  intro h
  obtain ⟨other, hmem, hchain⟩ := h.exists_awaits homeSession_intact.sane
  have hmentions : (homePet.outline (Definitions.path "pet")).mentions = ["home", "person"] := by
    decide +kernel
  have hother : other = "home" ∨ other = "person" := by
    simpa [Task.mentions, Job.mentions, hmentions] using hmem
  have hne : other ≠ "pet" := by
    rintro rfl
    simp at hother
  obtain ⟨next, ⟨hunknown, body, hbody, hnext⟩, -⟩ := hchain.cases_head.resolve_left hne
  rcases hother with rfl | rfl
  · exact absurd hunknown (by decide)
  · have hnone : (body.outline (Definitions.path "person")).mentions = [] := by
      cases hbody
      decide +kernel
    rw [hnone] at hnext
    cases hnext

/-- The home refers to the pet and the pet to the home, but while the home is being read it has its
node, so the pet does not come back to itself. -/
theorem readDefinition_as_schema_pet :
    let read := readDefinition homeDefinitions (homeDefinitions.free ["home"])
    homeSession.Intact ∧ homeSession.known.get? "pet" = none ∧ "pet" ∉ ["home"] ∧
    homeDefinitions.lookup "pet" = some homePet ∧ homePet.isPlainObject = .ok true ∧
    homeDefinitions.Leads "pet" "pet" ∧
    ¬ Visit.ComesTo homeDefinitions
      ⟨["home"], .one (.outline (homePet.outline (Definitions.path "pet"))), homeSession⟩ "pet" ∧
    ∃ ρ id t t', readSchema (followReference homeDefinitions read) homePet (Definitions.path "pet")
        homeSession = .ok id t ∧ read "pet" homeSession = .ok (ρ id) t' ∧
      homeSession.Moved "pet" ρ t t' ∧ id = 5 ∧ ρ id = 1 ∧ t.known.get? "person" = some 1 ∧
      t'.known.get? "person" = some 2 := by
  intro read
  refine ⟨homeSession_intact, rfl, by decide, rfl, rfl, homeDefinitions_leads,
    homePet_not_comesTo, ?_⟩
  obtain ⟨id, t, hschema, hid⟩ := exists_ok
    (p := fun id t => id = 5 ∧ t.known.get? "person" = some 1)
    (x := readSchema (followReference homeDefinitions read) homePet (Definitions.path "pet")
      homeSession) (by decide +kernel)
  obtain ⟨id', t', hread, hid'⟩ := exists_ok
    (p := fun id t => id = 1 ∧ t.known.get? "person" = some 2)
    (x := read "pet" homeSession) (by decide +kernel)
  obtain ⟨rfl, hperson⟩ := of_decide_eq_true hid
  obtain ⟨rfl, hperson'⟩ := of_decide_eq_true hid'
  have hfree : "pet" ∉ ["home"] := by decide
  rcases readDefinition_as_schema homeSession_intact rfl hfree rfl rfl homePet_not_comesTo with
    ⟨f, u, u', h, -⟩ | ⟨ρ, id, u, u', entries, fields, h, h', hmoved, -⟩
  · cases hschema.symm.trans h
  · cases hschema.symm.trans h
    have heq := hread.symm.trans h'
    injection heq with hρ ht
    subst ht
    exact ⟨ρ, 5, t, t', hschema, h', hmoved, rfl, hρ.symm, hperson, hperson'⟩

/-- A node that refers to itself: as a schema, it has another node inside it. -/
example :
    let node := Json.obj [("type", .str "object"), ("properties", .obj [
      ("next", .obj [("$ref", .str "#/$defs/node")])]), ("required", .arr [.str "next"])]
    let read := readDefinition [("node", node)] [("node", node)]
    let sizeAfter (x : Reading NodeId) := match x {} with
      | .ok _ t => t.graph.size
      | .error _ t => t.graph.size
    sizeAfter (read "node") = 1 ∧
      sizeAfter (readSchema (followReference [("node", node)] read) node "#/$defs/node") = 2 := by
  decide +kernel

end ShapeSdl
