import ShapeSdl.Proofs.Reads
import Mathlib.Logic.Relation

/-!
# Where reading stops

Reading that fails has come to something that is refused. The way there leads into schemas, past the
parts that have been read, and into the bodies of definitions.

* `Visit` : a task that is read from a session, and the definitions that are being read then;
* `Goes definitions v w` : one step of the way, into a task or past its first part;
* `Stops definitions v f t` : what is refused at once, the fault, and the session that is left;
* `Fails definitions v f t` : a way to what is refused;
* `Outline.run_eq_error`, `readDefinition_eq_error`, `readDocument_eq_error` : reading fails only so.
-/

namespace ShapeSdl

open Reading
open Fault (bind_eq_ok bind_eq_error pure_eq_ok)

/-! ## The rules -/

/-- A task that is read from a session. The definitions of the stack are being read, the innermost
one first. -/
structure Visit where
  stack : List String
  task : Task
  session : Session

/-- One step on the way to where reading stops. -/
inductive Goes (definitions : Definitions) : Visit → Visit → Prop
  | wrapper {stack s path kind value inner} :
      Goes definitions ⟨stack, .one (.outline (.wrapper path kind value inner)), s⟩
        ⟨stack, .one (.outline inner), s⟩
  | refused {stack s inner f} :
      Goes definitions ⟨stack, .one (.outline (.refused inner f)), s⟩
        ⟨stack, .one (.outline inner), s⟩
  | list {stack s path metadata element} :
      Goes definitions ⟨stack, .one (.outline (.list path metadata element)), s⟩
        ⟨stack, .one (.outline element), s⟩
  | union {stack s path metadata variants} :
      Goes definitions ⟨stack, .one (.outline (.union path metadata variants)), s⟩
        ⟨stack, .all (variants.map .outline), s⟩
  | object {stack s path metadata fields} :
      Goes definitions ⟨stack, .one (.outline (.object path metadata fields)), s⟩
        ⟨stack, .all (Outline.fieldJobs fields), s⟩
  | merge {stack s t path metadata before part after ids}
      (read : Reads definitions stack (.all (before.map .outline)) s ids t)
      (objects : ∀ id ∈ ids, t.graph.isObject (some id) = true) :
      Goes definitions ⟨stack, .one (.outline (.merge path metadata (before ++ part :: after))), s⟩
        ⟨stack, .one (.outline part), t⟩
  | reference {stack s ref path name} (means : ref.referred? = some name)
      (defined : (definitions.lookup name).isSome) :
      Goes definitions ⟨stack, .one (.outline (.reference ref path)), s⟩
        ⟨stack, .one (.definition name), s⟩
  | plain {stack s name body path metadata fields} (unknown : s.known.get? name = none)
      (free : name ∉ stack) (defined : definitions.lookup name = some body)
      (isPlain : body.isPlainObject = .ok true)
      (outlined : body.outline (Definitions.path name) = .object path metadata fields) :
      Goes definitions ⟨stack, .one (.definition name), s⟩
        ⟨name :: stack, .all (Outline.fieldJobs fields), (s.enter name).openObject name path metadata⟩
  | other {stack s name body} (unknown : s.known.get? name = none)
      (free : name ∉ stack) (defined : definitions.lookup name = some body)
      (isOther : body.isPlainObject = .ok false) :
      Goes definitions ⟨stack, .one (.definition name), s⟩
        ⟨name :: stack, .one (.outline (body.outline (Definitions.path name))), s.enter name⟩
  | first {stack s job jobs} :
      Goes definitions ⟨stack, .all (job :: jobs), s⟩ ⟨stack, .one job, s⟩
  | rest {stack s t job jobs id} (read : Reads definitions stack (.one job) s [id] t) :
      Goes definitions ⟨stack, .all (job :: jobs), s⟩ ⟨stack, .all jobs, t⟩

/-- What is refused, with the fault and the session that is left. -/
inductive Stops (definitions : Definitions) : Visit → Fault → Session → Prop
  | fault {stack s f} : Stops definitions ⟨stack, .one (.outline (.fault f)), s⟩ f s
  | refused {stack s t inner f id} (read : Reads definitions stack (.one (.outline inner)) s [id] t) :
      Stops definitions ⟨stack, .one (.outline (.refused inner f)), s⟩ f t
  | part {stack s t u path metadata before part after ids id}
      (read : Reads definitions stack (.all (before.map .outline)) s ids t)
      (objects : ∀ id ∈ ids, t.graph.isObject (some id) = true)
      (last : Reads definitions stack (.one (.outline part)) t [id] u)
      (isOther : u.graph.isObject (some id) = false) :
      Stops definitions ⟨stack, .one (.outline (.merge path metadata (before ++ part :: after))), s⟩
        (.structural (.partNotObject before.length path (u.graph.kindName (some id)))) u
  | notText {stack s ref path} (notText : ref.isText = false) :
      Stops definitions ⟨stack, .one (.outline (.reference ref path)), s⟩ (.misuse .notText) s
  | external {stack s text path} (external : (Json.str text).referred? = none) :
      Stops definitions ⟨stack, .one (.outline (.reference (.str text) path)), s⟩
        (.structural (.externalReference text path)) s
  | unresolved {stack s text path name} (means : (Json.str text).referred? = some name)
      (undefined : definitions.lookup name = none) :
      Stops definitions ⟨stack, .one (.outline (.reference (.str text) path)), s⟩
        (.structural (.unresolvedReference text path)) s
  | cyclic {stack s name} (unknown : s.known.get? name = none) (busy : name ∈ stack) :
      Stops definitions ⟨stack, .one (.definition name), s⟩
        (.structural (.cyclicDefinition name)) s
  | body {stack s name body f} (unknown : s.known.get? name = none) (free : name ∉ stack)
      (defined : definitions.lookup name = some body) (misshaped : body.isPlainObject = .error f) :
      Stops definitions ⟨stack, .one (.definition name), s⟩ f (s.enter name)
  | fields {stack s name body path metadata f} (unknown : s.known.get? name = none)
      (free : name ∉ stack) (defined : definitions.lookup name = some body)
      (isPlain : body.isPlainObject = .ok true)
      (misshaped : body.outline (Definitions.path name) = .fault f) :
      Stops definitions ⟨stack, .one (.definition name), s⟩ f
        ((s.enter name).openObject name path metadata)

def Fails (definitions : Definitions) (v : Visit) (f : Fault) (t : Session) : Prop :=
  ∃ w, Relation.ReflTransGen (Goes definitions) v w ∧ Stops definitions w f t

theorem Stops.fails {definitions : Definitions} {v : Visit} {f : Fault} {t : Session}
    (h : Stops definitions v f t) : Fails definitions v f t := ⟨v, .refl, h⟩

theorem Goes.fails {definitions : Definitions} {v w : Visit} {f : Fault} {t : Session}
    (h : Goes definitions v w) (hw : Fails definitions w f t) : Fails definitions v f t := by
  obtain ⟨x, hx, hs⟩ := hw
  exact ⟨x, .head h hx, hs⟩

theorem Reads.goes_append {definitions : Definitions} {stack : List String} {more : List Job} :
    ∀ {jobs : List Job} {s t : Session} {ids : List NodeId},
      Reads definitions stack (.all jobs) s ids t →
        Relation.ReflTransGen (Goes definitions) ⟨stack, .all (jobs ++ more), s⟩
          ⟨stack, .all more, t⟩
  | [], _, _, _, h => by cases h; exact .refl
  | job :: jobs, _, _, _, h => by
    cases h with
    | cons first rest => exact .head (.rest first) (goes_append rest)

/-! ## Reading by an outline -/

namespace Outline

variable {definitions : Definitions} {stack : List String} {follow : Json → String → Reading NodeId}

/-- References are refused by the rules. -/
def Refuses (definitions : Definitions) (stack : List String)
    (follow : Json → String → Reading NodeId) : Prop :=
  ∀ ref path s f t, s.Sane → follow ref path s = .error f t →
    Fails definitions ⟨stack, .one (.outline (.reference ref path)), s⟩ f t

theorem runParts_cons_eq_error {path : String} {index : Nat} {fields : Entries String Ref}
    {o : Outline} {rest : List Outline} {s t : Session} {f : Fault}
    (h : runParts follow path index fields (o :: rest) s = .error f t) :
    o.run follow s = .error f t ∨ ∃ id u, o.run follow s = .ok id u ∧
      ((u.graph.isObject (some id) = false ∧ t = u ∧
          f = .structural (.partNotObject index path (u.graph.kindName (some id)))) ∨
        u.graph.isObject (some id) = true ∧
          runParts follow path (index + 1) (fields.putAll (u.graph.fields (some id)).toList) rest u =
            .error f t) := by
  rcases bind_eq_error.1 h with h | ⟨id, u, hrun, h⟩
  · exact .inl h
  refine .inr ⟨id, u, hrun, ?_⟩
  rw [get_bind] at h
  unfold Graph.isObject Graph.fields
  cases hm : u.graph.shape? (some id) with
  | none =>
    rw [hm] at h
    cases h
    exact .inl ⟨rfl, rfl, rfl⟩
  | some shape =>
    rw [hm] at h
    cases shape with
    | object more =>
      rcases bind_eq_error.1 h with h | ⟨_, _, -, h⟩
      · exact .inr ⟨rfl, h⟩
      · cases h
    | _ =>
      cases h
      exact .inl ⟨rfl, rfl, rfl⟩

mutual

/-- Reading by an outline fails only by the rules. -/
theorem run_eq_error (hf : Follows definitions stack follow) (hr : Refuses definitions stack follow) :
    ∀ (o : Outline) {s t : Session} {f : Fault}, s.Sane → o.run follow s = .error f t →
      Fails definitions ⟨stack, .one (.outline o), s⟩ f t
  | .fault f, s, t, _, _, h => by
    cases h
    exact Stops.fault.fails
  | .refused inner f, s, t, _, hs, h => by
    rcases bind_eq_error.1 h with h | ⟨id, u, hrun, h⟩
    · exact Goes.refused.fails (run_eq_error hf hr inner hs h)
    · cases h
      exact (Stops.refused ((run_eq_ok_iff hf inner hs).1 hrun)).fails
  | .reference ref path, s, t, f, hs, h => hr ref path s f t hs h
  | .leaf n _, s, t, f, _, h => by cases h
  | .wrapper path kind value inner, s, t, f, hs, h => by
    rcases bind_eq_error.1 h with h | ⟨_, _, -, h⟩
    · exact Goes.wrapper.fails (run_eq_error hf hr inner hs h)
    · cases h
  | .list path metadata element, s, t, f, hs, h => by
    rcases bind_eq_error.1 h with h | ⟨_, _, -, h⟩
    · exact Goes.list.fails (run_eq_error hf hr element hs h)
    · cases h
  | .union path metadata variants, s, t, f, hs, h => by
    rcases bind_eq_error.1 h with h | ⟨_, _, -, h⟩
    · exact Goes.union.fails (runAll_eq_error hf hr variants hs h)
    · cases h
  | .object path metadata fields, s, t, f, hs, h => by
    rcases bind_eq_error.1 h with h | ⟨_, _, -, h⟩
    · exact Goes.object.fails (runFields_eq_error hf hr fields hs h)
    · cases h
  | .merge path metadata parts, s, t, f, hs, h => by
    rcases bind_eq_error.1 h with h | ⟨_, _, -, h⟩
    · exact runParts_eq_error hf hr path metadata [] parts .nil (List.forall_mem_nil _) hs h
    · cases h

theorem runAll_eq_error (hf : Follows definitions stack follow)
    (hr : Refuses definitions stack follow) :
    ∀ (os : List Outline) {s t : Session} {f : Fault}, s.Sane → runAll follow os s = .error f t →
      Fails definitions ⟨stack, .all (os.map .outline), s⟩ f t
  | [], _, _, _, _, h => by cases h
  | o :: rest, s, t, f, hs, h => by
    rcases bind_eq_error.1 h with h | ⟨id, u, hrun, h⟩
    · exact Goes.first.fails (run_eq_error hf hr o hs h)
    · have hread := (run_eq_ok_iff hf o hs).1 hrun
      rcases bind_eq_error.1 h with h | ⟨_, _, -, h⟩
      · exact (Goes.rest hread).fails (runAll_eq_error hf hr rest (hread.sane hs) h)
      · cases h

theorem runFields_eq_error (hf : Follows definitions stack follow)
    (hr : Refuses definitions stack follow) :
    ∀ (fields : List (String × Outline)) {s t : Session} {f : Fault}, s.Sane →
      runFields follow fields s = .error f t →
        Fails definitions ⟨stack, .all (fieldJobs fields), s⟩ f t
  | [], _, _, _, _, h => by cases h
  | (name, o) :: rest, s, t, f, hs, h => by
    rcases bind_eq_error.1 h with h | ⟨id, u, hrun, h⟩
    · exact Goes.first.fails (run_eq_error hf hr o hs h)
    · have hread := (run_eq_ok_iff hf o hs).1 hrun
      rcases bind_eq_error.1 h with h | ⟨_, _, -, h⟩
      · exact (Goes.rest hread).fails (runFields_eq_error hf hr rest (hread.sane hs) h)
      · cases h

theorem runParts_eq_error (hf : Follows definitions stack follow)
    (hr : Refuses definitions stack follow) (path : String) (metadata : List (String × Json)) :
    ∀ (before parts : List Outline) {fields : Entries String Ref}
      {r s t : Session} {ids : List NodeId} {f : Fault},
      Reads definitions stack (.all (before.map .outline)) r ids s →
      (∀ id ∈ ids, s.graph.isObject (some id) = true) → r.Sane →
      runParts follow path before.length fields parts s = .error f t →
        Fails definitions ⟨stack, .one (.outline (.merge path metadata (before ++ parts))), r⟩ f t
  | _, [], _, _, _, _, _, _, _, _, _, h => by cases h
  | before, o :: rest, fields, r, s, t, ids, f, hb, ho, hs, h => by
    have hsane := hb.sane hs
    rcases runParts_cons_eq_error h with h | ⟨id, u, hrun, h⟩
    · exact (Goes.merge hb ho).fails (run_eq_error hf hr o hsane h)
    · have hread := (run_eq_ok_iff hf o hsane).1 hrun
      rcases h with ⟨hi, rfl, rfl⟩ | ⟨hi, h⟩
      · exact (Stops.part hb ho hread hi).fails
      · have hall : ∀ i ∈ ids ++ [id], u.graph.isObject (some i) = true := by
          refine List.forall_mem_append.2 ⟨fun i hmem => ?_, List.forall_mem_singleton.2 hi⟩
          exact ((hread.grows hsane).1.isObject ((hb.grows hs).2.2 i hmem)).trans (ho i hmem)
        have hb' : Reads definitions stack (.all ((before ++ [o]).map .outline)) r (ids ++ [id]) u := by
          rw [List.map_append]
          exact hb.append (.cons hread .nil)
        have hl : before.length + 1 = (before ++ [o]).length := by rw [List.length_append]; rfl
        rw [hl] at h
        rw [List.append_cons]
        exact runParts_eq_error hf hr path metadata (before ++ [o]) rest hb' hall hs h

end

theorem readFields_eq_error (hf : Follows definitions stack follow)
    (hr : Refuses definitions stack follow) {schema : Json} {path : String} {s t : Session}
    {f : Fault} (hs : s.Sane) (h : readFields follow schema path s = .error f t) :
    schema.fieldsOutline path = .error f ∧ s = t ∨ ∃ fields,
      schema.fieldsOutline path = .ok fields ∧
        Fails definitions ⟨stack, .all (fieldJobs fields), s⟩ f t := by
  rw [readFields_eq_run] at h
  rcases bind_eq_error.1 h with h | ⟨fields, u, hl, h⟩
  · exact .inl (lift_eq_error.1 h)
  · obtain ⟨hfields, rfl⟩ := lift_eq_ok.1 hl
    rcases bind_eq_error.1 h with h | ⟨_, _, -, h⟩
    · exact .inr ⟨fields, hfields, runFields_eq_error hf hr fields hs h⟩
    · cases h

theorem followReference_refuses (read : String → Reading NodeId)
    (hr : ∀ name s f t, s.Sane → (definitions.lookup name).isSome → read name s = .error f t →
      Fails definitions ⟨stack, .one (.definition name), s⟩ f t) :
    Refuses definitions stack (followReference definitions read) := by
  intro ref path s f t hs h
  cases ref with
  | str text =>
    unfold followReference at h
    dsimp only at h
    split at h
    · rename_i hp
      have hm : (Json.str text).referred? = some (Reference.definitionName text) := if_pos hp
      cases hd : definitions.lookup (Reference.definitionName text) with
      | none =>
        rw [hd] at h
        cases h
        exact (Stops.unresolved hm hd).fails
      | some body =>
        rw [hd] at h
        have hdef : (definitions.lookup (Reference.definitionName text)).isSome := by rw [hd]; rfl
        exact (Goes.reference hm hdef).fails (hr _ s f t hs hdef h)
    · rename_i hp
      cases h
      exact (Stops.external (if_neg hp)).fails
  | _ =>
    cases h
    exact (Stops.notText rfl).fails

end Outline

/-! ## Definitions -/

theorem readBody_eq_error {definitions : Definitions} {stack : List String} {name : String}
    {s t : Session} {f : Fault} {follow : Json → String → Reading NodeId} {body : Json}
    (hf : Outline.Follows definitions (name :: stack) follow)
    (hr : Outline.Refuses definitions (name :: stack) follow) (hs : s.Sane)
    (hu : s.known.get? name = none) (hfree : name ∉ stack)
    (hd : definitions.lookup name = some body) (h : readBody follow name body s = .error f t) :
    Fails definitions ⟨stack, .one (.definition name), s⟩ f t := by
  have hse : (s.enter name).Sane := hs
  unfold readBody at h
  rw [enter_bind] at h
  cases hp : body.isPlainObject with
  | error f' =>
    rw [hp] at h
    cases h
    exact (Stops.body hu hfree hd hp).fails
  | ok plain =>
    rw [hp, liftM_ok, pure_bind] at h
    cases plain with
    | true =>
      obtain ⟨entries, he, ho⟩ := Json.outline_of_isPlainObject hp
      have hso := Session.sane_openObject hse name (Definitions.path name) (Json.metadata entries)
      rw [if_pos rfl, he, liftM_ok, pure_bind, openObject_bind] at h
      rcases bind_eq_error.1 h with h | ⟨_, _, -, h⟩
      · rcases Outline.readFields_eq_error hf hr hso h with ⟨hfs, rfl⟩ | ⟨fields, hfs, hfail⟩
        · exact (Stops.fields hu hfree hd hp ((ho _).trans (by rw [hfs]; rfl))).fails
        · exact (Goes.plain hu hfree hd hp ((ho _).trans (by rw [hfs]; rfl))).fails hfail
      · cases h
    | false =>
      rw [if_neg nofun, readSchema_eq_run] at h
      rcases bind_eq_error.1 h with h | ⟨_, _, -, h⟩
      · exact (Goes.other hu hfree hd hp).fails (Outline.run_eq_error hf hr _ hse h)
      · cases h

theorem readDefinition_eq_error {definitions : Definitions} {stack : List String} {name : String}
    {s t : Session} {f : Fault} (hs : s.Sane) (hdef : (definitions.lookup name).isSome)
    (h : readDefinition definitions (definitions.free stack) name s = .error f t) :
    Fails definitions ⟨stack, .one (.definition name), s⟩ f t := by
  rw [readDefinition_eq, get_bind] at h
  cases hk : s.known.get? name with
  | some i => rw [hk] at h; cases h
  | none =>
    rw [hk] at h
    dsimp only at h
    cases hl : (definitions.free stack).lookup name with
    | none =>
      rw [hl] at h
      cases h
      rw [Definitions.lookup_free] at hl
      split at hl
      · exact (Stops.cyclic hk ‹_›).fails
      · rw [hl] at hdef
        cases hdef
    | some body =>
      rw [hl] at h
      dsimp only at h
      have hlt : (definitions.free (name :: stack)).length < (definitions.free stack).length := by
        rw [← Definitions.without_free]
        exact Definitions.length_without_lt hl
      have ih : ∀ other s f t, s.Sane → (definitions.lookup other).isSome →
          readDefinition definitions (definitions.free (name :: stack)) other s = .error f t →
            Fails definitions ⟨name :: stack, .one (.definition other), s⟩ f t :=
        fun _ _ _ _ hs hdef h => readDefinition_eq_error hs hdef h
      rw [Definitions.lookup_free] at hl
      rw [Definitions.without_free] at h
      split at hl
      · cases hl
      · rename_i hfree
        have hf := readDefinition_follows definitions (name :: stack)
        exact readBody_eq_error hf (Outline.followReference_refuses _ ih) hs hk hfree hl h
termination_by (definitions.free stack).length

/-! ## Documents -/

/-- What is read of a document: its definitions, then its root if it applies. -/
def Json.documentJobs (schema : Json) (definitions : Definitions) (root : String) : List Job :=
  definitions.jobs ++ (schema.rootOutline root).toList.map .outline

def Json.visit (schema : Json) (definitions : Definitions) (root : String) (s : Session) : Visit :=
  ⟨[], .all (schema.documentJobs definitions root), s.begin⟩

theorem readDefinition_nil_eq_error {definitions : Definitions} {name : String} {s t : Session}
    {f : Fault} (hs : s.Sane) (hdef : (definitions.lookup name).isSome)
    (h : readDefinition definitions definitions name s = .error f t) :
    Fails definitions ⟨[], .one (.definition name), s⟩ f t := by
  apply readDefinition_eq_error hs hdef
  rwa [Definitions.free_nil]

theorem refuses_nil (definitions : Definitions) : Outline.Refuses definitions []
    (followReference definitions (readDefinition definitions definitions)) :=
  Outline.followReference_refuses _ fun _ _ _ _ => readDefinition_nil_eq_error

theorem readDefinitions_eq_error {definitions : Definitions} {s t : Session} {f : Fault}
    (hs : s.Sane) (h : readDefinitions definitions s = .error f t) (more : List Job) :
    Fails definitions ⟨[], .all (definitions.jobs ++ more), s⟩ f t := by
  have key : ∀ (ds : Definitions) {s : Session}, s.Sane → ds ⊆ definitions →
      (ds.mapM fun d => do return (d.1, ← readDefinition definitions definitions d.1) :
        Reading (List (String × NodeId))) s = .error f t →
      Fails definitions ⟨[], .all (ds.jobs ++ more), s⟩ f t := by
    intro ds
    induction ds with
    | nil => intro s _ _ h; cases h
    | cons d rest ih =>
      intro s hs hsub h
      obtain ⟨hd, hrest⟩ := List.cons_subset.1 hsub
      have hdef : (definitions.lookup d.1).isSome := Definitions.isSome_lookup hd
      rw [List.mapM_cons] at h
      rcases bind_eq_error.1 h with h | ⟨_, u, hfirst, h⟩
      · rcases bind_eq_error.1 h with h | ⟨_, _, -, h⟩
        · exact Goes.first.fails (readDefinition_nil_eq_error hs hdef h)
        · cases h
      · obtain ⟨id, _, hone, hp⟩ := bind_eq_ok.1 hfirst
        obtain ⟨rfl, rfl⟩ := pure_eq_ok.1 hp
        have hread := (readDefinition_nil_eq_ok_iff hs).1 hone
        rcases bind_eq_error.1 h with h | ⟨_, _, -, h⟩
        · exact (Goes.rest hread).fails (ih (hread.sane hs) hrest h)
        · cases h
  exact key definitions hs (List.Subset.refl _) h

/-- Reading a document that has definitions fails only by the rules. -/
theorem readDocument_eq_error {schema : Json} {root : String} {definitions : Definitions}
    {s t : Session} {f : Fault} (hd : schema.definitions = .ok definitions)
    (h : readDocument schema root s = .error f t) :
    Fails definitions (schema.visit definitions root s) f t := by
  have hb := s.sane_begin
  unfold readDocument at h
  rw [begin_bind, hd, liftM_ok, pure_bind] at h
  rcases bind_eq_error.1 h with h | ⟨nodes, u, hn, h⟩
  · exact readDefinitions_eq_error hb h _
  · obtain ⟨ids, hr, rfl⟩ := (readDefinitions_eq_ok_iff hb).1 hn
    rw [get_bind] at h
    dsimp only at h
    split at h
    · rename_i hroot
      rcases bind_eq_error.1 h with h | ⟨_, _, -, h⟩
      · rw [readSchema_eq_run] at h
        obtain ⟨w, hw, hs⟩ := Outline.run_eq_error (follows_nil definitions)
          (refuses_nil definitions) _ (hr.sane hb) h
        refine ⟨w, ?_, hs⟩
        unfold Json.visit Json.documentJobs Json.rootOutline
        rw [if_pos hroot]
        exact (hr.goes_append).trans (.head .first hw)
      · cases h
    · cases h

end ShapeSdl
