import ShapeSdl.Proofs.References

/-!
# How deep definitions lead

Reading follows references, and a reference may lead back. A definition that is met again has its
node if it is an object definition, and is refused if it is any other. So the bodies that lie inside
each other are of different definitions, and no more of them than there are definitions.

* `readDefinitionWithin` : reading a definition to some depth, by what is known and what is busy
  alone, something else being done for the definitions that lie deeper;
* `Reading.Same P x y` : `x` and `y` do the same from all sessions whose known definitions are as `P`
  says;
* `readDefinitionWithin_eq` : no definition lies deeper than there are definitions.
-/

namespace ShapeSdl

open Reading
open Fault (pure_eq_ok)

/-- The definitions that have no node until they have been read, and `name` with them unless it is an
object definition. -/
def Json.busyWith (body : Json) (name : String) (busy : List String) : List String :=
  match body.isPlainObject with
  | .ok true => busy
  | _ => name :: busy

/-- The node of a definition, read to a depth of so many bodies. What lies deeper is left to
`beyond`. `busy` are the definitions that are being read and have no node as yet. -/
def readDefinitionWithin (definitions : Definitions) (beyond : String → Reading NodeId) :
    Nat → List String → String → Reading NodeId
  | 0, _, name => beyond name
  | depth + 1, busy, name => do
    match (← get).known.get? name with
    | some id => return id
    | none => match (definitions.free busy).lookup name with
      | none => throw (.structural (.cyclicDefinition name))
      | some body =>
        let read := readDefinitionWithin definitions beyond depth (body.busyWith name busy)
        readBody (followReference definitions read) name body

/-- The batch of a document, `read` reading its definitions. -/
def readDocumentBy (read : Definitions → String → Reading NodeId) (schema : Json) (root : String) :
    Reading Batch := do
  modify Session.begin
  let definitions ← schema.definitions
  let nodes ← definitions.mapM fun (name, _) => do return (name, ← read definitions name)
  let batch : Batch := .ofList ((← get).graph.declared nodes)
  if (schema.get? "properties").isSome ∧ root ≠ "" then
    let id ← readSchema (followReference definitions (read definitions)) schema "#"
    return batch.put (TypeName.pascal root) (some id)
  else return batch

theorem readDocument_eq_by (schema : Json) (root : String) : readDocument schema root =
    readDocumentBy (fun definitions => readDefinition definitions definitions) schema root := rfl

/-! ## Doing the same -/

namespace Reading

variable {P P' Q R : Entries String NodeId → Prop} {α β : Type} {x y : Reading α}

/-- The same is done from every session whose known definitions are as `P` says, and then they are as
`Q` says. -/
def Same (P Q : Entries String NodeId → Prop) (x y : Reading α) : Prop :=
  ∀ s, P s.known → x s = y s ∧ ∀ a t, x s = .ok a t → Q t.known

theorem Same.mono (h : Same P' Q x y) (hp : ∀ known, P known → P' known) : Same P Q x y :=
  fun s hs => h s (hp _ hs)

theorem Same.pure (h : ∀ known, P known → Q known) (a : α) : Same P Q (pure a) (pure a) := by
  intro s hs
  refine ⟨rfl, fun b t ht => ?_⟩
  obtain ⟨-, rfl⟩ := pure_eq_ok.1 ht
  exact h _ hs

theorem Same.throw (f : Fault) : Same P Q (throw f : Reading α) (throw f) := fun _ _ => ⟨rfl, nofun⟩

theorem Same.throw_bind (f : Fault) (k l : α → Reading β) :
    Same P Q ((MonadExcept.throw f : Reading α) >>= k) (MonadExcept.throw f >>= l) :=
  fun _ _ => ⟨rfl, nofun⟩

theorem Same.lift (e : Except Fault α) : Same P P (liftM e) (liftM e) := by
  cases e with
  | ok a => exact .pure (fun _ h => h) a
  | error f => exact .throw f

theorem Same.bind {k l : α → Reading β} (h : Same P Q x y) (hk : ∀ a, Same Q R (k a) (l a)) :
    Same P R (x >>= k) (y >>= l) := by
  intro s hs
  obtain ⟨he, hp⟩ := h s hs
  show EStateM.bind x k s = EStateM.bind y l s ∧ ∀ a t, EStateM.bind x k s = .ok a t → R t.known
  unfold EStateM.bind
  rw [← he]
  cases hx : x s with
  | ok a t => exact hk a t (hp a t hx)
  | error f t => exact ⟨rfl, nofun⟩

theorem Same.get {k l : Session → Reading β} (h : ∀ s, P s.known → Same P Q (k s) (l s)) :
    Same P Q (get >>= k) (get >>= l) := fun s hs => h s hs s hs

theorem Same.modifyGet {step : Session → α × Session}
    (h : ∀ s, P s.known → Q (step s).2.known) :
    Same P Q (modifyGet step : Reading α) (modifyGet step) := by
  intro s hs
  refine ⟨rfl, ?_⟩
  rintro a t ⟨⟩
  exact h s hs

theorem Same.addNode (path : String) (metadata : List (String × Json)) (shape : Shape) :
    Same P P (addNode path metadata shape) (addNode path metadata shape) :=
  .modifyGet fun _ h => h

end Reading

namespace Outline

variable {P : Entries String NodeId → Prop} {follow follow' : Json → String → Reading NodeId}

mutual

theorem run_same (h : ∀ ref path, Same P P (follow ref path) (follow' ref path)) :
    ∀ (o : Outline), Same P P (o.run follow) (o.run follow')
  | .fault f => .throw f
  | .refused inner f => (run_same h inner).bind fun _ => .throw f
  | .reference ref path => h ref path
  | .leaf _ _ => .addNode _ _ _
  | .wrapper _ _ _ inner => (run_same h inner).bind fun _ => .addNode _ _ _
  | .list _ _ element => (run_same h element).bind fun _ => .addNode _ _ _
  | .union _ _ variants => (runAll_same h variants).bind fun _ => .addNode _ _ _
  | .object _ _ fields => (runFields_same h fields).bind fun _ => .addNode _ _ _
  | .merge path _ parts =>
    (runParts_same h path 0 ∅ parts).bind fun (_, _) => .modifyGet fun _ h => h

theorem runAll_same (h : ∀ ref path, Same P P (follow ref path) (follow' ref path)) :
    ∀ (os : List Outline), Same P P (runAll follow os) (runAll follow' os)
  | [] => .pure (fun _ h => h) []
  | o :: rest =>
    (run_same h o).bind fun _ => (runAll_same h rest).bind fun _ => .pure (fun _ h => h) _

theorem runFields_same (h : ∀ ref path, Same P P (follow ref path) (follow' ref path)) :
    ∀ (fields : List (String × Outline)), Same P P (runFields follow fields) (runFields follow' fields)
  | [] => .pure (fun _ h => h) []
  | (_, o) :: rest =>
    (run_same h o).bind fun _ => (runFields_same h rest).bind fun _ => .pure (fun _ h => h) _

theorem runParts_same (h : ∀ ref path, Same P P (follow ref path) (follow' ref path))
    (path : String) (index : Nat) (fields : Entries String Ref) : ∀ (parts : List Outline),
      Same P P (runParts follow path index fields parts) (runParts follow' path index fields parts)
  | [] => .pure (fun _ h => h) (fields, [])
  | o :: rest => by
    refine (run_same h o).bind fun id => .get fun s _ => ?_
    dsimp only
    split
    · exact (runParts_same h path _ _ rest).bind fun _ => .pure (fun _ h => h) _
    · exact .throw _

end

theorem readFields_same (h : ∀ ref path, Same P P (follow ref path) (follow' ref path))
    (schema : Json) (path : String) :
    Same P P (readFields follow schema path) (readFields follow' schema path) := by
  rw [readFields_eq_run, readFields_eq_run]
  exact (Same.lift _).bind fun fields => (runFields_same h fields).bind fun _ => .pure (fun _ h => h) _

end Outline

/-! ## Definitions -/

/-- The object definitions that are being read have their nodes. -/
def Definitions.Begun (definitions : Definitions) (stack : List String)
    (known : Entries String NodeId) : Prop :=
  ∀ name ∈ stack, definitions.IsPlain name → ∃ id, known.get? name = some id

section
variable {definitions : Definitions} {stack busy : List String} {name : String} {body : Json}

theorem Definitions.isPlain_iff (hd : definitions.lookup name = some body) :
    definitions.IsPlain name ↔ body.isPlainObject = .ok true := by
  constructor
  · rintro ⟨_, hd', hp⟩
    cases hd.symm.trans hd'
    exact hp
  · exact fun hp => ⟨body, hd, hp⟩

namespace Definitions.Begun

variable {known : Entries String NodeId}

theorem put (h : definitions.Begun stack known) (other : String) (id : NodeId) :
    definitions.Begun stack (known.put other id) := by
  intro name hmem hp
  rw [Entries.get?_put]
  split
  · exact ⟨id, rfl⟩
  · exact h name hmem hp

theorem put_self (h : definitions.Begun stack known) (name : String) (id : NodeId) :
    definitions.Begun (name :: stack) (known.put name id) :=
  fun other hmem hp => (List.mem_cons.1 hmem).elim
    (fun he => ⟨id, he ▸ Entries.get?_put_self ..⟩) fun hmem => h.put name id other hmem hp

theorem enter (h : definitions.Begun stack known) (hp : ¬ definitions.IsPlain name) :
    definitions.Begun (name :: stack) known :=
  fun other hmem hplain => (List.mem_cons.1 hmem).elim
    (fun he => absurd (he ▸ hplain) hp) fun hmem => h other hmem hplain

theorem leave (h : definitions.Begun (name :: stack) known) : definitions.Begun stack known :=
  fun other hmem hp => h other (List.mem_cons_of_mem _ hmem) hp

end Definitions.Begun

theorem readBody_same {follow follow' : Json → String → Reading NodeId}
    (hd : definitions.lookup name = some body)
    (h : ∀ ref path, Same (definitions.Begun (name :: stack)) (definitions.Begun (name :: stack))
      (follow ref path) (follow' ref path)) :
    Same (definitions.Begun stack) (definitions.Begun stack) (readBody follow name body)
      (readBody follow' name body) := by
  refine Same.bind (Q := definitions.Begun stack) (.modifyGet fun _ h => h) fun _ => ?_
  cases hp : body.isPlainObject with
  | error f => exact .throw_bind _ _ _
  | ok plain =>
    rw [liftM_ok, pure_bind, pure_bind]
    cases plain with
    | true =>
      rw [if_pos rfl, if_pos rfl]
      refine (Same.lift _).bind fun entries => ?_
      refine Same.bind (.modifyGet fun s hs => hs.put_self name s.graph.size) fun id => ?_
      refine (Outline.readFields_same h body _).bind fun fields => ?_
      exact Same.bind (.modifyGet fun _ hs => hs.leave) fun _ => .pure (fun _ h => h) id
    | false =>
      have hother : ¬ definitions.IsPlain name := by
        rw [Definitions.isPlain_iff hd, hp]
        nofun
      rw [if_neg nofun, if_neg nofun, readSchema_eq_run, readSchema_eq_run]
      refine ((Outline.run_same h _).mono fun _ hs => hs.enter hother).bind fun id => ?_
      exact Same.bind (.modifyGet fun s hs => (hs.put name id).leave) fun _ => .pure (fun _ h => h) id

theorem followReference_same {P : Entries String NodeId → Prop} {read read' : String → Reading NodeId}
    (h : ∀ name, Same P P (read name) (read' name)) (ref : Json) (path : String) :
    Same P P (followReference definitions read ref path)
      (followReference definitions read' ref path) := by
  unfold followReference
  split
  · split
    · dsimp only
      split
      · exact h _
      · exact .throw _
    · exact .throw _
  · exact .throw _

theorem mem_busyWith_iff (hbusy : ∀ name, name ∈ busy ↔ name ∈ stack ∧ ¬ definitions.IsPlain name)
    (hd : definitions.lookup name = some body) (other : String) :
    other ∈ body.busyWith name busy ↔ other ∈ name :: stack ∧ ¬ definitions.IsPlain other := by
  have hplain := Definitions.isPlain_iff hd
  unfold Json.busyWith
  split
  · rename_i hp
    rw [hbusy, List.mem_cons]
    refine and_congr_left fun hother => (or_iff_right ?_).symm
    rintro rfl
    exact hother (hplain.2 hp)
  · rename_i hp
    rw [List.mem_cons, List.mem_cons, hbusy]
    by_cases he : other = name
    · subst he
      simpa using fun h => hp (hplain.1 h)
    · simp [he]

/-- Reading a definition to a depth does the same as reading it, as long as the depth is greater than
the number of definitions that are not being read. -/
theorem readDefinitionWithin_same (definitions : Definitions) (beyond : String → Reading NodeId) :
    ∀ {depth : Nat} {stack busy : List String},
      (∀ name, name ∈ busy ↔ name ∈ stack ∧ ¬ definitions.IsPlain name) →
      (definitions.free stack).length < depth → ∀ name,
        Same (definitions.Begun stack) (definitions.Begun stack)
          (readDefinitionWithin definitions beyond depth busy name)
          (readDefinition definitions (definitions.free stack) name)
  | depth + 1, stack, busy, hbusy, hdepth, name => by
    rw [readDefinition_eq]
    unfold readDefinitionWithin
    refine .get fun s hs => ?_
    cases hk : s.known.get? name with
    | some id => exact .pure (fun _ h => h) id
    | none =>
      -- An object that is being read has its node, so what is met again is busy.
      have hiff : name ∈ busy ↔ name ∈ stack := by
        rw [hbusy]
        refine and_iff_left_of_imp fun hmem hp => ?_
        obtain ⟨id, hid⟩ := hs name hmem hp
        cases hk.symm.trans hid
      dsimp only
      rw [Definitions.lookup_free, Definitions.lookup_free, Definitions.without_free]
      simp only [hiff]
      by_cases hfree : name ∈ stack
      · simp only [if_pos hfree]
        exact .throw _
      · simp only [if_neg hfree]
        cases hd : definitions.lookup name with
        | none => exact .throw _
        | some body =>
          have hlt := Definitions.length_free_cons_lt hd hfree
          refine readBody_same hd fun ref path => followReference_same (fun other => ?_) ref path
          have hnext := mem_busyWith_iff hbusy hd
          exact readDefinitionWithin_same definitions beyond hnext (by omega) other

/-- No definition lies deeper than there are definitions. -/
theorem readDefinitionWithin_eq {definitions : Definitions} (beyond : String → Reading NodeId)
    {depth : Nat} (h : definitions.length < depth) :
    readDefinitionWithin definitions beyond depth [] = readDefinition definitions definitions := by
  funext name s
  have hbusy : ∀ name, name ∈ ([] : List String) ↔ name ∈ [] ∧ ¬ definitions.IsPlain name := by simp
  have hdepth : (definitions.free []).length < depth := by rwa [Definitions.free_nil]
  have hsame := readDefinitionWithin_same definitions beyond hbusy hdepth name s nofun
  rw [Definitions.free_nil] at hsame
  exact hsame.1

/-- Reading a document never comes to a definition that lies deeper than there are definitions. -/
theorem readDocumentBy_eq {schema : Json} {definitions : Definitions}
    (hd : schema.definitions = .ok definitions) (beyond : String → Reading NodeId) {depth : Nat}
    (h : definitions.length < depth) (root : String) :
    readDocumentBy (fun definitions => readDefinitionWithin definitions beyond depth []) schema root =
      readDocument schema root := by
  rw [readDocument_eq_by]
  unfold readDocumentBy
  simp only [hd, liftM_ok, pure_bind, readDefinitionWithin_eq beyond h]

end

end ShapeSdl
