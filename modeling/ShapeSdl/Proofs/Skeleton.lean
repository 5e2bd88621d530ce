import ShapeSdl.Proofs.Blocks
import ShapeSdl.Proofs.Errors

/-!
# What options spell

The scalar overrides and the case of enum values decide how a document is spelled, and nothing else.
What is spelled is the same for all of them.

* `TypeSkeleton`, `Skeleton` : a declaration with the keys of its scalars and the values of its enums
  as they are, and `render` : the declaration as options spell it;
* `Options.spell_eq` : the name of a key depends on the overrides of this key only;
* `Compiling.Renders` : a computation whose end options only spell;
* `Context.declare_renders` : a declaration is such a computation;
* `compileBatch_skeleton` : a batch fails in one way for all options, or its document is one skeleton
  as options spell it.
-/

namespace ShapeSdl

/-! ## Skeletons -/

/-- A type with the key of its scalar, if it is one. -/
inductive TypeSkeleton where
  | named (name : String)
  | scalar (key : String)
  | list (element : TypeSkeleton)
  | required (inner : TypeSkeleton)
deriving DecidableEq

/-- A declaration whose scalars are keys and whose enum values are as they are. -/
inductive Skeleton where
  | type (name : String) (fields : List (String × TypeSkeleton))
  | enumeration (name : String) (values : List Json)
  | union (name : String) (members : List String)
deriving DecidableEq

namespace Options

/-- The scalar overrides are texts by their keys. -/
def HasTable (o : Options) : Prop := o.scalars.isObjectOf Json.isText = true

/-- The override of a key, if there is one. The last one counts. -/
def override? (o : Options) (key : String) : Option Json :=
  match o.scalars with
  | .obj overrides => (Entries.ofList overrides).get? key
  | _ => none

/-- The name that the options give to a key. -/
def spell (o : Options) (key : String) : Json := (o.scalarName key).toOption.getD .null

def spellValue (o : Options) (v : Json) : String :=
  if o.preserveEnumCase.isTruthy then v.plain else Text.upper v.plain

end Options

namespace TypeSkeleton

def key? : TypeSkeleton → Option String
  | named _ => none
  | scalar key => some key
  | list t | required t => t.key?

def render (o : Options) : TypeSkeleton → TypeExpr
  | named name => .named (.str name)
  | scalar key => .named (o.spell key)
  | list t => .list (t.render o)
  | required t => .required (t.render o)

def unlessNullable (nullable : Bool) (t : TypeSkeleton) : TypeSkeleton :=
  if nullable then t else required t

@[simp] theorem render_unlessNullable (o : Options) (nullable : Bool) (t : TypeSkeleton) :
    (t.unlessNullable nullable).render o = (t.render o).unlessNullable nullable := by
  cases nullable <;> rfl

end TypeSkeleton

namespace Skeleton

def keys : Skeleton → List String
  | type _ fields => fields.filterMap fun field => field.2.key?
  | enumeration .. | union .. => []

def render (o : Options) : Skeleton → Declaration
  | type name fields => .type name (fields.map fun field => (field.1, field.2.render o))
  | enumeration name values => .enumeration name (values.map o.spellValue)
  | union name members => .union name members

end Skeleton

/-! ## Keys do not interfere -/

section
variable {o o' : Options} {k key : String}

theorem Options.HasTable.isObject (h : o.HasTable) : o.scalars.isObject = true := by
  unfold HasTable at h
  cases hs : o.scalars with
  | obj => rfl
  | _ => rw [hs] at h; cases h

theorem Options.HasTable.scalarName_eq (h : o.HasTable) (key : String) :
    o.scalarName key = .ok (o.spell key) := by
  obtain ⟨name, hname⟩ := exists_scalarName h.isObject key
  rw [spell, hname]
  rfl

/-- Refined strings are in the default table, so no other key stands in for theirs. -/
theorem Options.categoryOf_eq_self (h : (Entries.ofList defaultScalars).get? key = none) :
    categoryOf key = key := by
  have hall : ∀ check ∈ Shape.stringChecks, (Entries.ofList defaultScalars).get? check ≠ none := by
    decide
  exact if_neg fun hmem => hall key hmem h

/-- The name of a key is its override, else its name in the default table, else that of its
category. -/
theorem Options.HasTable.spell_eq_override (h : o.HasTable) (key : String) :
    o.spell key = ((o.override? key).or ((Entries.ofList defaultScalars).get? key)).getD
      (.str ((genericScalars.lookup key).getD "String")) := by
  cases hs : o.scalars with
  | obj overrides =>
    have htable : ∀ other, ((Entries.ofList defaultScalars).putAll overrides).get? other =
        (o.override? other).or ((Entries.ofList defaultScalars).get? other) := by
      intro other
      have hover : o.override? other = (Entries.ofList overrides).get? other := by
        rw [override?, hs]
      rw [hover, Entries.get?_putAll, Entries.get?_ofList overrides]
    have hname : o.spell key = ((((Entries.ofList defaultScalars).putAll overrides).get? key).getD
        ((((Entries.ofList defaultScalars).putAll overrides).get? (categoryOf key)).getD
          (.str ((genericScalars.lookup (categoryOf key)).getD "String")))) := by
      unfold spell scalarName resolvedScalars
      rw [hs]
      rfl
    rw [hname, htable, htable]
    cases ho : o.override? key with
    | some name => rfl
    | none =>
      cases hd : (Entries.ofList defaultScalars).get? key with
      | some name => rfl
      | none => rw [categoryOf_eq_self hd, ho, hd]; rfl
  | _ => rw [HasTable, hs] at h; cases h

/-- The name of a key depends on the override of this key only. -/
theorem Options.spell_eq (h : o.HasTable) (h' : o'.HasTable)
    (hkey : o.override? key = o'.override? key) : o.spell key = o'.spell key := by
  rw [h.spell_eq_override, h'.spell_eq_override, hkey]

theorem TypeSkeleton.render_eq (h : o.HasTable) (h' : o'.HasTable)
    (hkeys : ∀ other, other ≠ k → o.override? other = o'.override? other) {t : TypeSkeleton}
    (ht : t.key? ≠ some k) : t.render o = t.render o' := by
  induction t with
  | named => rfl
  | scalar key =>
    have hne : key ≠ k := fun e => ht (congrArg some e)
    exact congrArg TypeExpr.named (Options.spell_eq h h' (hkeys key hne))
  | list t ih => exact congrArg TypeExpr.list (ih ht)
  | required t ih => exact congrArg TypeExpr.required (ih ht)

theorem Skeleton.render_eq (h : o.HasTable) (h' : o'.HasTable)
    (hcase : o.preserveEnumCase = o'.preserveEnumCase)
    (hkeys : ∀ other, other ≠ k → o.override? other = o'.override? other) {d : Skeleton}
    (hd : k ∉ d.keys) : d.render o = d.render o' := by
  cases d with
  | type name fields =>
    rw [render, render]
    congr 1
    refine List.map_congr_left fun field hmem => ?_
    rw [TypeSkeleton.render_eq h h' hkeys fun hk => hd (List.mem_filterMap.2 ⟨field, hmem, hk⟩)]
  | enumeration name values =>
    have hvalue : o.spellValue = o'.spellValue := by
      funext v
      rw [Options.spellValue, Options.spellValue, hcase]
    rw [render, render, hvalue]
  | union => rfl

end

/-! ## Computations whose end is spelled -/

namespace Compiling

variable {α β γ δ : Type}

/-- Inside given lists the computation has one outcome, which the options of a table only spell. -/
def Renders (x : Options → Compiling α) (render : Options → β → α) : Prop :=
  ∃ outcome : List Ref → Except Fault β, ∀ o : Options, o.HasTable →
    (x o).Steady ∧ ∀ w, (x o).ending w = (outcome w.active).map (render o)

namespace Renders

variable {render : Options → β → α} {spell : Options → δ → γ}

theorem pure {y : Options → α} (b : β) (hy : ∀ o, o.HasTable → y o = render o b) :
    Renders (fun o => Pure.pure (y o)) render :=
  ⟨fun _ => .ok b, fun o ho => ⟨.pure _, fun _ => congrArg Except.ok (hy o ho)⟩⟩

theorem throw (f : Fault) : Renders (fun _ => throw f) render :=
  ⟨fun _ => .error f, fun _ _ => ⟨.throw f, fun _ => rfl⟩⟩

theorem throw_bind (f : Fault) (k : Options → δ → Compiling α) :
    Renders (fun o => (MonadExcept.throw f : Compiling δ) >>= k o) render :=
  ⟨fun _ => .error f, fun _ _ => ⟨.throw_bind f _ _, fun _ => rfl⟩⟩

theorem lift {e : Options → Except Fault α} (outcome : Except Fault β)
    (h : ∀ o, o.HasTable → e o = outcome.map (render o)) : Renders (fun o => liftM (e o)) render :=
  ⟨fun _ => outcome, fun o ho => ⟨.lift _, fun _ => (ending_lift _).trans (h o ho)⟩⟩

theorem lift_const (e : Except Fault α) : Renders (fun _ => liftM e) fun _ a => a :=
  lift e fun _ _ => by cases e <;> rfl

theorem bind {x : Options → Compiling α} {k : Options → α → Compiling γ} (hx : Renders x render)
    (hk : ∀ b, Renders (fun o => k o (render o b)) spell)
    (hsteady : ∀ o a, o.HasTable → (k o a).Steady) : Renders (fun o => x o >>= k o) spell := by
  obtain ⟨outcome, hx⟩ := hx
  choose next hk using hk
  refine ⟨fun active => outcome active >>= fun b => next b active, fun o ho => ⟨?_, fun w => ?_⟩⟩
  · exact (hx o ho).1.bind fun a => hsteady o a ho
  · rw [ending_bind (hx o ho).1 fun a => hsteady o a ho, (hx o ho).2]
    dsimp only
    cases outcome w.active with
    | error f => rfl
    | ok b => exact (hk b o ho).2 w

theorem insideList (r : Ref) {x : Options → Compiling α} (hx : Renders x render) :
    Renders (fun o => Compiling.insideList r (x o)) render := by
  obtain ⟨outcome, hx⟩ := hx
  refine ⟨fun active => outcome (r :: active), fun o ho => ⟨.insideList rfl (hx o ho).1, fun w => ?_⟩⟩
  have hend := (hx o ho).2 { w with active := r :: w.active }
  unfold ending Compiling.insideList at *
  dsimp only at hend ⊢
  rw [← hend]
  cases x o { w with active := r :: w.active } <;> rfl

theorem mapFault (g : Fault → Fault) {x : Options → Compiling α} (hx : Renders x render) :
    Renders (fun o => Compiling.mapFault g (x o)) render := by
  obtain ⟨outcome, hx⟩ := hx
  refine ⟨fun active => (outcome active).mapError g, fun o ho => ⟨.mapFault g (hx o ho).1, fun w => ?_⟩⟩
  have hmap : (Compiling.mapFault g (x o)).ending w = ((x o).ending w).mapError g := by
    unfold ending Compiling.mapFault
    cases x o w <;> rfl
  rw [hmap, (hx o ho).2]
  dsimp only
  cases outcome w.active <;> rfl

theorem mapM {x : Options → γ → Compiling α} : ∀ {l : List γ},
    (∀ a ∈ l, Renders (fun o => x o a) render) → (∀ o a, o.HasTable → (x o a).Steady) →
      Renders (fun o => l.mapM (x o)) fun o => List.map (render o)
  | [], _, _ => .pure [] fun _ _ => rfl
  | a :: rest, h, hsteady => by
    obtain ⟨ha, hrest⟩ := List.forall_mem_cons.1 h
    simp only [List.mapM_cons]
    refine ha.bind (fun b => (mapM hrest hsteady).bind
      (fun bs => .pure (b :: bs) fun _ _ => rfl) fun _ _ _ => .pure _)
      fun o c ho => ?_
    exact (Steady.mapM (fun d => hsteady o d ho) rest).bind fun _ => .pure _

end Renders

end Compiling

open Compiling (Renders ending ending_lift)

/-! ## Declarations -/

namespace Context

variable (g : Graph) (registry : Registry)

/-- Unions are classified before the name of their category is looked up. -/
theorem exists_classify_eq (r : Ref) : ∃ outcome : Except Fault TypeSkeleton,
    ∀ o : Options, o.HasTable →
      (Context.classify ⟨g, registry, o⟩ r).map TypeExpr.named =
        outcome.map (TypeSkeleton.render o) := by
  cases hreg : registry.get? r with
  | some name =>
    refine ⟨.ok (.named name), fun o _ => ?_⟩
    rw [classify, hreg]
    rfl
  | none =>
    unfold classify
    dsimp only
    rw [hreg]
    cases hn : g.node? r with
    | none => exact ⟨.error _, fun _ _ => rfl⟩
    | some n =>
      obtain ⟨path, metadata, shape⟩ := n
      cases shape with
      | union variants =>
        dsimp only
        cases variants.isEmpty with
        | true => exact ⟨.error _, fun _ _ => rfl⟩
        | false =>
          cases variants.mapM g.unwrap with
          | error f => exact ⟨.error f, fun _ _ => rfl⟩
          | ok targets =>
            dsimp only [bind, Except.bind]
            cases Category.ofShapes? (targets.map fun t => g.shape? t.1) with
            | some category =>
              refine ⟨.ok (.scalar category.key), fun o ho => ?_⟩
              dsimp only
              rw [ho.scalarName_eq]
              rfl
            | none =>
              dsimp only
              cases (targets.map fun t => g.shape? t.1).all (·.any Shape.isObject) with
              | true => exact ⟨.error _, fun _ _ => rfl⟩
              | false => exact ⟨.error _, fun _ _ => rfl⟩
      | _ => exact ⟨.error _, fun _ _ => rfl⟩

theorem exists_endName_eq (r : Ref) : ∃ outcome : Except Fault TypeSkeleton,
    ∀ o : Options, o.HasTable →
      (Context.endName ⟨g, registry, o⟩ r).map TypeExpr.named =
        outcome.map (TypeSkeleton.render o) := by
  unfold endName
  dsimp only
  cases registry.get? r with
  | some name => exact ⟨.ok (.named name), fun _ _ => rfl⟩
  | none =>
    cases g.shape? r with
    | none => exact ⟨.error _, fun _ _ => rfl⟩
    | some shape =>
      dsimp only
      cases shape.endKey? with
      | some key =>
        refine ⟨.ok (.scalar key), fun o ho => ?_⟩
        dsimp only
        rw [ho.scalarName_eq]
        rfl
      | none => exact exists_classify_eq g registry r

theorem listType_renders {room : Nat}
    (h : ∀ r, Renders (fun o => Context.baseTypeWithin ⟨g, registry, o⟩ room r) TypeSkeleton.render)
    (element : Ref) :
    Renders (fun o => Context.listType ⟨g, registry, o⟩ room element) TypeSkeleton.render := by
  unfold listType
  dsimp only
  refine (Renders.lift_const _).bind (fun inner => ?_) fun o _ _ => ?_
  · refine (h inner.1).bind (fun t => ?_) fun _ _ _ => .pure _
    exact .pure (TypeSkeleton.list (t.unlessNullable inner.2)) fun o _ =>
      congrArg TypeExpr.list (t.render_unlessNullable o inner.2).symm
  · exact (baseTypeWithin_steady _ room _).bind fun _ => .pure _

theorem baseTypeWithin_renders : ∀ (room : Nat) (r : Ref),
    Renders (fun o => Context.baseTypeWithin ⟨g, registry, o⟩ room r) TypeSkeleton.render := by
  intro room r
  have hsteady : ∀ o : Options, (Context.baseTypeWithin ⟨g, registry, o⟩ room r).Steady :=
    fun o => baseTypeWithin_steady _ room r
  -- Whether there is a list to go into is not a matter of the options.
  cases hl : Context.openList? ⟨g, registry, {}⟩ r with
  | none =>
    obtain ⟨outcome, hname⟩ := exists_endName_eq g registry r
    refine ⟨fun _ => outcome, fun o ho => ⟨hsteady o, fun w => ?_⟩⟩
    have hend : Context.openList? ⟨g, registry, o⟩ r = none := hl
    dsimp only
    rw [ending, baseTypeWithin_of_end hend, ← hname o ho]
    cases Context.endName ⟨g, registry, o⟩ r <;> rfl
  | some p =>
    obtain ⟨path, element⟩ := p
    have hlist : ∀ o, Context.openList? ⟨g, registry, o⟩ r = some (path, element) := fun _ => hl
    cases room with
    | zero =>
      refine ⟨fun active => .error (.structural (if r ∈ active then .listCycle path else
        .listTooDeep path)), fun o _ => ⟨hsteady o, fun w => ?_⟩⟩
      dsimp only
      rw [ending, baseTypeWithin_of_list (hlist o)]
      by_cases hactive : r ∈ w.active
      · rw [if_pos hactive, if_pos hactive]
        rfl
      · rw [if_neg hactive, if_neg hactive]
        rfl
    | succ room =>
      obtain ⟨inside, hinside⟩ :=
        (listType_renders g registry (baseTypeWithin_renders room) element).insideList r
      refine ⟨fun active => if r ∈ active then .error (.structural (.listCycle path))
        else if element = none then .error (.structural (.listWithoutElement path))
        else inside active, fun o ho => ⟨hsteady o, fun w => ?_⟩⟩
      dsimp only
      rw [ending, baseTypeWithin_of_list (hlist o)]
      by_cases hactive : r ∈ w.active
      · rw [if_pos hactive, if_pos hactive]
        rfl
      · rw [if_neg hactive, if_neg hactive]
        dsimp only
        by_cases hnone : element = none
        · rw [if_pos hnone, if_pos hnone]
          rfl
        · rw [if_neg hnone, if_neg hnone]
          exact (hinside o ho).2 w

theorem fieldType_renders (r : Ref) :
    Renders (fun o => Context.fieldType ⟨g, registry, o⟩ r) TypeSkeleton.render := by
  unfold fieldType
  dsimp only
  refine (Renders.lift_const _).bind (fun inner => ?_) fun o _ _ => ?_
  · refine (baseTypeWithin_renders g registry maxDepth inner.1).bind (fun t => ?_)
      fun _ _ _ => .pure _
    exact .pure (t.unlessNullable inner.2) fun o _ => (t.render_unlessNullable o inner.2).symm
  · exact (baseTypeWithin_steady _ maxDepth _).bind fun _ => .pure _

theorem declareFields_renders (name : String) (fields : List (String × Ref)) :
    Renders (fun o => Context.declareFields ⟨g, registry, o⟩ name fields)
      fun o => List.map fun field : String × TypeSkeleton => (field.1, field.2.render o) := by
  refine .mapM (fun field _ => ?_) fun o field _ => ?_
  · refine ((fieldType_renders g registry field.2).mapFault _).bind (fun t => ?_) fun _ _ _ => .pure _
    exact .pure (field.1, t) fun _ _ => rfl
  · exact (Compiling.Agree.mapFault _ (fieldType_steady _ _)).bind fun _ => .pure _

theorem unionMembers_eq (o o' : Options) (name : String) : ∀ (index : Nat) (variants : List Ref),
    Context.unionMembers ⟨g, registry, o⟩ name index variants =
      Context.unionMembers ⟨g, registry, o'⟩ name index variants
  | _, [] => rfl
  | index, r :: rest => by
    unfold unionMembers
    rw [unionMembers_eq o o' name (index + 1) rest]

theorem declare_renders (name : String) (r : Ref) :
    Renders (fun o => Context.declare ⟨g, registry, o⟩ name r) Skeleton.render := by
  unfold declare
  dsimp only
  cases g.shape? r with
  | none => exact .throw _
  | some shape =>
    cases shape with
    | object fields =>
      refine (declareFields_renders g registry name fields.toList).bind (fun typed => ?_)
        fun _ _ _ => .pure _
      exact .pure (.type name typed) fun _ _ => rfl
    | enumeration values => exact .pure (.enumeration name values) fun _ _ => rfl
    | union variants =>
      dsimp only
      split
      · exact .throw_bind _ _
      · simp only [unionMembers_eq g registry _ {} name 0 variants]
        refine (Renders.lift_const _).bind (fun members => ?_) fun _ _ _ => .pure _
        exact .pure (.union name members) fun _ _ => rfl
    | _ => exact .throw _

end Context

/-! ## Batches -/

/-- A batch is compiled in one way for all options with the same seed names and the same strictness:
it fails with one fault, or its document is one skeleton, as the options spell it. The name of a key
is the matter of this key alone: an override changes neither a type nor a block that has another one. -/
theorem compileBatch_skeleton (g : Graph) (batch : Batch) (seeds : Seeds) (strict : Json) :
    (∃ outcome : Except Fault (List Skeleton), ∀ o : Options, o.HasTable → o.seeds = seeds →
      o.strict = strict → ∀ w : Walk, w.active = [] →
        (compileBatch g o batch).ending w = outcome.map (List.map (Skeleton.render o))) ∧
    ∀ (o o' : Options) (k : String), o.HasTable → o'.HasTable →
      (∀ key, key ≠ k → o.override? key = o'.override? key) →
        (∀ t : TypeSkeleton, t.key? ≠ some k → t.render o = t.render o') ∧
        (o.preserveEnumCase = o'.preserveEnumCase →
          ∀ d : Skeleton, k ∉ d.keys → d.render o = d.render o') := by
  refine ⟨?_, fun o o' k h h' hkeys => ⟨fun t ht => TypeSkeleton.render_eq h h' hkeys ht,
    fun hcase d hd => Skeleton.render_eq h h' hcase hkeys hd⟩⟩
  -- The names of nodes come from the seeds and the batch.
  have hregistry : ∀ o : Options, o.seeds = seeds →
      o.batchRegistry batch = Options.batchRegistry { seeds } batch := by
    intro o ho
    rw [Options.batchRegistry, Options.batchRegistry, Options.registry, Options.registry, ho]
  cases hr : Options.batchRegistry { seeds } batch with
  | error f =>
    refine ⟨.error f, fun o _ ho _ w _ => ?_⟩
    rw [compileBatch_ending, hregistry o ho, hr]
    rfl
  | ok registry =>
    obtain ⟨blocks, hblocks⟩ := Renders.mapM (l := batch.toList)
      (fun entry _ => Context.declare_renders g registry entry.1 entry.2)
      fun o entry _ => Context.declare_steady ⟨g, registry, o⟩ entry.1 entry.2
    have hrefused : ∀ o : Options, Context.checkReferences ⟨g, registry, o⟩ batch =
        Context.checkReferences ⟨g, registry, {}⟩ batch := fun _ => rfl
    have hdeclared : ∀ o : Options, o.HasTable → ∀ w : Walk, w.active = [] →
        (batch.toList.mapM fun entry =>
          (Context.declare ⟨g, registry, o⟩ entry.1 entry.2).ending w) =
            (blocks []).map (List.map (Skeleton.render o)) := by
      intro o h w hw
      rw [← hw, ← (hblocks o h).2 w, Compiling.ending_mapM]
      exact fun entry => Context.declare_steady ⟨g, registry, o⟩ entry.1 entry.2
    cases hs : strict.isTruthy with
    | false =>
      refine ⟨blocks [], fun o h ho hstrict w hw => ?_⟩
      rw [compileBatch_ending, hregistry o ho, hr, ← hdeclared o h w hw, hstrict, hs]
      rfl
    | true =>
      refine ⟨Context.checkReferences ⟨g, registry, {}⟩ batch >>= fun _ => blocks [],
        fun o h ho hstrict w hw => ?_⟩
      rw [compileBatch_ending, hregistry o ho, hr, hstrict, hs]
      show (Context.checkReferences ⟨g, registry, o⟩ batch >>= fun _ => _) = _
      rw [hrefused, hdeclared o h w hw]
      cases Context.checkReferences ⟨g, registry, {}⟩ batch <;> rfl

/-- An object with an identifier, a text and an enum, and the enum as a declaration of its own. -/
def spelledGraph : Graph := ⟨#[
  ⟨"", [], .object (.ofList [("id", some 1), ("label", some 2), ("size", some 3)])⟩,
  ⟨"", [], .uuid⟩, ⟨"", [], .string⟩, ⟨"", [], .enumeration [.str "small"]⟩]⟩

def spelledBatch : Batch := .ofList [("Item", some 0), ("Size", some 3)]

/-- Options with another name for plain texts, which leave enum values as they are. -/
def respelled : Options :=
  { scalars := .obj [("string", .str "Text")], preserveEnumCase := .bool true }

/-- The identifier is a text, too, and keeps its name. -/
theorem compileBatch_skeleton_respelled : ∃ blocks : List Skeleton,
    (compileBatch spelledGraph {} spelledBatch).ending {} = .ok (blocks.map (Skeleton.render {})) ∧
    (compileBatch spelledGraph respelled spelledBatch).ending {} =
      .ok (blocks.map (Skeleton.render respelled)) ∧
    Document.text (blocks.map (Skeleton.render respelled)) =
      "type Item \x7b\n  id: UUID!\n  label: Text!\n  size: Size!\n\x7d\n\nenum Size \x7b\n  small\n\x7d" ∧
    (TypeSkeleton.scalar "uuid").render {} = (TypeSkeleton.scalar "uuid").render respelled := by
  obtain ⟨⟨outcome, hall⟩, hkeys⟩ := compileBatch_skeleton spelledGraph spelledBatch .none (.bool false)
  have h := hall {} rfl rfl rfl {} rfl
  have h' := hall respelled rfl rfl rfl {} rfl
  have hagree : ∀ key, key ≠ "string" →
      ({} : Options).override? key = respelled.override? key := by
    intro key hkey
    rw [show respelled.override? key = (Entries.ofList [("string", Json.str "Text")]).get? key from rfl,
      Entries.get?_ofList, List.reverse_singleton, Entries.lookup_cons_ite, if_neg hkey]
    rfl
  have htext : ((compileBatch spelledGraph respelled spelledBatch).ending {}).map Document.text =
      .ok "type Item \x7b\n  id: UUID!\n  label: Text!\n  size: Size!\n\x7d\n\nenum Size \x7b\n  small\n\x7d" := by
    decide +kernel
  cases outcome with
  | error f => rw [h'] at htext; cases htext
  | ok blocks =>
    rw [h'] at htext
    exact ⟨blocks, h, h', Except.ok.inj htext,
      (hkeys {} respelled "string" rfl rfl hagree).1 _ (by decide)⟩

end ShapeSdl
