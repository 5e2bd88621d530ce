import ShapeSdl.Schema.Document
import ShapeSdl.Proofs.Alike

/-!
# What compiling sees of a graph

Compiling asks a graph for its shapes and the registry for names, and for nothing else. Two graphs
whose nodes are alike, and have the same names, give the same declarations.

* `Compiling.Agree` : two computations end in the same way whenever they walk through related lists;
* `Context.Twins R cx cx'` : nodes related by `R` are alike and have the same name;
* `Context.Twins.unwrap`, `Context.Twins.fieldType_agree`, `Context.Twins.declare_agree` : they are
  unwrapped alike, resolved alike and declared alike;
* `Context.Same` : two contexts that agree in the nodes, their names, the scalar table and how enum
  values are written. The order in which nodes were registered and the other options have no part in
  what is declared and refused (`Context.Same.declare_eq`, `Context.Same.checkField_eq`).
-/

namespace ShapeSdl

/-! ## Computations that agree -/

/-- The same end, and all lists that were entered have been left. What has been logged may differ. -/
inductive SameEnd (active active' : List Ref) {α : Type} :
    EStateM.Result Fault Walk α → EStateM.Result Fault Walk α → Prop
  | ok {a w w'} (left : w.active = active) (right : w'.active = active') :
      SameEnd active active' (.ok a w) (.ok a w')
  | error {f w w'} (left : w.active = active) (right : w'.active = active') :
      SameEnd active active' (.error f w) (.error f w')

namespace Compiling

/-- Two computations end in the same way whenever they are inside related lists. -/
def Agree (V : Ref → Ref → Prop) {α : Type} (x y : Compiling α) : Prop :=
  ∀ w w' : Walk, List.Forall₂ V w.active w'.active → SameEnd w.active w'.active (x w) (y w')

variable {V : Ref → Ref → Prop} {α β : Type} {x y : Compiling α}

theorem Agree.pure (a : α) : Agree V (pure a) (pure a) := fun _ _ _ => .ok rfl rfl

theorem Agree.throw (f : Fault) : Agree V (throw f : Compiling α) (throw f) :=
  fun _ _ _ => .error rfl rfl

theorem Agree.throw_bind (f : Fault) (k k' : α → Compiling β) :
    Agree V ((MonadExcept.throw f : Compiling α) >>= k) (MonadExcept.throw f >>= k') :=
  fun _ _ _ => .error rfl rfl

theorem Agree.lift (e : Except Fault α) : Agree V (liftM e) (liftM e) := by
  intro w w' _
  cases e with
  | error f => exact .error rfl rfl
  | ok a => exact .ok rfl rfl

theorem Agree.emit (e : Event) : Agree V (Compiling.emit e) (Compiling.emit e) :=
  fun _ _ _ => .ok rfl rfl

theorem Agree.bind {f g : α → Compiling β} (h : Agree V x y) (hf : ∀ a, Agree V (f a) (g a)) :
    Agree V (x >>= f) (y >>= g) := by
  intro w w' hw
  show SameEnd w.active w'.active (EStateM.bind x f w) (EStateM.bind y g w')
  have hxy := h w w' hw
  unfold EStateM.bind
  generalize x w = r at hxy ⊢
  generalize y w' = r' at hxy ⊢
  cases hxy with
  | @ok a u u' left right =>
    have hfg := hf a u u'
    rw [left, right] at hfg
    exact hfg hw
  | error left right => exact .error left right

theorem Agree.insideList {r r' : Ref} (hr : V r r') (h : Agree V x y) :
    Agree V (Compiling.insideList r x) (Compiling.insideList r' y) := by
  intro w w' hw
  have hxy := h { w with active := r :: w.active } { w' with active := r' :: w'.active } (.cons hr hw)
  unfold Compiling.insideList
  generalize x { w with active := r :: w.active } = a at hxy ⊢
  generalize y { w' with active := r' :: w'.active } = b at hxy ⊢
  cases hxy with
  | ok left right => exact .ok (congrArg List.tail left) (congrArg List.tail right)
  | error left right => exact .error (congrArg List.tail left) (congrArg List.tail right)

theorem Agree.mapFault (f : Fault → Fault) (h : Agree V x y) :
    Agree V (Compiling.mapFault f x) (Compiling.mapFault f y) := by
  intro w w' hw
  have hxy := h w w' hw
  unfold Compiling.mapFault
  generalize x w = a at hxy ⊢
  generalize y w' = b at hxy ⊢
  cases hxy with
  | ok left right => exact .ok left right
  | error left right => exact .error left right

theorem Agree.mapM {γ δ : Type} {f : γ → Compiling α} {g : δ → Compiling α} {P : γ → δ → Prop}
    {l : List γ} {l' : List δ} (hl : List.Forall₂ P l l')
    (hfg : ∀ a b, P a b → Agree V (f a) (g b)) : Agree V (l.mapM f) (l'.mapM g) := by
  induction hl with
  | nil => exact .pure []
  | cons hab _ ih =>
    rw [List.mapM_cons, List.mapM_cons]
    exact (hfg _ _ hab).bind fun a => ih.bind fun as => .pure (a :: as)

end Compiling

/-! ## Shapes that cannot be told apart -/

section
variable {R : NodeId → NodeId → Prop} {F : Entries String Ref → Entries String Ref → Prop}
  {shapes shapes' : List (Option Shape)}

theorem Shape.Alike.all_eq {p : Shape → Bool} (hp : ∀ a b : Shape, a.Alike R F b → p a = p b)
    (h : List.Forall₂ (Option.Rel (Shape.Alike R F)) shapes shapes') :
    shapes.all (·.any p) = shapes'.all (·.any p) := by
  induction h with
  | nil => rfl
  | cons hab _ ih =>
    rw [List.all_cons, List.all_cons, ih]
    cases hab with
    | some hab => rw [Option.any_some, Option.any_some, hp _ _ hab]
    | none => rfl

theorem Category.ofShapes?_eq (h : List.Forall₂ (Option.Rel (Shape.Alike R F)) shapes shapes') :
    ofShapes? shapes = ofShapes? shapes' := by
  have hstring := Shape.Alike.all_eq (p := Shape.isStringLike) (fun _ _ h => by cases h <;> rfl) h
  have hnumber := Shape.Alike.all_eq (p := Shape.isNumberLike) (fun _ _ h => by cases h <;> rfl) h
  have hwhole := Shape.Alike.all_eq (p := Shape.isWhole) (fun _ _ h => by cases h <;> rfl) h
  have hboolean := Shape.Alike.all_eq (p := Shape.isBooleanLike) (fun _ _ h => by cases h <;> rfl) h
  rw [ofShapes?, ofShapes?, hstring, hnumber, hwhole, hboolean]

end

/-! ## Resolving that agrees -/

namespace Context

variable {V : Ref → Ref → Prop} {cx cx' : Context} {room : Nat} {r r' element element' : Ref}
  {path : String}

theorem agree_of_end (hl : cx.openList? r = none) (hl' : cx'.openList? r' = none)
    (hname : cx.endName r = cx'.endName r') :
    Compiling.Agree V (cx.baseTypeWithin room r) (cx'.baseTypeWithin room r') := by
  intro w w' _
  rw [baseTypeWithin_of_end hl, baseTypeWithin_of_end hl', hname]
  cases cx'.endName r' with
  | ok name => exact .ok rfl rfl
  | error f => exact .error rfl rfl

/-- Lists that are met again alike, and agree inside. -/
theorem agree_of_list (hl : cx.openList? r = some (path, element))
    (hl' : cx'.openList? r' = some (path, element')) (hr : V r r')
    (hnone : element = none ↔ element' = none)
    (hmem : ∀ {l l' : List Ref}, List.Forall₂ V l l' → (r ∈ l ↔ r' ∈ l'))
    (inside : ∀ rest, room = rest + 1 →
      Compiling.Agree V (cx.listType rest element) (cx'.listType rest element')) :
    Compiling.Agree V (cx.baseTypeWithin room r) (cx'.baseTypeWithin room r') := by
  intro w w' hw
  rw [baseTypeWithin_of_list hl, baseTypeWithin_of_list hl']
  simp only [hmem hw, hnone]
  split
  · exact .error rfl rfl
  · cases room with
    | zero => exact .error rfl rfl
    | succ rest =>
      dsimp only
      split
      · exact .error rfl rfl
      · exact Compiling.Agree.insideList hr (inside rest rfl) w w' hw

end Context

/-! ## Contexts that cannot be told apart -/

/-- Nodes related by `R` are alike and have the same name, and no node is related to two. -/
structure Context.Twins (R : NodeId → NodeId → Prop) (cx cx' : Context) : Prop where
  alike : ∀ i j, R i j → cx.graph.Alike R (fun _ _ => True) cx'.graph i j
  unique : Relator.BiUnique R
  name : ∀ i j, R i j → cx.registry.get? (some i) = cx'.registry.get? (some j)
  options : cx.options = cx'.options

namespace Context.Twins

variable {R : NodeId → NodeId → Prop} {cx cx' : Context} {i j : NodeId}

theorem unique_ref (T : Twins R cx cx') : Relator.BiUnique (Ref.Rel R) := by
  constructor
  · intro a b c hac hbc
    cases hac with
    | some hac => cases hbc with | some hbc => rw [T.unique.1 hac hbc]
  · intro a b c hab hac
    cases hab with
    | some hab => cases hac with | some hac => rw [T.unique.2 hab hac]

theorem unwrapWithin (T : Twins R cx cx') : ∀ (room : Nat) {seen seen' : List Ref} (nullable : Bool)
    {i j : NodeId}, List.Forall₂ (Ref.Rel R) seen seen' → R i j →
      (∃ f, cx.graph.unwrapWithin room seen nullable (some i) = .error f ∧
        cx'.graph.unwrapWithin room seen' nullable (some j) = .error f) ∨
      ∃ a b n, cx.graph.unwrapWithin room seen nullable (some i) = .ok (some a, n) ∧
        cx'.graph.unwrapWithin room seen' nullable (some j) = .ok (some b, n) ∧ R a b := by
  intro room seen seen' nullable i j hseen h
  obtain ⟨path, metadata, a, b, ha, hb, hab⟩ := T.alike i j h
  unfold Graph.unwrapWithin
  rw [ha, hb]
  cases hab with
  | leaf isLeaf => cases a <;> first | exact .inr ⟨i, j, nullable, rfl, rfl, h⟩ | cases isLeaf
  | list | union | object => exact .inr ⟨i, j, nullable, rfl, rfl, h⟩
  | wrapper inside =>
    dsimp only
    by_cases hi : some i ∈ seen
    · rw [if_pos hi, if_pos ((List.rel_mem T.unique_ref (.some h) hseen).1 hi)]
      exact .inl ⟨_, rfl, rfl⟩
    · rw [if_neg hi, if_neg (mt (List.rel_mem T.unique_ref (.some h) hseen).2 hi)]
      cases room with
      | zero => exact .inl ⟨_, rfl, rfl⟩
      | succ room =>
        exact T.unwrapWithin room _ (.cons (.some h) hseen) inside

theorem unwrap (T : Twins R cx cx') (h : R i j) :
    (∃ f, cx.graph.unwrap (some i) = .error f ∧ cx'.graph.unwrap (some j) = .error f) ∨
      ∃ a b n, cx.graph.unwrap (some i) = .ok (some a, n) ∧
        cx'.graph.unwrap (some j) = .ok (some b, n) ∧ R a b :=
  T.unwrapWithin maxDepth false .nil h

theorem unwrapAll (T : Twins R cx cx') {is js : List NodeId} (h : List.Forall₂ R is js) :
    (∃ f, (is.map some).mapM cx.graph.unwrap = .error f ∧
      (js.map some).mapM cx'.graph.unwrap = .error f) ∨
    ∃ ts ts', (is.map some).mapM cx.graph.unwrap = .ok ts ∧
      (js.map some).mapM cx'.graph.unwrap = .ok ts' ∧
      List.Forall₂ (Option.Rel (Shape.Alike R fun _ _ => True))
        (ts.map fun t => cx.graph.shape? t.1) (ts'.map fun t => cx'.graph.shape? t.1) := by
  induction h with
  | nil => exact .inr ⟨[], [], rfl, rfl, .nil⟩
  | cons hij _ ih =>
    simp only [List.map_cons, List.mapM_cons]
    rcases T.unwrap hij with ⟨f, hf, hf'⟩ | ⟨a, b, n, ha, hb, hab⟩
    · exact .inl ⟨f, by rw [hf]; rfl, by rw [hf']; rfl⟩
    · rcases ih with ⟨f, hf, hf'⟩ | ⟨ts, ts', hts, hts', hall⟩
      · exact .inl ⟨f, by rw [ha, hf]; rfl, by rw [hb, hf']; rfl⟩
      · refine .inr ⟨(some a, n) :: ts, (some b, n) :: ts', by rw [ha, hts]; rfl,
          by rw [hb, hts']; rfl, .cons ?_ hall⟩
        obtain ⟨path, metadata, x, y, hx, hy, hxy⟩ := T.alike a b hab
        show Option.Rel _ (cx.graph.shape? (some a)) (cx'.graph.shape? (some b))
        rw [Graph.shape?, hx, Graph.shape?, hy]
        exact .some hxy

theorem classify_eq (T : Twins R cx cx') (h : R i j) :
    cx.classify (some i) = cx'.classify (some j) := by
  obtain ⟨path, metadata, a, b, ha, hb, hab⟩ := T.alike i j h
  unfold Context.classify
  rw [T.name i j h, ha, hb, T.options]
  cases cx'.registry.get? (some j) with
  | some name => rfl
  | none =>
    cases hab with
    | leaf isLeaf => cases a <;> first | rfl | cases isLeaf
    | wrapper | list | object => rfl
    | @union is js inside =>
      have he : is.isEmpty = js.isEmpty := by cases inside <;> rfl
      dsimp only
      rw [List.isEmpty_map, List.isEmpty_map, he]
      split
      · rfl
      · rcases T.unwrapAll inside with ⟨f, hf, hf'⟩ | ⟨ts, ts', hts, hts', hall⟩
        · rw [hf, hf']
          rfl
        · rw [hts, hts']
          dsimp only [bind, Except.bind]
          rw [Category.ofShapes?_eq hall,
            Shape.Alike.all_eq (p := Shape.isObject) (fun _ _ h => by cases h <;> rfl) hall]

theorem agree_unwrap (T : Twins R cx cx') (h : R i j) {α : Type} {f g : Ref × Bool → Compiling α}
    (hfg : ∀ a b n, R a b → Compiling.Agree (Ref.Rel R) (f (some a, n)) (g (some b, n))) :
    Compiling.Agree (Ref.Rel R) (liftM (cx.graph.unwrap (some i)) >>= f)
      (liftM (cx'.graph.unwrap (some j)) >>= g) := by
  rcases T.unwrap h with ⟨e, he, he'⟩ | ⟨a, b, n, ha, hb, hab⟩
  · rw [he, he']
    exact fun _ _ _ => .error rfl rfl
  · rw [ha, hb]
    exact hfg a b n hab

theorem endName_eq (T : Twins R cx cx') (h : R i j) :
    cx.endName (some i) = cx'.endName (some j) := by
  obtain ⟨path, metadata, a, b, ha, hb, hab⟩ := T.alike i j h
  unfold Context.endName Graph.shape?
  rw [T.name i j h, ha, hb, T.options, T.classify_eq h, Option.map_some, Option.map_some]
  cases hab <;> rfl

theorem openList?_cases (T : Twins R cx cx') (h : R i j) :
    (cx.openList? (some i) = none ∧ cx'.openList? (some j) = none) ∨
      ∃ path a b, cx.openList? (some i) = some (path, some a) ∧
        cx'.openList? (some j) = some (path, some b) ∧ R a b := by
  obtain ⟨path, metadata, a, b, ha, hb, hab⟩ := T.alike i j h
  unfold Context.openList?
  rw [T.name i j h, ha, hb]
  cases cx'.registry.get? (some j) with
  | some name => exact .inl ⟨rfl, rfl⟩
  | none =>
    cases hab with
    | list inside => exact .inr ⟨path, _, _, rfl, rfl, inside⟩
    | leaf isLeaf => cases a <;> first | exact .inl ⟨rfl, rfl⟩ | cases isLeaf
    | _ => exact .inl ⟨rfl, rfl⟩

theorem baseTypeWithin_agree (T : Twins R cx cx') (room : Nat) {i j : NodeId} (h : R i j) :
    Compiling.Agree (Ref.Rel R) (cx.baseTypeWithin room (some i))
      (cx'.baseTypeWithin room (some j)) := by
  rcases T.openList?_cases h with ⟨hl, hl'⟩ | ⟨path, a, b, hl, hl', inside⟩
  · exact Context.agree_of_end hl hl' (T.endName_eq h)
  · refine Context.agree_of_list hl hl' (.some h) (iff_of_false nofun nofun)
      (fun hw => List.rel_mem T.unique_ref (.some h) hw) ?_
    rintro rest rfl
    refine T.agree_unwrap inside fun a b n hab => ?_
    exact (T.baseTypeWithin_agree rest hab).bind fun _ => .pure _

theorem fieldType_agree (T : Twins R cx cx') (h : R i j) :
    Compiling.Agree (Ref.Rel R) (cx.fieldType (some i)) (cx'.fieldType (some j)) := by
  unfold Context.fieldType
  apply T.agree_unwrap h
  intro a b n hab
  exact (T.baseTypeWithin_agree maxDepth hab).bind fun _ => .pure _

theorem declareFields_agree (T : Twins R cx cx') (name : String) {fields fields' : Entries String Ref}
    (h : Entries.Related (Ref.Rel R) fields fields') :
    Compiling.Agree (Ref.Rel R) (cx.declareFields name fields.toList)
      (cx'.declareFields name fields'.toList) := by
  apply Compiling.Agree.mapM h
  intro p q hpq
  obtain ⟨field, r⟩ := p
  obtain ⟨_, r'⟩ := q
  obtain ⟨rfl, hr⟩ := hpq
  refine Compiling.Agree.bind (.mapFault _ ?_) fun _ => .pure _
  cases hr with
  | some h => exact T.fieldType_agree h

theorem unionMembers_eq (T : Twins R cx cx') (name : String) {is js : List NodeId}
    (h : List.Forall₂ R is js) : ∀ index, cx.unionMembers name index (is.map some) =
      cx'.unionMembers name index (js.map some) := by
  induction h with
  | nil => exact fun _ => rfl
  | cons hij _ ih =>
    intro index
    simp only [List.map_cons, Context.unionMembers]
    rw [T.name _ _ hij, (T.alike _ _ hij).isObject_eq, (T.alike _ _ hij).kindName_eq, ih]

theorem declare_agree (T : Twins R cx cx') (name : String) (h : R i j)
    (hf : Entries.Related (Ref.Rel R) (cx.graph.fields (some i)) (cx'.graph.fields (some j))) :
    Compiling.Agree (Ref.Rel R) (cx.declare name (some i)) (cx'.declare name (some j)) := by
  obtain ⟨path, metadata, a, b, ha, hb, hab⟩ := T.alike i j h
  have ha' : cx.graph.shape? (some i) = some a := by rw [Graph.shape?, ha]; rfl
  have hb' : cx'.graph.shape? (some j) = some b := by rw [Graph.shape?, hb]; rfl
  rw [Graph.fields, Graph.fields, ha', hb'] at hf
  unfold Context.declare
  rw [ha', hb', (T.alike i j h).kindName_eq]
  cases hab with
  | leaf isLeaf =>
    cases a with
    | enumeration values =>
      have hv : cx.enumValue = cx'.enumValue := by
        funext v
        rw [Context.enumValue, Context.enumValue, T.options]
      dsimp only
      rw [hv]
      exact .pure _
    | scalar | literal => exact .throw _
    | _ => cases isLeaf
  | wrapper | list => exact .throw _
  | object => exact (T.declareFields_agree name hf).bind fun _ => .pure _
  | @union is js inside =>
    have he : is.isEmpty = js.isEmpty := by cases inside <;> rfl
    dsimp only
    rw [List.isEmpty_map, List.isEmpty_map, he, T.unionMembers_eq name inside]
    split
    · exact .throw_bind _ _ _
    · exact (Compiling.Agree.lift _).bind fun _ => .pure _

end Context.Twins

/-! ## What a declaration depends on -/

namespace Context

/-- Two contexts in which nodes have the same names, and scalars and enum values are written alike. -/
structure Same (cx cx' : Context) : Prop where
  graph : cx.graph = cx'.graph
  entries : ∀ r, cx.registry.entries.get? r = cx'.registry.entries.get? r
  scalars : cx.options.scalars = cx'.options.scalars
  preserveEnumCase : cx.options.preserveEnumCase = cx'.options.preserveEnumCase

namespace Same

variable {cx cx' : Context}

theorem get?_eq (S : Same cx cx') (r : Ref) : cx.registry.get? r = cx'.registry.get? r := by
  unfold Registry.get?
  rw [S.entries]

theorem contains_eq (S : Same cx cx') (r : Ref) :
    cx.registry.contains r = cx'.registry.contains r := by
  unfold Registry.contains Entries.contains
  rw [S.entries]

theorem scalarName_eq (S : Same cx cx') (key : String) :
    cx.options.scalarName key = cx'.options.scalarName key := by
  unfold Options.scalarName Options.resolvedScalars
  rw [S.scalars]

theorem classify_eq (S : Same cx cx') (r : Ref) : cx.classify r = cx'.classify r := by
  unfold classify
  simp only [S.get?_eq, S.graph, S.scalarName_eq]

theorem baseTypeWithin_eq (S : Same cx cx') : ∀ (room : Nat) (r : Ref),
    cx.baseTypeWithin room r = cx'.baseTypeWithin room r
  | 0, r => by
    unfold baseTypeWithin
    simp only [S.get?_eq, S.graph, S.scalarName_eq, S.classify_eq]
  | room + 1, r => by
    unfold baseTypeWithin
    simp only [S.get?_eq, S.graph, S.scalarName_eq, S.classify_eq, S.baseTypeWithin_eq room]

theorem fieldType_eq (S : Same cx cx') (r : Ref) : cx.fieldType r = cx'.fieldType r := by
  unfold fieldType baseType
  simp only [S.graph, S.baseTypeWithin_eq]

theorem unionMembers_eq (S : Same cx cx') (name : String) : ∀ (index : Nat) (variants : List Ref),
    cx.unionMembers name index variants = cx'.unionMembers name index variants
  | _, [] => rfl
  | index, r :: rest => by
    unfold unionMembers
    rw [S.get?_eq, S.graph, S.unionMembers_eq name (index + 1) rest]

theorem declare_eq (S : Same cx cx') (name : String) (r : Ref) :
    cx.declare name r = cx'.declare name r := by
  unfold declare declareFields enumValue
  simp only [S.graph, S.preserveEnumCase, S.fieldType_eq, S.unionMembers_eq]

theorem checkField_eq (S : Same cx cx') (type : String) (field : String × Ref) :
    cx.checkField type field = cx'.checkField type field := by
  unfold checkField
  simp only [S.graph, S.contains_eq]

end Same

end Context

end ShapeSdl
