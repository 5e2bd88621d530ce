import ShapeSdl.Proofs.Levels

/-!
# Categories of unions

A union without a name is written as what its variants have in common. The order in which the
categories are tried does not matter, since no shape is of two of them.

* `Shape.category?` : the category of one shape. It decides which of the tests for a category the
  shape passes (`Shape.like_iff`);
* `Category.Applies c shapes` : all shapes are of the category `c`, and there is one
  (`Category.ofShapes?_eq_some_iff`). No two categories apply (`Category.Applies.unique`), and some
  of the shapes are of the same category, or whole where all of them are not
  (`Category.Applies.of_subset`);
* `Graph.Holds g r shape` : what is inside the wrappers around `r` has this shape. A wrapper more does
  not change it (`Graph.holds_wrapper_iff`);
* `Context.IsUnionOf cx r shapes` : `r` is a union without a name with these shapes inside the
  wrappers around its variants;
* `Context.classify_by_shapes` : a union is classified by the set of these shapes, and with a variant
  less in the same way or as a whole number.
-/

namespace ShapeSdl

/-! ## The category of a shape -/

namespace Shape

/-- The category of a shape, if it has one. Refined strings have none. -/
def category? : Shape → Option Category
  | scalar base checks =>
    if base = "string" then if subtype base checks = "string" then some .string else none
    else if base = "number" then if wholeCheck ∈ checks then some .int else some .float
    else if base = "boolean" then some .boolean
    else none
  | enumeration _ => some .string
  | literal (.str _) => some .string
  | literal (.int _) => some .int
  | literal (.float x) => if x.isIntegral then some .int else some .float
  | literal (.bool _) => some .boolean
  | _ => none

/-- A shape passes the test for strings, for numbers or for booleans if it is of such a category. -/
theorem like_iff (s : Shape) : (s.isStringLike = true ↔ s.category? = some .string) ∧
    (s.isNumberLike = true ↔ s.category? = some .int ∨ s.category? = some .float) ∧
      (s.isBooleanLike = true ↔ s.category? = some .boolean) := by
  cases s with
  | scalar base checks =>
    by_cases hstring : base = "string"
    · simp [isStringLike, isNumberLike, isBooleanLike, category?, hstring]
    by_cases hnumber : base = "number"
    · by_cases hwhole : wholeCheck ∈ checks <;>
        simp [isStringLike, isNumberLike, isBooleanLike, category?, subtype, hnumber, hwhole]
    by_cases hboolean : base = "boolean" <;>
      simp [isStringLike, isNumberLike, isBooleanLike, category?, subtype, hstring, hnumber, hboolean]
  | literal value =>
    cases value with
    | float x =>
      by_cases hx : x.isIntegral = true <;>
        simp [isStringLike, isNumberLike, isBooleanLike, category?, Json.category, hx]
    | _ => simp [isStringLike, isNumberLike, isBooleanLike, category?, Json.category]
  | _ => simp [isStringLike, isNumberLike, isBooleanLike, category?]

end Shape

/-! ## The category of several shapes -/

namespace Category

/-- All shapes are of this category, and there is one. Numbers that are not all whole are of one
category together with those that are. -/
def Applies (c : Category) (shapes : List (Option Shape)) : Prop :=
  shapes ≠ [] ∧ match c with
    | string => ∀ s ∈ shapes, s.any Shape.isStringLike = true
    | int => ∀ s ∈ shapes, s.any Shape.isNumberLike = true ∧ s.any Shape.isWhole = true
    | float => (∀ s ∈ shapes, s.any Shape.isNumberLike = true) ∧
        ∃ s ∈ shapes, s.any Shape.isWhole ≠ true
    | boolean => ∀ s ∈ shapes, s.any Shape.isBooleanLike = true

variable {c c' : Category} {shapes shapes' : List (Option Shape)}

theorem not_all_of_excludes {p q : Shape → Bool} (hpq : ∀ s : Shape, p s = true → q s ≠ true)
    (hne : shapes ≠ []) (h : ∀ s ∈ shapes, s.any p = true) : shapes.all (·.any q) ≠ true := by
  obtain ⟨s, hs⟩ := List.exists_mem_of_ne_nil shapes hne
  intro hall
  obtain ⟨shape, rfl, hp⟩ := (Option.any_eq_true _ _).1 (h s hs)
  exact hpq shape hp (List.all_eq_true.1 hall _ hs)

theorem not_all_isStringLike (hne : shapes ≠ [])
    (h : ∀ s ∈ shapes, s.any Shape.isNumberLike = true) :
    shapes.all (·.any Shape.isStringLike) ≠ true := by
  refine not_all_of_excludes (fun s hnumber hstring => ?_) hne h
  rw [s.like_iff.1] at hstring
  rw [s.like_iff.2.1, hstring] at hnumber
  rcases hnumber with hnumber | hnumber <;> cases hnumber

/-- The category that is found is the one that applies, in whichever order they are tried. -/
theorem ofShapes?_eq_some_iff (hne : shapes ≠ []) :
    ofShapes? shapes = some c ↔ c.Applies shapes := by
  unfold ofShapes?
  constructor
  · intro h
    refine ⟨hne, ?_⟩
    split at h
    · cases h
      exact List.all_eq_true.1 ‹_›
    split at h
    · have hnumber := List.all_eq_true.1 ‹shapes.all (·.any Shape.isNumberLike) = true›
      split at h
      · cases h
        exact fun s hs => ⟨hnumber s hs, List.all_eq_true.1 ‹_› s hs⟩
      · cases h
        exact ⟨hnumber, List.all_eq_false.1 (eq_false_of_ne_true ‹_›)⟩
    split at h
    · cases h
      exact List.all_eq_true.1 ‹_›
    · cases h
  · rintro ⟨-, h⟩
    cases c with
    | string => rw [if_pos (List.all_eq_true.2 h)]
    | int =>
      have hnumber := fun s hs => (h s hs).1
      have hwhole := fun s hs => (h s hs).2
      rw [if_neg (not_all_isStringLike hne hnumber), if_pos (List.all_eq_true.2 hnumber),
        if_pos (List.all_eq_true.2 hwhole)]
    | float =>
      obtain ⟨hnumber, hwhole⟩ := h
      rw [if_neg (not_all_isStringLike hne hnumber), if_pos (List.all_eq_true.2 hnumber),
        if_neg (ne_true_of_eq_false (List.all_eq_false.2 hwhole))]
    | boolean =>
      have hstring := not_all_of_excludes (q := Shape.isStringLike) (fun s hb hs => by
        rw [s.like_iff.2.2, s.like_iff.1.1 hs] at hb
        cases hb) hne h
      have hnumber := not_all_of_excludes (q := Shape.isNumberLike) (fun s hb hn => by
        rw [s.like_iff.2.1, s.like_iff.2.2.1 hb] at hn
        rcases hn with hn | hn <;> cases hn) hne h
      rw [if_neg hstring, if_neg hnumber, if_pos (List.all_eq_true.2 h)]

theorem Applies.unique (h : c.Applies shapes) (h' : c'.Applies shapes) : c = c' := by
  have hfound := (ofShapes?_eq_some_iff h.1).2 h
  exact Option.some.inj (hfound.symm.trans ((ofShapes?_eq_some_iff h.1).2 h'))

/-- What applies depends on the set of shapes only. -/
theorem Applies.congr (hset : ∀ s, s ∈ shapes ↔ s ∈ shapes') (h : c.Applies shapes) :
    c.Applies shapes' := by
  obtain ⟨hne, h⟩ := h
  constructor
  · obtain ⟨s, hs⟩ := List.exists_mem_of_ne_nil shapes hne
    exact List.ne_nil_of_mem ((hset s).1 hs)
  · cases c <;> simpa only [hset] using h

/-- Some of the shapes are of the same category, or whole where all of them are not. -/
theorem Applies.of_subset (hne : shapes' ≠ []) (hsub : shapes' ⊆ shapes) (h : c.Applies shapes) :
    ∃ c' : Category, c'.Applies shapes' ∧ (c' = c ∨ c' = int ∧ c = float) := by
  obtain ⟨-, h⟩ := h
  cases c with
  | string => exact ⟨string, ⟨hne, fun s hs => h s (hsub hs)⟩, .inl rfl⟩
  | int => exact ⟨int, ⟨hne, fun s hs => h s (hsub hs)⟩, .inl rfl⟩
  | boolean => exact ⟨boolean, ⟨hne, fun s hs => h s (hsub hs)⟩, .inl rfl⟩
  | float =>
    have hnumber := fun s hs => h.1 s (hsub hs)
    by_cases hwhole : ∀ s ∈ shapes', s.any Shape.isWhole = true
    · exact ⟨int, ⟨hne, fun s hs => ⟨hnumber s hs, hwhole s hs⟩⟩, .inr ⟨rfl, rfl⟩⟩
    · push Not at hwhole
      exact ⟨float, ⟨hne, hnumber, hwhole⟩, .inl rfl⟩

end Category

/-! ## Unions -/

/-- What is inside the wrappers around `r` has this shape. -/
def Graph.Holds (g : Graph) (r : Ref) (shape : Option Shape) : Prop :=
  ∃ e nullable, g.unwrap r = .ok (e, nullable) ∧ g.shape? e = shape

/-- One wrapper more or less makes no difference, as long as all of them can be taken off. -/
theorem Graph.holds_wrapper_iff {g : Graph} {r inner : Ref} {kind : WrapperKind} {value : Json}
    {result : Ref × Bool} {shape : Option Shape}
    (node : g.shape? r = some (.wrapper kind inner value)) (hr : g.unwrap r = .ok result) :
    g.Holds r shape ↔ g.Holds inner shape := by
  have hne : r ≠ none := by
    rintro rfl
    cases node
  obtain ⟨e, nullable⟩ := result
  obtain ⟨he, _, wraps, hlen, rfl⟩ := (unwrap_eq_ok_iff hne).1 hr
  cases wraps with
  | here bare => cases bare.symm.trans (isWrapper_of_shape? node)
  | wrapper node' onward =>
    cases node.symm.trans node'
    have hinner : inner ≠ none := by
      rintro rfl
      exact he onward.eq_none
    have hin := (unwrap_eq_ok_iff hinner).2 ⟨he, _, onward, Nat.le_of_succ_le hlen, rfl⟩
    unfold Holds
    rw [hr, hin]
    simp

namespace Context

/-- `r` is a union without a name, and these are the shapes inside the wrappers around its
variants, in order. -/
def IsUnionOf (cx : Context) (r : Ref) (shapes : List (Option Shape)) : Prop :=
  cx.registry.get? r = none ∧ ∃ variants, cx.graph.shape? r = some (.union variants) ∧
    List.Forall₂ cx.graph.Holds variants shapes

variable {cx cx' : Context} {r r' : Ref} {shapes shapes' : List (Option Shape)} {c : Category}

/-- A union of such shapes is written as the scalar of their category, and refused without one. -/
theorem IsUnionOf.classify (h : cx.IsUnionOf r shapes) :
    (∀ c : Category, c.Applies shapes → cx.classify r = cx.options.scalarName c.key) ∧
      ((∀ c : Category, ¬ c.Applies shapes) →
        ∃ cause, cx.classify r = .error (.structural cause)) := by
  obtain ⟨unnamed, variants, node, hvariants⟩ := h
  obtain ⟨⟨path, metadata, shape⟩, hn, rfl⟩ := Option.map_eq_some_iff.1 node
  obtain ⟨targets, htargets, hshapes⟩ : ∃ targets, variants.mapM cx.graph.unwrap = .ok targets ∧
      targets.map (fun t => cx.graph.shape? t.1) = shapes := by
    clear node hn
    simp only [Except.mapM_eq_ok_iff]
    induction hvariants with
    | nil => exact ⟨[], .nil, rfl⟩
    | cons hfirst _ ih =>
      obtain ⟨e, nullable, hunwrap, rfl⟩ := hfirst
      obtain ⟨targets, hall, rfl⟩ := ih
      exact ⟨_ :: targets, .cons hunwrap hall, rfl⟩
  have hempty : variants.isEmpty = true ↔ shapes = [] := by
    cases hvariants <;> simp
  unfold Context.classify
  rw [unnamed, hn]
  dsimp only
  rw [htargets]
  dsimp only [bind, Except.bind]
  rw [hshapes]
  constructor
  · intro c hc
    rw [if_neg fun h => hc.1 (hempty.1 h), (Category.ofShapes?_eq_some_iff hc.1).2 hc]
  · intro hnone
    split
    · exact ⟨_, rfl⟩
    · have hne : shapes ≠ [] := fun h => absurd (hempty.2 h) ‹_›
      cases hc : Category.ofShapes? shapes with
      | some c => exact absurd ((Category.ofShapes?_eq_some_iff hne).1 hc) (hnone c)
      | none =>
        dsimp only
        split <;> exact ⟨_, rfl⟩

/-- A union without a name, all of whose variants can be unwrapped, is written as the scalar of the
category of its variants, or refused if they have none. At most one category applies. Another union
with the same shapes inside the wrappers around its variants, in whichever order and however often,
has the same outcome. One with some of these shapes only is written as the same category, or as whole
numbers if it was numbers before. -/
theorem classify_by_shapes (ho : cx'.options = cx.options) (h : cx.IsUnionOf r shapes)
    (h' : cx'.IsUnionOf r' shapes') :
    (∀ c : Category, c.Applies shapes → cx.classify r = cx.options.scalarName c.key) ∧
    ((∀ c : Category, ¬ c.Applies shapes) → ∃ cause, cx.classify r = .error (.structural cause)) ∧
    (∀ c c' : Category, c.Applies shapes → c'.Applies shapes → c = c') ∧
    ((∀ s, s ∈ shapes ↔ s ∈ shapes') → (∀ c : Category, c.Applies shapes ↔ c.Applies shapes') ∧
      (cx'.classify r').toOption = (cx.classify r).toOption) ∧
    (shapes' ≠ [] → shapes' ⊆ shapes → ∀ c : Category, c.Applies shapes →
      ∃ c' : Category, c'.Applies shapes' ∧ cx'.classify r' = cx.options.scalarName c'.key ∧
        (c' = c ∨ c' = .int ∧ c = .float)) := by
  obtain ⟨haccepts, hrefuses⟩ := h.classify
  obtain ⟨haccepts', hrefuses'⟩ := h'.classify
  rw [ho] at haccepts'
  refine ⟨haccepts, hrefuses, fun c c' => Category.Applies.unique, fun hset => ?_, fun hne hsub c hc => ?_⟩
  · have hsame : ∀ c : Category, c.Applies shapes ↔ c.Applies shapes' :=
      fun c => ⟨.congr hset, .congr fun s => (hset s).symm⟩
    refine ⟨hsame, ?_⟩
    by_cases hc : ∃ c : Category, c.Applies shapes
    · obtain ⟨c, hc⟩ := hc
      rw [haccepts c hc, haccepts' c ((hsame c).1 hc)]
    · obtain ⟨cause, hcause⟩ := hrefuses (not_exists.1 hc)
      obtain ⟨cause', hcause'⟩ := hrefuses' fun c hc' => hc ⟨c, (hsame c).2 hc'⟩
      rw [hcause, hcause']
      rfl
  · obtain ⟨c', hc', hor⟩ := hc.of_subset hne hsub
    exact ⟨c', hc', haccepts' c' hc', hor⟩

end Context

/-- A size is a whole number or, behind a wrapper, any number; then one that is always given; then
the whole number only. -/
def sizes : Context where
  graph := ⟨#[⟨"", [], .integer⟩, ⟨"", [], .number⟩, ⟨"", [], .optional 1⟩,
    ⟨"", [], .union [some 0, some 2]⟩, ⟨"", [], .union [some 1, some 0, some 1]⟩,
    ⟨"", [], .union [some 0]⟩]⟩
  registry := ∅
  options := {}

theorem classify_by_shapes_sizes :
    sizes.IsUnionOf (some 3) [some .integer, some .number] ∧
    sizes.IsUnionOf (some 4) [some .number, some .integer, some .number] ∧
    sizes.IsUnionOf (some 5) [some .integer] ∧
    sizes.classify (some 3) = .ok (.str "Float") ∧
    (sizes.classify (some 4)).toOption = some (.str "Float") ∧
    sizes.classify (some 5) = .ok (.str "Int") := by
  have hinteger : sizes.graph.Holds (some 0) (some .integer) := ⟨some 0, false, rfl, rfl⟩
  have hnumber : sizes.graph.Holds (some 1) (some .number) := ⟨some 1, false, rfl, rfl⟩
  have hwrapped : sizes.graph.Holds (some 2) (some .number) := ⟨some 1, true, rfl, rfl⟩
  have h3 : sizes.IsUnionOf (some 3) [some .integer, some .number] :=
    ⟨rfl, _, rfl, .cons hinteger (.cons hwrapped .nil)⟩
  have h4 : sizes.IsUnionOf (some 4) [some .number, some .integer, some .number] :=
    ⟨rfl, _, rfl, .cons hnumber (.cons hinteger (.cons hnumber .nil))⟩
  have h5 : sizes.IsUnionOf (some 5) [some .integer] := ⟨rfl, _, rfl, .cons hinteger .nil⟩
  have applies : ∀ c shapes, shapes ≠ [] → Category.ofShapes? shapes = some c → c.Applies shapes :=
    fun _ _ hne => (Category.ofShapes?_eq_some_iff hne).1
  have hfloat := applies .float [some .integer, some .number] (by simp) (by decide)
  have hint := applies .int [some .integer] (by simp) (by decide)
  obtain ⟨haccepts, -, -, hsame, -⟩ := Context.classify_by_shapes rfl h3 h4
  obtain ⟨-, -, -, -, hless⟩ := Context.classify_by_shapes rfl h3 h5
  obtain ⟨c, hc, hfewer, -⟩ := hless (by simp) (by simp) .float hfloat
  rw [hc.unique hint] at hfewer
  refine ⟨h3, h4, h5, haccepts .float hfloat, ?_, hfewer⟩
  rw [(hsame (by simp [or_comm])).2, haccepts .float hfloat]
  rfl

end ShapeSdl
