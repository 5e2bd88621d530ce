import ShapeSdl.Proofs.Blocks
import ShapeSdl.Proofs.Casting

/-!
# What compiles in one context compiles in one that follows it

Where nodes are cast for others, and have the names of these, what can be compiled of the others can
be compiled of them, to the same.

* `Context.Follows C cx cx'` : nodes of `cx'` are cast for nodes of `cx`, and have the same names;
* `Follows.unwrap`, `Follows.baseTypeWithin`, `Follows.fieldType` : they are unwrapped and resolved
  in the same way. What they are cast for needs no check for nodes met twice, since lists and
  wrappers are newer than what is in them;
* `Follows.declare` : they are declared in the same way;
* `Follows.checkField_eq` : strict mode says the same of both.
-/

namespace ShapeSdl

open Fault (bind_eq_ok pure_eq_ok)

/-- What the shapes of alike nodes have in common does not depend on the nodes they refer to. -/
theorem Shape.Resembles.alike {C : Casting} {a b : Shape} (h : a.Resembles C b) :
    a.Alike (fun _ _ => True) (fun _ _ => True) b := by
  cases h with
  | leaf isLeaf => exact .leaf isLeaf
  | wrapper => exact .wrapper trivial
  | list => exact .list trivial
  | union inside => exact .union (inside.imp fun _ _ _ => trivial)
  | object => exact .object trivial

/-- Nodes of the second context are cast for nodes of the first one. If they are cast firmly they have
the same names, and else none. In the second context, wrappers and lists are newer than what is in
them. -/
structure Context.Follows (cx : Context) (C : Casting) (cx' : Context) : Prop where
  resembles : ∀ i j, C.Firm i j → C.Resembles cx.graph cx'.graph i j
  standIn : ∀ i j, C .stand i j → C.StandIn cx.graph cx'.graph i j
  name : ∀ i j, C.Firm i j → cx.registry.get? (some i) = cx'.registry.get? (some j)
  nameless : ∀ i j, C .stand i j →
    cx.registry.get? (some i) = none ∧ cx'.registry.get? (some j) = none
  options : cx.options = cx'.options
  older : ∀ j k, cx'.graph.next? Graph.noneNamed (some j) = some (some k) → k < j

/-- The key of the scalar table for constants with these values, if they have one. -/
def Json.commonKey? (values : List Json) : Option String :=
  (Category.ofShapes? (values.map fun value => some (.literal value))).map Category.key

theorem Json.commonKey?_texts {values : List Json} (h : values.all Json.isText = true) :
    commonKey? values = some "string" := by
  unfold commonKey? Category.ofShapes?
  rw [if_pos]
  · rfl
  · rw [List.all_map]
    apply List.all_eq_true.2
    intro value hvalue
    have htext := List.all_eq_true.1 h value hvalue
    cases value <;> first | rfl | cases htext

theorem Json.commonKey?_singleton {value : Json} (h : value.category.isSome = true) :
    commonKey? [value] = value.category := by
  cases value with
  | float x =>
    unfold commonKey? Category.ofShapes?
    by_cases hx : x.isIntegral = true <;>
      simp [Json.category, Shape.isStringLike, Shape.isNumberLike, Shape.isWhole, hx, Category.key]
  | bool | int | str =>
    simp [commonKey?, Category.ofShapes?, Json.category, Shape.isStringLike, Shape.isNumberLike,
      Shape.isWhole, Shape.isBooleanLike, Category.key]
  | null | arr | obj => cases h

namespace Context

variable {cx : Context} {i : NodeId} {w u : Walk} {t : TypeExpr} {values : List Json}

theorem unwrap_literals {ids : List NodeId}
    (h : List.Forall₂ (fun i value => cx.graph.shape? (some i) = some (.literal value)) ids values) :
    (ids.map some).mapM cx.graph.unwrap = .ok (ids.map fun i => (some i, false)) ∧
      ((ids.map fun i => ((some i, false) : Ref × Bool)).map fun t => cx.graph.shape? t.1) =
        values.map fun value => some (.literal value) := by
  induction h with
  | nil => exact ⟨rfl, rfl⟩
  | @cons i value _ _ hi _ ih =>
    have hone : cx.graph.unwrap (some i) = .ok (some i, false) := by
      obtain ⟨⟨path, metadata, shape⟩, hn, rfl⟩ := Option.map_eq_some_iff.1 hi
      rw [Graph.unwrap, Graph.unwrapWithin, hn]
    constructor
    · rw [List.map_cons, List.mapM_cons, hone, ih.1]
      rfl
    · rw [List.map_cons, List.map_cons, List.map_cons, ih.2, hi]

/-- A union of constants is classified by their values. -/
theorem classify_constants {ids : List NodeId}
    (node : cx.graph.shape? (some i) = some (.union (ids.map some)))
    (each : List.Forall₂ (fun i value => cx.graph.shape? (some i) = some (.literal value)) ids values)
    (hn : cx.registry.get? (some i) = none) (hne : values ≠ []) {name : Json} :
    cx.classify (some i) = .ok name ↔ ∃ key, Json.commonKey? values = some key ∧
      cx.options.scalarName key = .ok name := by
  obtain ⟨⟨path, metadata, shape⟩, hnode, rfl⟩ := Option.map_eq_some_iff.1 node
  obtain ⟨hunwrap, hshapes⟩ := unwrap_literals each
  have hids : (ids.map some).isEmpty = false := by
    cases each with
    | nil => exact absurd rfl hne
    | cons => rfl
  unfold classify
  rw [hn, hnode]
  dsimp only
  rw [hids, hunwrap]
  dsimp only [bind, Except.bind]
  rw [if_neg nofun, hshapes]
  unfold Json.commonKey?
  cases Category.ofShapes? (values.map fun value => some (.literal value)) with
  | some category => simp
  | none =>
    rw [Option.map_none]
    refine iff_of_false ?_ (by simp)
    dsimp only
    split <;> exact fun h => nomatch h

/-- The type of constants without a name is the scalar of their common key. -/
theorem endName_constants (h : cx.graph.Constants values i) (hn : cx.registry.get? (some i) = none)
    (hne : values ≠ []) (hs : ∀ value ∈ values, value.category.isSome = true) {name : Json} :
    cx.endName (some i) = .ok name ↔
      ∃ key, Json.commonKey? values = some key ∧ cx.options.scalarName key = .ok name := by
  cases h with
  | enumeration node texts =>
    rw [endName, hn, node, Json.commonKey?_texts texts]
    simp [Shape.endKey?]
  | @single value _ node =>
    have hcategory := hs value (List.mem_singleton_self _)
    obtain ⟨key, hkey⟩ := Option.isSome_iff_exists.1 hcategory
    rw [endName, hn, node, Json.commonKey?_singleton hcategory, hkey]
    simp [Shape.endKey?, hkey]
  | union node each =>
    rw [endName, hn, node]
    exact classify_constants node each hn hne

theorem openList?_constants (h : cx.graph.Constants values i) : cx.openList? (some i) = none := by
  cases h with
  | enumeration node | single node | union node => exact openList?_of_not_list node nofun

end Context

namespace Graph

variable {g : Graph} {r : Ref}

theorem unwrapWithin_of_not_wrapper (h : g.isWrapper r = false) (room : Nat) (seen : List Ref)
    (nullable : Bool) : g.unwrapWithin room seen nullable r = .ok (r, nullable) := by
  unfold unwrapWithin
  split
  · rename_i hn
    rw [isWrapper, shape?_of_node? hn] at h
    cases h
  · rfl

theorem unwrapWithin_of_wrapper {kind : WrapperKind} {value : Json} {k : NodeId}
    (h : g.shape? r = some (.wrapper kind (some k) value)) {room : Nat} {seen : List Ref}
    {nullable : Bool} {result : Ref × Bool} :
    g.unwrapWithin room seen nullable r = .ok result ↔ r ∉ seen ∧ ∃ rest, room = rest + 1 ∧
      g.unwrapWithin rest (r :: seen) (nullable || kind.isNullable) (some k) = .ok result := by
  obtain ⟨⟨path, metadata, shape⟩, hn, rfl⟩ := Option.map_eq_some_iff.1 h
  conv_lhs => rw [unwrapWithin, hn]
  dsimp only
  by_cases hr : r ∈ seen
  · simp [hr]
  · cases room with
    | zero => simp [hr]
    | succ room => simp [hr]

end Graph

namespace Context.Follows

variable {C : Casting} {cx cx' : Context} {i j : NodeId}

theorem wrapper_cases (F : cx.Follows C cx') (h : C.Cast i j) :
    (∃ kind value a b, cx.graph.shape? (some i) = some (.wrapper kind (some a) value) ∧
      cx'.graph.shape? (some j) = some (.wrapper kind (some b) value) ∧ C.Cast a b ∧
        (C.Firm i j → C.Firm a b)) ∨
      cx.graph.isWrapper (some i) = false ∧ cx'.graph.isWrapper (some j) = false := by
  have hnot : ∀ {g : Graph} {r : Ref} {a : Shape}, g.shape? r = some a →
      (∀ kind inner value, a ≠ .wrapper kind inner value) → g.isWrapper r = false := by
    intro g r a ha hne
    rw [Graph.isWrapper, ha]
    cases a with
    | wrapper => exact absurd rfl (hne _ _ _)
    | _ => rfl
  by_cases hfirm : C.Firm i j
  · obtain ⟨a, b, ha, hb, hab⟩ := F.resembles i j hfirm
    cases hab with
    | wrapper inside => exact .inl ⟨_, _, _, _, ha, hb, inside.cast, fun _ => inside⟩
    | leaf isLeaf =>
      refine .inr ⟨hnot ha ?_, hnot hb ?_⟩ <;>
      · rintro _ _ _ rfl
        cases isLeaf
    | list | union | object =>
      refine .inr ⟨hnot ha ?_, hnot hb ?_⟩ <;>
      · rintro _ _ _ ⟨⟩
  · obtain ⟨role, hrole⟩ := h
    cases role with
    | twin => exact absurd (.inl hrole) hfirm
    | copy => exact absurd (.inr hrole) hfirm
    | stand =>
      cases F.standIn i j hrole with
      | wrapper left right inside =>
        exact .inl ⟨_, _, _, _, left, right, inside, fun h => absurd h hfirm⟩
      | constants _ _ left right =>
        have hconstants : ∀ {g : Graph} {id : NodeId} {values : List Json}, g.Constants values id →
            g.isWrapper (some id) = false := by
          intro g id values hc
          cases hc with
          | enumeration node | single node | union node =>
            refine hnot node ?_
            rintro _ _ _ ⟨⟩
        exact .inr ⟨hconstants left, hconstants right⟩

/-- What can be unwrapped can be unwrapped in the second context, to a node that is cast for it. -/
theorem unwrapWithin (F : cx.Follows C cx') : ∀ (room : Nat) {seen seen' : List Ref} {nullable : Bool}
    {i j : NodeId} {result : Ref × Bool}, C.Cast i j → (∀ r ∈ seen', ∃ k, r = some k ∧ j < k) →
      cx.graph.unwrapWithin room seen nullable (some i) = .ok result →
      ∃ a b, result.1 = some a ∧
        cx'.graph.unwrapWithin room seen' nullable (some j) = .ok (some b, result.2) ∧ C.Cast a b ∧
          (C.Firm i j → C.Firm a b) ∧ b ≤ j ∧ cx'.graph.isWrapper (some b) = false := by
  intro room seen seen' nullable i j result h hseen hok
  rcases F.wrapper_cases h with ⟨kind, value, a, b, ha, hb, hab, hfirm⟩ | ⟨hi, hj⟩
  · obtain ⟨-, rest, rfl, honward⟩ := (Graph.unwrapWithin_of_wrapper ha).1 hok
    have hlt : b < j := F.older j b (by rw [Graph.next?, hb])
    have hseen' : ∀ r ∈ some j :: seen', ∃ k, r = some k ∧ b < k := by
      refine List.forall_mem_cons.2 ⟨⟨j, rfl, hlt⟩, fun r hr => ?_⟩
      obtain ⟨k, rfl, hk⟩ := hseen r hr
      exact ⟨k, rfl, hlt.trans hk⟩
    obtain ⟨c, d, hc, hd, hcd, hf, hle, hbare⟩ := F.unwrapWithin rest hab hseen' honward
    have hnew : some j ∉ seen' := by
      intro hmem
      obtain ⟨k, hk, hlt⟩ := hseen _ hmem
      cases hk
      exact Nat.lt_irrefl _ hlt
    exact ⟨c, d, hc, (Graph.unwrapWithin_of_wrapper hb).2 ⟨hnew, rest, rfl, hd⟩, hcd,
      fun h => hf (hfirm h), hle.trans (Nat.le_of_lt hlt), hbare⟩
  · rw [Graph.unwrapWithin_of_not_wrapper hi] at hok
    cases hok
    exact ⟨i, j, rfl, Graph.unwrapWithin_of_not_wrapper hj .., h, id, le_refl j, hj⟩

theorem unwrap (F : cx.Follows C cx') {result : Ref × Bool} (h : C.Cast i j)
    (hok : cx.graph.unwrap (some i) = .ok result) : ∃ a b, result.1 = some a ∧
      cx'.graph.unwrap (some j) = .ok (some b, result.2) ∧ C.Cast a b ∧ (C.Firm i j → C.Firm a b) ∧
        b ≤ j ∧ cx'.graph.isWrapper (some b) = false :=
  F.unwrapWithin maxDepth h (by simp) hok

/-- The variants of a union have the same in common. -/
theorem unwrapAll (F : cx.Follows C cx') {is js : List NodeId} (h : List.Forall₂ C.Firm is js) :
    ∀ {ts : List (Ref × Bool)}, (is.map some).mapM cx.graph.unwrap = .ok ts →
      ∃ ts', (js.map some).mapM cx'.graph.unwrap = .ok ts' ∧
        List.Forall₂ (Option.Rel (Shape.Alike (fun _ _ => True) fun _ _ => True))
          (ts.map fun t => cx.graph.shape? t.1) (ts'.map fun t => cx'.graph.shape? t.1) := by
  induction h with
  | nil =>
    intro ts hok
    cases hok
    exact ⟨[], rfl, .nil⟩
  | @cons i j _ _ hij _ ih =>
    intro ts hok
    rw [Except.mapM_eq_ok_iff] at hok
    cases hok with
    | @cons _ t _ ts hfirst hrest =>
      obtain ⟨a, b, hab, hb, -, hfirm, -⟩ := F.unwrap hij.cast hfirst
      obtain ⟨ts', hts', hall⟩ := ih (Except.mapM_eq_ok_iff.2 hrest)
      refine ⟨(some b, t.2) :: ts', ?_, .cons ?_ hall⟩
      · rw [Except.mapM_eq_ok_iff] at hts' ⊢
        exact .cons hb hts'
      · obtain ⟨x, y, hx, hy, hxy⟩ := F.resembles a b (hfirm hij)
        show Option.Rel _ (cx.graph.shape? t.1) (cx'.graph.shape? (some b))
        rw [hab, hx, hy]
        exact .some hxy.alike

theorem classify (F : cx.Follows C cx') (h : C.Firm i j) {name : Json}
    (hok : cx.classify (some i) = .ok name) : cx'.classify (some j) = .ok name := by
  obtain ⟨a, b, ha, hb, hab⟩ := F.resembles i j h
  obtain ⟨⟨path, metadata, _⟩, hn, rfl⟩ := Option.map_eq_some_iff.1 ha
  obtain ⟨⟨path', metadata', _⟩, hn', rfl⟩ := Option.map_eq_some_iff.1 hb
  unfold Context.classify at hok ⊢
  rw [F.name i j h, hn] at hok
  rw [hn']
  cases hreg : cx'.registry.get? (some j) with
  | some registered =>
    rw [hreg] at hok
    exact hok
  | none =>
    rw [hreg] at hok
    cases hab with
    | leaf isLeaf =>
      dsimp only at hok
      split at hok
      · rename_i hunion
        cases hunion
        cases isLeaf
      · cases hok
    | wrapper | list | object => cases hok
    | @union is js inside =>
      have he : is.isEmpty = js.isEmpty := by cases inside <;> rfl
      dsimp only at hok ⊢
      rw [List.isEmpty_map, he] at hok
      rw [List.isEmpty_map]
      cases hmap : (is.map some).mapM cx.graph.unwrap with
      | error f =>
        rw [hmap] at hok
        split at hok <;> cases hok
      | ok ts =>
        obtain ⟨ts', hts', hall⟩ := F.unwrapAll inside hmap
        rw [hmap, F.options] at hok
        rw [hts']
        split at hok
        · cases hok
        · rename_i hempty
          rw [if_neg hempty]
          dsimp only [bind, Except.bind] at hok ⊢
          rw [Category.ofShapes?_eq hall] at hok
          split at hok
          · exact hok
          · split at hok <;> cases hok

/-! ## Types -/

theorem openList?_cases (F : cx.Follows C cx') (h : C.Cast i j) :
    (cx.openList? (some i) = none ∧ cx'.openList? (some j) = none) ∨
      ∃ path path' a b, cx.openList? (some i) = some (path, some a) ∧
        cx'.openList? (some j) = some (path', some b) ∧ C.Cast a b := by
  by_cases hfirm : C.Firm i j
  · obtain ⟨a, b, ha, hb, hab⟩ := F.resembles i j hfirm
    have hname := F.name i j hfirm
    cases hreg : cx'.registry.get? (some j) with
    | some name => exact .inl ⟨openList?_of_registered (hname.trans hreg), openList?_of_registered hreg⟩
    | none =>
      cases hab with
      | list inside =>
        obtain ⟨path, hl⟩ := openList?_of_shape? (hname.trans hreg) ha
        obtain ⟨path', hl'⟩ := openList?_of_shape? hreg hb
        exact .inr ⟨path, path', _, _, hl, hl', inside⟩
      | leaf isLeaf =>
        refine .inl ⟨openList?_of_not_list ha ?_, openList?_of_not_list hb ?_⟩ <;>
        · rintro _ rfl
          cases isLeaf
      | wrapper | union | object =>
        exact .inl ⟨openList?_of_not_list ha nofun, openList?_of_not_list hb nofun⟩
  · obtain ⟨role, hrole⟩ := h
    cases role with
    | twin => exact absurd (.inl hrole) hfirm
    | copy => exact absurd (.inr hrole) hfirm
    | stand =>
      cases F.standIn i j hrole with
      | wrapper left right =>
        exact .inl ⟨openList?_of_not_list left nofun, openList?_of_not_list right nofun⟩
      | constants _ _ left right => exact .inl ⟨openList?_constants left, openList?_constants right⟩

theorem endName (F : cx.Follows C cx') (h : C.Cast i j) {name : Json}
    (hok : cx.endName (some i) = .ok name) : cx'.endName (some j) = .ok name := by
  by_cases hfirm : C.Firm i j
  · obtain ⟨a, b, ha, hb, hab⟩ := F.resembles i j hfirm
    unfold Context.endName at hok ⊢
    rw [F.name i j hfirm, ha] at hok
    rw [hb]
    cases hreg : cx'.registry.get? (some j) with
    | some registered =>
      rw [hreg] at hok
      exact hok
    | none =>
      rw [hreg, F.options] at hok
      cases hab with
      | union inside => exact F.classify hfirm hok
      | leaf isLeaf => cases a <;> first | exact hok | cases isLeaf
      | wrapper | list | object => exact hok
  · obtain ⟨role, hrole⟩ := h
    cases role with
    | twin => exact absurd (.inl hrole) hfirm
    | copy => exact absurd (.inr hrole) hfirm
    | stand =>
      obtain ⟨hn, hn'⟩ := F.nameless i j hrole
      cases F.standIn i j hrole with
      | wrapper left right =>
        rw [Context.endName, hn, left, F.options] at hok
        rw [Context.endName, hn', right]
        exact hok
      | constants nonempty simple left right =>
        rw [Context.endName_constants left hn nonempty simple, F.options] at hok
        exact (Context.endName_constants right hn' nonempty simple).2 hok

theorem baseTypeWithin (F : cx.Follows C cx') : ∀ (room : Nat) {i j : NodeId} {w w' u : Walk}
    {t : TypeExpr}, C.Cast i j → (∀ r ∈ w'.active, ∃ k, r = some k ∧ j < k) →
      cx.baseTypeWithin room (some i) w = .ok t u →
      ∃ u', cx'.baseTypeWithin room (some j) w' = .ok t u' := by
  intro room i j w w' u t h hactive hok
  rcases F.openList?_cases h with ⟨hl, hl'⟩ | ⟨path, path', a, b, hl, hl', inside⟩
  · obtain ⟨name, hname, rfl, -⟩ := (baseTypeWithin_end_eq_ok_iff hl).1 hok
    exact ⟨_, (baseTypeWithin_end_eq_ok_iff hl').2 ⟨name, F.endName h hname, rfl, rfl⟩⟩
  · obtain ⟨-, -, rest, inner, nullable, typed, v, rfl, hunwrap, hinner, rfl, rfl⟩ :=
      (baseTypeWithin_list_eq_ok_iff hl).1 hok
    obtain ⟨c, d, rfl, hd, hcd, -, hle, -⟩ := F.unwrap inside hunwrap
    obtain ⟨-, metadata, hn⟩ := openList?_eq_some_iff.1 hl'
    have hgoes : cx'.graph.next? Graph.noneNamed (some j) = some (some b) := by
      rw [Graph.next?, Graph.shape?_of_node? hn]
      rfl
    have hlt : d < j := hle.trans_lt (F.older j b hgoes)
    let inside' : Walk := { w' with active := some j :: w'.active }
    have hlater : ∀ r ∈ inside'.active, ∃ k, r = some k ∧ d < k := by
      refine List.forall_mem_cons.2 ⟨⟨j, rfl, hlt⟩, fun r hr => ?_⟩
      obtain ⟨k, rfl, hk⟩ := hactive r hr
      exact ⟨k, rfl, hlt.trans hk⟩
    obtain ⟨v', hv'⟩ := F.baseTypeWithin rest hcd hlater hinner
    refine ⟨_, (baseTypeWithin_list_eq_ok_iff hl').2 ⟨fun hmem => ?_, Option.some_ne_none b, rest, _,
      nullable, typed, v', rfl, hd, hv', rfl, rfl⟩⟩
    obtain ⟨k, hk, hlt⟩ := hactive _ hmem
    cases hk
    exact Nat.lt_irrefl _ hlt

theorem fieldType (F : cx.Follows C cx') (h : C.Cast i j) {w w' u : Walk} {t : TypeExpr}
    (hw : w'.active = []) (hok : cx.fieldType (some i) w = .ok t u) :
    ∃ u', u'.active = [] ∧ cx'.fieldType (some j) w' = .ok t u' := by
  obtain ⟨result, _, hlift, hok⟩ := bind_eq_ok.1 hok
  obtain ⟨hunwrap, rfl⟩ := Compiling.lift_eq_ok.1 hlift
  obtain ⟨inner, v, hinner, hok⟩ := bind_eq_ok.1 hok
  obtain ⟨rfl, rfl⟩ := pure_eq_ok.1 hok
  obtain ⟨a, b, ha, hb, hab, -⟩ := F.unwrap h hunwrap
  rw [ha] at hinner
  obtain ⟨u', hu'⟩ := F.baseTypeWithin maxDepth hab (by rw [hw]; nofun) hinner
  refine ⟨u', (cx'.baseTypeWithin_steady maxDepth _).active_eq hu' ▸ hw, ?_⟩
  exact bind_eq_ok.2 ⟨_, w', Compiling.lift_eq_ok.2 ⟨hb, rfl⟩, bind_eq_ok.2 ⟨inner, u', hu', rfl⟩⟩

/-! ## Declarations -/

theorem declareFields (F : cx.Follows C cx') (name : String) {l l' : List (String × Ref)}
    (h : List.Forall₂ (fun p q => p.1 = q.1 ∧ Ref.Rel C.Cast p.2 q.2) l l') :
    ∀ {w w' u : Walk} {typed : List (String × TypeExpr)}, w'.active = [] →
      cx.declareFields name l w = .ok typed u → ∃ u', cx'.declareFields name l' w' = .ok typed u' := by
  induction h with
  | nil =>
    intro w w' u typed _ hok
    cases hok
    exact ⟨w', rfl⟩
  | @cons p q _ _ hpq _ ih =>
    intro w w' u typed hw hok
    obtain ⟨field, r⟩ := p
    obtain ⟨_, r'⟩ := q
    obtain ⟨rfl, ⟨hcast⟩⟩ := hpq
    unfold Context.declareFields at hok ⊢
    rw [List.mapM_cons] at hok ⊢
    obtain ⟨_, v, hfield, hok⟩ := bind_eq_ok.1 hok
    obtain ⟨t, _, ht, hpure⟩ := bind_eq_ok.1 hfield
    obtain ⟨rfl, rfl⟩ := pure_eq_ok.1 hpure
    obtain ⟨rest, _, hrest, hpure⟩ := bind_eq_ok.1 hok
    obtain ⟨rfl, rfl⟩ := pure_eq_ok.1 hpure
    obtain ⟨v', hv', ht'⟩ := F.fieldType hcast hw (Compiling.mapFault_eq_ok.1 ht)
    obtain ⟨u', hu'⟩ := ih hv' hrest
    refine ⟨u', bind_eq_ok.2 ⟨_, v', ?_, bind_eq_ok.2 ⟨rest, u', hu', rfl⟩⟩⟩
    exact bind_eq_ok.2 ⟨t, v', Compiling.mapFault_eq_ok.2 ht', rfl⟩

/-- The members of a union have their names in the second context. -/
theorem unionMembers_eq (F : cx.Follows C cx') (name : String) {is js : List NodeId}
    (h : List.Forall₂ C.Firm is js) : ∀ index, cx.unionMembers name index (is.map some) =
      cx'.unionMembers name index (js.map some) := by
  induction h with
  | nil => exact fun _ => rfl
  | @cons i j _ _ hij _ ih =>
    intro index
    obtain ⟨a, b, ha, hb, hab⟩ := F.resembles i j hij
    have hkind : cx.graph.kindName (some i) = cx'.graph.kindName (some j) := by
      rw [Graph.kindName, ha, Graph.kindName, hb]
      cases hab <;> rfl
    simp only [List.map_cons, Context.unionMembers]
    rw [F.name _ _ hij, Graph.isObject_of_shape? ha, Graph.isObject_of_shape? hb, hab.isObject_eq,
      hkind, ih]

/-- What can be declared can be declared in the second context, if fields are cast for each other. -/
theorem declare (F : cx.Follows C cx') (name : String) (h : C.Firm i j)
    (hf : C.Fields (cx.graph.fields (some i)) (cx'.graph.fields (some j))) {w w' u : Walk}
    (hw : w'.active = []) {d : Declaration} (hok : cx.declare name (some i) w = .ok d u) :
    ∃ u', cx'.declare name (some j) w' = .ok d u' := by
  obtain ⟨a, b, ha, hb, hab⟩ := F.resembles i j h
  rw [Graph.fields, Graph.fields, ha, hb] at hf
  unfold Context.declare at hok ⊢
  rw [ha] at hok
  rw [hb]
  cases hab with
  | wrapper | list => cases hok
  | leaf isLeaf =>
    cases a with
    | enumeration values =>
      have hv : cx.enumValue = cx'.enumValue := by
        funext v
        rw [Context.enumValue, Context.enumValue, F.options]
      obtain ⟨rfl, -⟩ := pure_eq_ok.1 hok
      rw [hv]
      exact ⟨w', rfl⟩
    | scalar | literal => cases hok
    | _ => cases isLeaf
  | object =>
    obtain ⟨typed, v, htyped, hpure⟩ := bind_eq_ok.1 hok
    obtain ⟨rfl, -⟩ := pure_eq_ok.1 hpure
    obtain ⟨u', hu'⟩ := F.declareFields name hf hw htyped
    exact ⟨u', bind_eq_ok.2 ⟨typed, u', hu', rfl⟩⟩
  | @union is js inside =>
    have he : is.isEmpty = js.isEmpty := by cases inside <;> rfl
    dsimp only at hok ⊢
    rw [List.isEmpty_map, he, F.unionMembers_eq name inside] at hok
    rw [List.isEmpty_map]
    split at hok
    · cases hok
    · rename_i hempty
      rw [if_neg hempty]
      obtain ⟨members, v, hlift, hpure⟩ := bind_eq_ok.1 hok
      obtain ⟨hmembers, rfl⟩ := Compiling.lift_eq_ok.1 hlift
      obtain ⟨rfl, -⟩ := pure_eq_ok.1 hpure
      exact ⟨w', bind_eq_ok.2 ⟨members, w', Compiling.lift_eq_ok.2 ⟨hmembers, rfl⟩, rfl⟩⟩

/-! ## Strict mode -/

/-- A walk goes on to nodes that are cast for each other, or it ends in both contexts. If it ends at
an object, it does so in both, at one that is cast firmly. -/
theorem next?_cases (F : cx.Follows C cx') (h : C.Cast i j) :
    (∃ a b, cx.graph.next? Graph.noneNamed (some i) = some (some a) ∧
      cx'.graph.next? Graph.noneNamed (some j) = some (some b) ∧ C.Cast a b) ∨
    cx.graph.next? Graph.noneNamed (some i) = none ∧ cx'.graph.next? Graph.noneNamed (some j) = none ∧
      cx.graph.isObject (some i) = cx'.graph.isObject (some j) ∧
        (cx.graph.isObject (some i) = true → C.Firm i j) := by
  have hends : ∀ {g : Graph} {r : Ref} {a : Shape}, g.shape? r = some a →
      (∀ kind next value, a ≠ .wrapper kind next value ∧ a ≠ .list next) →
        g.next? Graph.noneNamed r = none := by
    intro g r a ha hne
    rw [Graph.next?, ha]
    cases a with
    | wrapper => exact absurd rfl (hne _ _ _).1
    | list => exact absurd rfl (hne .optional _ .null).2
    | _ => rfl
  by_cases hfirm : C.Firm i j
  · obtain ⟨a, b, ha, hb, hab⟩ := F.resembles i j hfirm
    rw [Graph.isObject_of_shape? ha, Graph.isObject_of_shape? hb, hab.isObject_eq]
    cases hab with
    | wrapper inside | list inside =>
      rw [Graph.next?, ha, Graph.next?, hb]
      exact .inl ⟨_, _, rfl, rfl, by first | exact inside.cast | exact inside⟩
    | leaf isLeaf =>
      have hleaf : ∀ kind next value, a ≠ .wrapper kind next value ∧ a ≠ .list next := by
        intro _ _ _
        constructor <;>
        · rintro rfl
          cases isLeaf
      exact .inr ⟨hends ha hleaf, hends hb hleaf, rfl, fun _ => hfirm⟩
    | union | object =>
      refine .inr ⟨hends ha ?_, hends hb ?_, rfl, fun _ => hfirm⟩ <;>
      · intro _ _ _
        constructor <;> rintro ⟨⟩
  · obtain ⟨role, hrole⟩ := h
    cases role with
    | twin => exact absurd (.inl hrole) hfirm
    | copy => exact absurd (.inr hrole) hfirm
    | stand =>
      cases F.standIn i j hrole with
      | wrapper left right inside =>
        exact .inl ⟨_, _, by rw [Graph.next?, left], by rw [Graph.next?, right], inside⟩
      | constants _ _ left right =>
        have hconstants : ∀ {g : Graph} {id : NodeId} {values : List Json}, g.Constants values id →
            g.next? Graph.noneNamed (some id) = none ∧ g.isObject (some id) = false := by
          intro g id values hc
          cases hc with
          | enumeration node | single node | union node =>
            refine ⟨hends node ?_, Graph.isObject_of_shape? node⟩
            intro _ _ _
            constructor <;> rintro ⟨⟩
        refine .inr ⟨(hconstants left).1, (hconstants right).1, ?_, fun ho => ?_⟩
        · rw [(hconstants left).2, (hconstants right).2]
        · rw [(hconstants left).2] at ho
          cases ho

theorem steps (F : cx.Follows C cx') {n : Nat} {r e : Ref}
    (hs : Steps (cx.graph.next? Graph.noneNamed) n r e) :
    ∀ {i j : NodeId}, r = some i → C.Cast i j →
      ∃ a b, e = some a ∧ Steps (cx'.graph.next? Graph.noneNamed) n (some j) (some b) ∧ C.Cast a b := by
  induction hs with
  | here =>
    rintro i j rfl h
    exact ⟨i, j, rfl, .here, h⟩
  | step goes _ ih =>
    rintro i j rfl h
    rcases F.next?_cases h with ⟨a, b, ha, hb, hab⟩ | ⟨hi, -⟩
    · cases goes.symm.trans ha
      obtain ⟨c, d, rfl, hd, hcd⟩ := ih rfl hab
      exact ⟨c, d, rfl, .step hb hd, hcd⟩
    · cases goes.symm.trans hi

theorem checkField_eq (F : cx.Follows C cx') (hn : cx.registry.Named) (hn' : cx'.registry.Named)
    (type field : String) (h : C.Cast i j) :
    cx.checkField type (field, some i) = cx'.checkField type (field, some j) := by
  unfold checkField
  rcases Steps.ends_or_goes (cx.graph.next? Graph.noneNamed) maxDepth (some i) with
    ⟨n, hle, e, hs, he⟩ | ⟨e, hs⟩
  · obtain ⟨a, b, rfl, hb, hab⟩ := F.steps hs rfl h
    rcases F.next?_cases hab with ⟨_, _, ha, -⟩ | ⟨-, hend, hobject, hfirm⟩
    · cases he.symm.trans ha
    · rw [Graph.referenced_eq_ok_iff.2 ⟨n, hle, hs, he⟩,
        Graph.referenced_eq_ok_iff.2 ⟨n, hle, hb, hend⟩]
      dsimp only [bind, Except.bind]
      rw [← hobject, hn.contains_eq, hn'.contains_eq]
      cases ho : cx.graph.isObject (some a) with
      | false => rfl
      | true => rw [F.name a b (hfirm ho)]
  · obtain ⟨a, b, rfl, hb, -⟩ := F.steps hs rfl h
    rw [Graph.referenced_of_beyond hs, Graph.referenced_of_beyond hb]
    rfl

end Context.Follows

end ShapeSdl
