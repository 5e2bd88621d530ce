import ShapeSdl.Options
import ShapeSdl.Walk

/-!
# Types of fields

* `TypeExpr`, `TypeExpr.text` : a named type, a list of a type, or a type that is never null:
  `String!`, `[Int]`, `[[Product!]]!`;
* `Graph.unwrap` : the node inside the wrappers around a reference, and whether one of them admits
  null. It ends at the first node that is no wrapper; a wrapper met twice, more wrappers in a row
  than `maxDepth`, and a wrapper around nothing are errors;
* `Category.ofShapes?` : what the variants of a union have in common. Enums count as strings,
  constants as what they are constants of, and one fractional number makes whole ones fractional;
* `Context.classify` : the name of a union as the type of a field: the registered one, or that of
  its category;
* `Context.baseType` : the type of a node without wrappers: its registered name; else the name of
  its scalar, a list of the type of its elements, the category of its union. An object without a
  name falls back to the name of any value;
* `Context.fieldType` : the type of a field: that of the node inside its wrappers, marked as never
  null unless a wrapper admits null;
* `Context.openList?`, `Context.endName` : a list without a name goes on to its elements; the type of
  any other node is one name;
* `Context.baseTypeWithin_list_eq_ok_iff`, `Context.baseTypeWithin_end_eq_ok_iff`,
  `Context.baseTypeWithin_error_cases` : how resolving them ends well, and how it fails.

Lists may lie inside each other to a depth of `maxDepth`, and no list inside itself.
-/

namespace ShapeSdl

/-! ## Type references -/

/-- A reference to a type. A name is a text, unless an override says otherwise. -/
inductive TypeExpr where
  | named (name : Json)
  | list (element : TypeExpr)
  | required (inner : TypeExpr)
deriving DecidableEq

namespace TypeExpr

def text : TypeExpr → String
  | named name => name.plain
  | list element => "[" ++ element.text ++ "]"
  | required inner => inner.text ++ "!"

/-- A type reference as a value: a bare name is the value itself. -/
def value : TypeExpr → Json
  | named name => name
  | t => .str t.text

/-- Marks a type as never null, unless it is nullable. -/
def unlessNullable (nullable : Bool) (t : TypeExpr) : TypeExpr :=
  if nullable then t else required t

end TypeExpr

/-! ## Taking wrappers off -/

namespace Graph

/-- Takes off at most `room` wrappers, none of them in `seen`. -/
def unwrapWithin (g : Graph) (room : Nat) (seen : List Ref) (nullable : Bool) (r : Ref) :
    Except Fault (Ref × Bool) :=
  match g.node? r with
  | some ⟨path, _, .wrapper kind inner _⟩ =>
    if r ∈ seen then .error (.structural (.wrapperCycle path))
    else match room with
      | 0 => .error (.structural (.wrapperCycle path))
      | room + 1 =>
        if inner = none then .error (.structural (.wrapperWithoutInner path))
        else unwrapWithin g room (r :: seen) (nullable || kind.isNullable) inner
  | _ => .ok (r, nullable)

/-- The node inside the wrappers, and whether a wrapper admits null. -/
def unwrap (g : Graph) (r : Ref) : Except Fault (Ref × Bool) := g.unwrapWithin maxDepth [] false r

end Graph

/-! ## Unions -/

/-- A graph with the names of its nodes and the options. -/
structure Context where
  graph : Graph
  registry : Registry
  options : Options

inductive Category where
  | string
  | int
  | float
  | boolean
deriving DecidableEq

def Category.key : Category → String
  | string => "string"
  | int => "int"
  | float => "float"
  | boolean => "boolean"

namespace Shape

def isStringLike : Shape → Bool
  | scalar base checks => subtype base checks = "string"
  | literal value => value.category = some "string"
  | enumeration _ => true
  | _ => false

def isNumberLike : Shape → Bool
  | scalar base _ => base = "number"
  | literal value => value.category = some "int" ∨ value.category = some "float"
  | _ => false

def isWhole : Shape → Bool
  | scalar base checks => subtype base checks = "int"
  | literal value => value.category = some "int"
  | _ => false

def isBooleanLike : Shape → Bool
  | scalar base _ => base = "boolean"
  | literal value => value.category = some "boolean"
  | _ => false

end Shape

/-- The category that all shapes share, if there is one. A missing shape shares none. -/
def Category.ofShapes? (shapes : List (Option Shape)) : Option Category :=
  if shapes.all (·.any Shape.isStringLike) then some string
  else if shapes.all (·.any Shape.isNumberLike) then
    if shapes.all (·.any Shape.isWhole) then some int else some float
  else if shapes.all (·.any Shape.isBooleanLike) then some boolean
  else none

/-- The name of a union as the type of a field. -/
def Context.classify (cx : Context) (r : Ref) : Except Fault Json :=
  match cx.registry.get? r with
  | some name => .ok (.str name)
  | none =>
    match cx.graph.node? r with
    | some ⟨path, _, .union variants⟩ => do
      if variants.isEmpty then throw (.structural (.unionWithoutVariants path))
      let targets ← variants.mapM cx.graph.unwrap
      let shapes := targets.map fun t => cx.graph.shape? t.1
      match Category.ofShapes? shapes with
      | some category => cx.options.scalarName category.key
      | none =>
        if shapes.all (·.any Shape.isObject) then
          throw (.structural (.unregisteredObjectUnion path))
        else throw (.structural (.mixedUnion path))
    | _ => .error (.misuse .notUnion)

/-! ## Resolving -/

namespace Context

/-- The type of a node without wrappers, with `room` for so many lists inside each other. -/
def baseTypeWithin (cx : Context) (room : Nat) (r : Ref) : Compiling TypeExpr :=
  match cx.registry.get? r with
  | some name => pure (.named (.str name))
  | none =>
    match cx.graph.node? r with
    | none => throw (.misuse .missingNode)
    | some ⟨path, _, shape⟩ =>
      match shape with
      | .scalar base checks => return .named (← cx.options.scalarName (Shape.subtype base checks))
      | .list element => do
        if r ∈ (← get).active then throw (.structural (.listCycle path))
        match room with
        | 0 => throw (.structural (.listTooDeep path))
        | room + 1 =>
          if element = none then throw (.structural (.listWithoutElement path))
          Compiling.insideList r do
            let (inner, nullable) ← cx.graph.unwrap element
            let t ← baseTypeWithin cx room inner
            return .list (t.unlessNullable nullable)
      | .object _ => do
        let name ← cx.options.scalarName "json"
        Compiling.emit (.fallback path name)
        return .named name
      | .enumeration _ => return .named (← cx.options.scalarName "string")
      | .literal value =>
        match value.category with
        | some key => return .named (← cx.options.scalarName key)
        | none => do
          Compiling.emit (.unsupportedLiteral value path)
          return .named (← cx.options.scalarName "string")
      | .union _ => return .named (← cx.classify r)
      | .wrapper .. | .bare => do
        Compiling.emit (.unhandledShape shape.kindName path)
        return .named (← cx.options.scalarName "string")

def baseType (cx : Context) (r : Ref) : Compiling TypeExpr := cx.baseTypeWithin maxDepth r

def fieldType (cx : Context) (r : Ref) : Compiling TypeExpr := do
  let (inner, nullable) ← cx.graph.unwrap r
  let t ← cx.baseType inner
  return t.unlessNullable nullable

end Context

/-! ## How resolving ends -/

open Fault (bind_eq_ok bind_eq_error pure_eq_ok)

/-- The key under which the name of a node of this shape is looked up, if it has none of its own. A
union is classified instead. -/
def Shape.endKey? : Shape → Option String
  | scalar base checks => some (subtype base checks)
  | object _ => some "json"
  | literal value => some (value.category.getD "string")
  | union _ => none
  | enumeration _ | list _ | wrapper .. | bare => some "string"

/-- What is logged before the name of a node of this shape is looked up. -/
def Shape.warnings (path : String) (shape : Shape) : List Event :=
  match shape with
  | literal value => if value.category.isSome then [] else [.unsupportedLiteral value path]
  | wrapper .. | bare => [.unhandledShape shape.kindName path]
  | _ => []

namespace Context

variable {cx : Context} {r element : Ref} {path : String} {room : Nat} {w w' : Walk} {t : TypeExpr}
  {f : Fault}

/-- The path and the element of a list without a name. -/
def openList? (cx : Context) (r : Ref) : Option (String × Ref) :=
  match cx.registry.get? r, cx.graph.node? r with
  | none, some ⟨path, _, .list element⟩ => some (path, element)
  | _, _ => none

/-- The name that the type of any other node ends in. -/
def endName (cx : Context) (r : Ref) : Except Fault Json :=
  match cx.registry.get? r with
  | some name => .ok (.str name)
  | none => match cx.graph.shape? r with
    | none => .error (.misuse .missingNode)
    | some shape => match shape.endKey? with
      | some key => cx.options.scalarName key
      | none => cx.classify r

/-- What is logged before that name is looked up. -/
def warningsAt (cx : Context) (r : Ref) : List Event :=
  match cx.registry.get? r, cx.graph.node? r with
  | none, some ⟨path, _, shape⟩ => shape.warnings path
  | _, _ => []

/-- The fallback that the node at the end of a walk is the reason for. -/
def fallbackAt (cx : Context) (e : Ref) : List Event :=
  match cx.registry.get? e, cx.graph.node? e, cx.options.scalarName "json" with
  | none, some ⟨path, _, .object _⟩, .ok name => [.fallback path name]
  | _, _, _ => []

theorem openList?_eq_some_iff : cx.openList? r = some (path, element) ↔
    cx.registry.get? r = none ∧ ∃ metadata, cx.graph.node? r = some ⟨path, metadata, .list element⟩ := by
  unfold openList?
  constructor
  · split
    · rename_i hreg hn
      rintro ⟨⟩
      exact ⟨hreg, _, hn⟩
    · nofun
  · rintro ⟨hreg, metadata, hn⟩
    rw [hreg, hn]

theorem openList?_of_shape? (hreg : cx.registry.get? r = none)
    (hs : cx.graph.shape? r = some (.list element)) : ∃ path, cx.openList? r = some (path, element) := by
  obtain ⟨⟨path, metadata, _⟩, hn, rfl⟩ := Option.map_eq_some_iff.1 hs
  exact ⟨path, openList?_eq_some_iff.2 ⟨hreg, metadata, hn⟩⟩

theorem openList?_of_registered {name : String} (h : cx.registry.get? r = some name) :
    cx.openList? r = none := by
  rw [openList?, h]

theorem openList?_of_not_list {shape : Shape} (hs : cx.graph.shape? r = some shape)
    (hne : ∀ element, shape ≠ .list element) : cx.openList? r = none := by
  cases hl : cx.openList? r with
  | none => rfl
  | some p =>
    obtain ⟨path, element⟩ := p
    obtain ⟨-, metadata, hn⟩ := openList?_eq_some_iff.1 hl
    rw [Graph.shape?, hn] at hs
    cases hs
    exact absurd rfl (hne _)

/-- A name is registered, looked up in the scalar table, or that of a union. -/
theorem endName_cases (cx : Context) (r : Ref) :
    (∃ name, cx.registry.get? r = some name ∧ cx.endName r = .ok (.str name)) ∨
    cx.registry.get? r = none ∧
      (cx.graph.shape? r = none ∧ cx.endName r = .error (.misuse .missingNode) ∨
      (∃ shape key, cx.graph.shape? r = some shape ∧ shape.endKey? = some key ∧
        cx.endName r = cx.options.scalarName key) ∨
      ∃ variants, cx.graph.shape? r = some (.union variants) ∧ cx.endName r = cx.classify r) := by
  unfold endName
  cases cx.registry.get? r with
  | some name => exact .inl ⟨name, rfl, rfl⟩
  | none =>
    refine .inr ⟨rfl, ?_⟩
    cases cx.graph.shape? r with
    | none => exact .inl ⟨rfl, rfl⟩
    | some shape =>
      cases shape with
      | union variants => exact .inr (.inr ⟨variants, rfl, rfl⟩)
      | _ => exact .inr (.inl ⟨_, _, rfl, rfl, rfl⟩)

/-- The type of all but a list without a name is one name. -/
theorem baseTypeWithin_of_end (h : cx.openList? r = none) :
    cx.baseTypeWithin room r w = match cx.endName r with
      | .ok name => .ok (.named name) { w with log := w.log ++ (cx.warningsAt r ++ cx.fallbackAt r) }
      | .error f => .error f { w with log := w.log ++ cx.warningsAt r } := by
  have hname : ∀ (x : Except Fault Json) (w : Walk),
      (do return .named (← x) : Compiling TypeExpr) w = match x with
        | .ok name => .ok (.named name) { w with log := w.log ++ [] }
        | .error f => .error f { w with log := w.log ++ [] } := by
    intro x w
    rw [List.append_nil]
    cases x <;> rfl
  have hwarned : ∀ (e : Event) (x : Except Fault Json), (do
      Compiling.emit e
      return .named (← x) : Compiling TypeExpr) w = match x with
        | .ok name => .ok (.named name) { w with log := w.log ++ ([e] ++ []) }
        | .error f => .error f { w with log := w.log ++ [e] } := by
    intro e x
    cases x <;> rfl
  unfold baseTypeWithin endName warningsAt fallbackAt Graph.shape?
  cases hreg : cx.registry.get? r with
  | some name =>
    show _ = EStateM.Result.ok _ { w with log := w.log ++ [] }
    rw [List.append_nil]
    rfl
  | none =>
    cases hn : cx.graph.node? r with
    | none =>
      show _ = EStateM.Result.error _ { w with log := w.log ++ [] }
      rw [List.append_nil]
      rfl
    | some n =>
      obtain ⟨path, metadata, shape⟩ := n
      cases shape with
      | list element => rw [openList?, hreg, hn] at h; cases h
      | scalar | enumeration | union => exact hname _ w
      | wrapper | bare => exact hwarned _ _
      | literal value =>
        dsimp only [Option.map_some, Shape.endKey?, Shape.warnings]
        cases value.category with
        | some key => exact hname _ w
        | none => exact hwarned _ _
      | object =>
        dsimp only [Option.map_some, Shape.endKey?]
        cases cx.options.scalarName "json" with
        | ok name => rfl
        | error f => exact hname (.error f) w

def listType (cx : Context) (room : Nat) (element : Ref) : Compiling TypeExpr := do
  let (inner, nullable) ← cx.graph.unwrap element
  let t ← cx.baseTypeWithin room inner
  return .list (t.unlessNullable nullable)

/-- The type of a list without a name is found inside of it. -/
theorem baseTypeWithin_of_list (h : cx.openList? r = some (path, element)) :
    cx.baseTypeWithin room r w =
      if r ∈ w.active then .error (.structural (.listCycle path)) w
      else match room with
        | 0 => .error (.structural (.listTooDeep path)) w
        | room + 1 =>
          if element = none then .error (.structural (.listWithoutElement path)) w
          else Compiling.insideList r (cx.listType room element) w := by
  obtain ⟨hreg, metadata, hn⟩ := openList?_eq_some_iff.1 h
  rw [baseTypeWithin, hreg, hn]
  show (if r ∈ w.active then _ else _ : Compiling TypeExpr) w = _
  by_cases hactive : r ∈ w.active
  · rw [if_pos hactive, if_pos hactive]
    rfl
  · rw [if_neg hactive, if_neg hactive]
    cases room with
    | zero => rfl
    | succ room =>
      dsimp only
      by_cases hnone : element = none
      · rw [if_pos hnone, if_pos hnone]
        rfl
      · rw [if_neg hnone, if_neg hnone]
        rfl

theorem listType_eq_ok_iff : cx.listType room element w = .ok t w' ↔
    ∃ inner nullable typed, cx.graph.unwrap element = .ok (inner, nullable) ∧
      cx.baseTypeWithin room inner w = .ok typed w' ∧ t = .list (typed.unlessNullable nullable) := by
  unfold listType
  rw [bind_eq_ok]
  constructor
  · rintro ⟨⟨inner, nullable⟩, _, hlift, h⟩
    obtain ⟨hunwrap, rfl⟩ := Compiling.lift_eq_ok.1 hlift
    obtain ⟨typed, _, htyped, h⟩ := bind_eq_ok.1 h
    obtain ⟨rfl, rfl⟩ := pure_eq_ok.1 h
    exact ⟨inner, nullable, typed, hunwrap, htyped, rfl⟩
  · rintro ⟨inner, nullable, typed, hunwrap, htyped, rfl⟩
    exact ⟨_, w, Compiling.lift_eq_ok.2 ⟨hunwrap, rfl⟩, bind_eq_ok.2 ⟨typed, w', htyped, rfl⟩⟩

theorem listType_error_cases (h : cx.listType room element w = .error f w') :
    cx.graph.unwrap element = .error f ∨ ∃ inner nullable,
      cx.graph.unwrap element = .ok (inner, nullable) ∧
        cx.baseTypeWithin room inner w = .error f w' := by
  rcases bind_eq_error.1 h with h | ⟨⟨inner, nullable⟩, _, hlift, h⟩
  · exact .inl (Compiling.lift_eq_error.1 h).1
  · obtain ⟨hunwrap, rfl⟩ := Compiling.lift_eq_ok.1 hlift
    rcases bind_eq_error.1 h with h | ⟨_, _, -, h⟩
    · exact .inr ⟨inner, nullable, hunwrap, h⟩
    · cases h

theorem baseTypeWithin_list_eq_ok_iff (h : cx.openList? r = some (path, element)) :
    cx.baseTypeWithin room r w = .ok t w' ↔ r ∉ w.active ∧ element ≠ none ∧
      ∃ rest inner nullable typed v, room = rest + 1 ∧
        cx.graph.unwrap element = .ok (inner, nullable) ∧
        cx.baseTypeWithin rest inner { w with active := r :: w.active } = .ok typed v ∧
        t = .list (typed.unlessNullable nullable) ∧ w' = { v with active := v.active.tail } := by
  rw [baseTypeWithin_of_list h]
  by_cases hactive : r ∈ w.active
  · rw [if_pos hactive]
    exact iff_of_false nofun fun h => h.1 hactive
  · rw [if_neg hactive]
    cases room with
    | zero => exact iff_of_false nofun (by rintro ⟨-, -, _, _, _, _, _, ⟨⟩, -⟩)
    | succ room =>
      dsimp only
      by_cases hnone : element = none
      · rw [if_pos hnone]
        exact iff_of_false nofun fun h => h.2.1 hnone
      · rw [if_neg hnone, Compiling.insideList_eq_ok]
        constructor
        · rintro ⟨v, h, rfl⟩
          obtain ⟨inner, nullable, typed, hunwrap, htyped, rfl⟩ := listType_eq_ok_iff.1 h
          exact ⟨hactive, hnone, room, inner, nullable, typed, v, rfl, hunwrap, htyped, rfl, rfl⟩
        · rintro ⟨-, -, _, inner, nullable, typed, v, ⟨⟩, hunwrap, htyped, rfl, rfl⟩
          exact ⟨v, listType_eq_ok_iff.2 ⟨inner, nullable, typed, hunwrap, htyped, rfl⟩, rfl⟩

theorem baseTypeWithin_end_eq_ok_iff (h : cx.openList? r = none) :
    cx.baseTypeWithin room r w = .ok t w' ↔ ∃ name, cx.endName r = .ok name ∧ t = .named name ∧
      w' = { w with log := w.log ++ (cx.warningsAt r ++ cx.fallbackAt r) } := by
  rw [baseTypeWithin_of_end h]
  cases cx.endName r with
  | ok name => simp [eq_comm]
  | error f => simp

/-- How resolving a node fails. -/
theorem baseTypeWithin_error_cases (h : cx.baseTypeWithin room r w = .error f w') :
    (cx.openList? r = none ∧ cx.endName r = .error f) ∨
    ∃ path element, cx.openList? r = some (path, element) ∧
      (r ∈ w.active ∧ f = .structural (.listCycle path) ∨
      room = 0 ∧ f = .structural (.listTooDeep path) ∨
      f = .structural (.listWithoutElement path) ∨
      element ≠ none ∧ (cx.graph.unwrap element = .error f ∨
        ∃ rest inner nullable u, room = rest + 1 ∧
          cx.graph.unwrap element = .ok (inner, nullable) ∧
          cx.baseTypeWithin rest inner { w with active := r :: w.active } = .error f u)) := by
  cases hl : cx.openList? r with
  | none =>
    rw [baseTypeWithin_of_end hl] at h
    cases hname : cx.endName r with
    | ok name => rw [hname] at h; cases h
    | error f => rw [hname] at h; cases h; exact .inl ⟨rfl, rfl⟩
  | some p =>
    obtain ⟨path, element⟩ := p
    rw [baseTypeWithin_of_list hl] at h
    refine .inr ⟨path, element, rfl, ?_⟩
    split at h
    · rename_i hactive
      cases h
      exact .inl ⟨hactive, rfl⟩
    · cases room with
      | zero => cases h; exact .inr (.inl ⟨rfl, rfl⟩)
      | succ room =>
        dsimp only at h
        split at h
        · cases h; exact .inr (.inr (.inl rfl))
        · rename_i hnone
          obtain ⟨u, hinside⟩ := Compiling.insideList_eq_error h
          refine .inr (.inr (.inr ⟨hnone, (listType_error_cases hinside).imp_right ?_⟩))
          rintro ⟨inner, nullable, hunwrap, hinner⟩
          exact ⟨room, inner, nullable, u, rfl, hunwrap, hinner⟩

end Context

end ShapeSdl
