import ShapeSdl.Fault
import ShapeSdl.Shape

/-!
# Walks through a graph

Resolving a type walks through the graph. A walk knows the lists it is inside of and logs what it
decides; both outlive a failure.

* `Event`, `Event.level`, `Event.message` : what is logged;
* `Walk` : the lists being walked through, and the log;
* `Compiling` : a computation that walks and may fail;
* `Compiling.insideList` : a computation inside one more list. However it ends, the list is left.
-/

namespace ShapeSdl

inductive Level where
  | debug
  | warning
deriving DecidableEq

inductive Event where
  /-- One declaration is compiled, with so many names registered. -/
  | single (name : String) (registered : Nat)
  /-- A batch of declarations is compiled. -/
  | batch (count registered : Nat) (strict : Json)
  /-- An object without a name is rendered under the name of any value. -/
  | fallback (path : String) (name : Json)
  | unsupportedLiteral (value : Json) (path : String)
  | unhandledShape (kind path : String)
deriving DecidableEq

namespace Event

def level : Event → Level
  | single .. | batch .. | fallback .. => .debug
  | unsupportedLiteral .. | unhandledShape .. => .warning

def message : Event → String
  | single name registered =>
    "Compiling " ++ name ++ " to SDL with " ++ toString registered ++ " registered types"
  | batch count registered strict =>
    "Compiling " ++ toString count ++ " schemas to SDL with " ++ toString registered ++
      " registered types (strict=" ++ strict.plain ++ ")"
  | fallback path name =>
    "Unregistered object schema " ++ describePath path ++ "falls back to " ++ name.plain
  | unsupportedLiteral value path =>
    "Unsupported literal value " ++ value.quoted ++ " " ++ describePath path ++ "resolved as String"
  | unhandledShape kind path =>
    "Unhandled schema node " ++ kind ++ " " ++ describePath path ++ "resolved as String"

end Event

/-- The lists being walked through, innermost first, and what has been logged. -/
structure Walk where
  active : List Ref := []
  log : List Event := []
deriving DecidableEq

abbrev Compiling := EStateM Fault Walk

namespace Compiling

instance : MonadLift (Except Fault) Compiling := ⟨MonadExcept.ofExcept⟩

def emit (e : Event) : Compiling Unit := modify fun w => { w with log := w.log ++ [e] }

/-- Walks inside one more list, and leaves it in the end. -/
def insideList {α : Type} (r : Ref) (x : Compiling α) : Compiling α := fun w =>
  match x { w with active := r :: w.active } with
  | .ok a w' => .ok a { w' with active := w'.active.tail }
  | .error e w' => .error e { w' with active := w'.active.tail }

/-- A fault of `x`, told otherwise. -/
def mapFault {α : Type} (f : Fault → Fault) (x : Compiling α) : Compiling α := fun w =>
  match x w with
  | .ok a w' => .ok a w'
  | .error e w' => .error (f e) w'

section
variable {α : Type} {x : Compiling α} {w w' : Walk} {a : α} {f : Fault} {r : Ref}

theorem lift_eq_ok {e : Except Fault α} :
    (liftM e : Compiling α) w = .ok a w' ↔ e = .ok a ∧ w = w' := by
  cases e with
  | error f => exact ⟨nofun, nofun⟩
  | ok b =>
    show (Pure.pure b : Compiling α) w = .ok a w' ↔ _
    rw [Fault.pure_eq_ok]
    simp

theorem lift_eq_error {e : Except Fault α} :
    (liftM e : Compiling α) w = .error f w' ↔ e = .error f ∧ w = w' := by
  cases e with
  | ok a => exact ⟨nofun, nofun⟩
  | error e =>
    show (throw e : Compiling α) w = .error f w' ↔ _
    constructor
    · rintro ⟨⟩
      exact ⟨rfl, rfl⟩
    · rintro ⟨⟨⟩, rfl⟩
      rfl

theorem insideList_eq_ok : insideList r x w = .ok a w' ↔
    ∃ u, x { w with active := r :: w.active } = .ok a u ∧
      w' = { u with active := u.active.tail } := by
  unfold insideList
  cases x { w with active := r :: w.active } with
  | ok b u =>
    constructor
    · rintro ⟨⟩
      exact ⟨u, rfl, rfl⟩
    · rintro ⟨_, ⟨⟩, rfl⟩
      rfl
  | error f u => exact ⟨nofun, fun ⟨_, h, _⟩ => nomatch h⟩

theorem insideList_eq_error (h : insideList r x w = .error f w') :
    ∃ u, x { w with active := r :: w.active } = .error f u := by
  unfold insideList at h
  cases hx : x { w with active := r :: w.active } with
  | ok a u => rw [hx] at h; cases h
  | error e u => rw [hx] at h; cases h; exact ⟨u, rfl⟩

theorem mapFault_eq_ok {g : Fault → Fault} : mapFault g x w = .ok a w' ↔ x w = .ok a w' := by
  unfold mapFault
  cases x w with
  | ok b u => rfl
  | error e u => exact ⟨nofun, nofun⟩

theorem mapFault_eq_error {g : Fault → Fault} (h : mapFault g x w = .error f w') :
    ∃ f', x w = .error f' w' ∧ f = g f' := by
  unfold mapFault at h
  cases hx : x w with
  | ok a u => rw [hx] at h; cases h
  | error e u => rw [hx] at h; cases h; exact ⟨e, rfl, rfl⟩

end

end Compiling

end ShapeSdl
