import ShapeSdl.Fault
import ShapeSdl.Shape

/-!
# The registry of type names

* `Registry` : names of nodes, in the order in which the nodes were first registered. A node is
  found by identity, never because it looks like another one;
* `Registry.register`, `Registry.update` : the last name counts, the place is the first one;
* `Registry.get?`, `Registry.contains` : a node may be registered without a name. It is then
  contained, and yet has no name (`get?_register`, `contains_register`);
* `Registry.listing` : the names on one line.
-/

namespace ShapeSdl

/-- The names of nodes, in order of first registration. -/
structure Registry where
  entries : Entries Ref (Option String)
deriving DecidableEq

namespace Registry

def empty : Registry := ⟨∅⟩

instance : Inhabited Registry := ⟨empty⟩
instance : EmptyCollection Registry := ⟨empty⟩

def register (r : Registry) (node : Ref) (name : Option String) : Registry :=
  ⟨r.entries.put node name⟩

/-- Registers all pairs in order. -/
def update (r : Registry) (pairs : List (Ref × Option String)) : Registry :=
  ⟨r.entries.putAll pairs⟩

def ofPairs (pairs : List (Ref × Option String)) : Registry := empty.update pairs

def toList (r : Registry) : List (Ref × Option String) := r.entries.toList

def copy (r : Registry) : Registry := ofPairs r.toList

/-- The name of a node, if it has been registered with one. -/
def get? (r : Registry) (node : Ref) : Option String := (r.entries.get? node).join

/-- Whether a node has been registered, with or without a name. -/
def contains (r : Registry) (node : Ref) : Bool := r.entries.contains node

def size (r : Registry) : Nat := r.entries.size

/-- All names on one line. Every node must have one. -/
def listing (r : Registry) : Except Fault String :=
  match r.entries.values.mapM id with
  | some names => .ok ("TypeRegistry([" ++ ", ".intercalate names ++ "])")
  | none => .error (.misuse .missingName)

theorem get?_register (r : Registry) (node j : Ref) (name : Option String) :
    (r.register node name).get? j = if j = node then name else r.get? j := by
  simp only [get?, register, Entries.get?_put]
  split <;> rfl

theorem contains_register (r : Registry) (node j : Ref) (name : Option String) :
    (r.register node name).contains j = (decide (j = node) || r.contains j) := by
  simp only [contains, register, Entries.contains, Entries.get?_put]
  by_cases h : j = node <;> simp [h]

/-- The pairs of a registry leave that registry. -/
theorem ofPairs_toList (r : Registry) : ofPairs r.toList = r :=
  congrArg Registry.mk r.entries.ofList_toList

@[simp] theorem get?_empty (node : Ref) : (∅ : Registry).get? node = none := rfl

end Registry

end ShapeSdl
