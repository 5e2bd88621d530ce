import ShapeSdl.Registry

/-!
# Several registries side by side

* `Workspace` : registries in the order in which they were made, and which of them each name stands
  for;
* `Command`, `Reply` : what can be asked of them;
* `Workspace.step` : the reply to a command and the registries after it. A registry that is made is
  a new one, also a copy. One that is made from another one, or updated from it, takes over its nodes
  and names and nothing else.
-/

namespace ShapeSdl.Registry

/-- Where the nodes and names of a new or updated registry come from. -/
inductive Source where
  | nothing
  | pairs (pairs : List (Ref × Option String))
  | mapping (names : Entries Ref (Option String))
  | registry (name : String)

inductive Command where
  | create (registry : String) (source : Source)
  | register (registry : String) (node : Ref) (name : Option String)
  | update (registry : String) (source : Source)
  | get (registry : String) (node : Ref)
  | contains (registry : String) (node : Ref)
  | size (registry : String)
  | listing (registry : String)
  | copy (registry target : String)

inductive Reply where
  | done
  | name (name : Option String)
  | truth (value : Bool)
  | number (value : Nat)
  | text (value : String)
deriving DecidableEq

/-- Registries by their positions, and the positions that names stand for. -/
structure Workspace where
  places : Entries String Nat := ∅
  registries : List Registry := []

namespace Workspace

instance : EmptyCollection Workspace := ⟨{}⟩

/-- The registry at the position of a name. -/
def find? (w : Workspace) (name : String) : Option Registry :=
  (w.places.get? name).bind fun place => w.registries[place]?

/-- The registry of a name; one that has not been made is empty. -/
def find (w : Workspace) (name : String) : Registry := (w.find? name).getD ∅

/-- The names with their registries, in the order in which the names were first given. -/
def toList (w : Workspace) : List (String × Registry) :=
  w.places.keys.map fun name => (name, w.find name)

def make (w : Workspace) (name : String) (r : Registry) : Workspace :=
  ⟨w.places.put name w.registries.length, w.registries ++ [r]⟩

/-- Changes the registry of a name where it is; one that has not been made is made. -/
def change (w : Workspace) (name : String) (f : Registry → Registry) : Workspace :=
  match w.places.get? name with
  | some place => { w with registries := w.registries.modify place f }
  | none => w.make name (f ∅)

def pairsOf (w : Workspace) : Source → List (Ref × Option String)
  | .nothing => []
  | .pairs pairs => pairs
  | .mapping names => names.toList
  | .registry name => (w.find name).toList

def step (w : Workspace) : Command → Except Fault Reply × Workspace
  | .create registry source => (.ok .done, w.make registry (ofPairs (w.pairsOf source)))
  | .register registry node name => (.ok .done, w.change registry (·.register node name))
  | .update registry source => (.ok .done, w.change registry (·.update (w.pairsOf source)))
  | .get registry node => (.ok (.name ((w.find registry).get? node)), w)
  | .contains registry node => (.ok (.truth ((w.find registry).contains node)), w)
  | .size registry => (.ok (.number (w.find registry).size), w)
  | .listing registry => ((w.find registry).listing.map .text, w)
  | .copy registry target => (.ok .done, w.make target (w.find registry).copy)

end Workspace

end ShapeSdl.Registry
