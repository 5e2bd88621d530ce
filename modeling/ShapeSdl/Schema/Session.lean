import ShapeSdl.Fault
import ShapeSdl.Shape

/-!
# Sessions of reading

A session reads one document after the other into one graph. What a failed document leaves behind
stays in the graph and is reached by nothing.

* `Session` : the graph so far, and of the present document the definitions that have a node, those
  whose bodies have been entered, the objects that are still being read and the merges so far;
* `Session.add`, `Session.enter`, `Session.remember`, `Session.openObject`, `Session.closeObject`,
  `Session.addMerged` : what reading does to a session;
* `Reading` : a computation that reads and may fail. The session after a failure is still a value;
* `Reading.addNode`, `Reading.nullableIf`, `Reading.unionOf` : a new node, a wrapper around a node
  that admits null, and a union of several nodes.
-/

namespace ShapeSdl

/-- A merged object, with the nodes of its parts and the objects that were unfinished just then. -/
structure Merge where
  node : NodeId
  parts : List NodeId
  unfinished : List NodeId
deriving DecidableEq

/-- The graph read so far, and how far the definitions of the present document have been read. -/
structure Session where
  graph : Graph := ∅
  /-- The definitions that have a node. -/
  known : Entries String NodeId := ∅
  /-- The definitions whose bodies have been entered, the last one first. -/
  entered : List String := []
  /-- The objects that have a node and are still being read, the innermost one first. -/
  unfinished : List NodeId := []
  /-- The merged objects, the last one first. -/
  merges : List Merge := []
deriving DecidableEq

namespace Session

/-- The session at the beginning of a document: the graph stays, no definition has been read. -/
def begin (s : Session) : Session := { graph := s.graph }

def add (s : Session) (n : Node) : Session := { s with graph := s.graph.add n }

/-- The session in which the body of a definition is entered. -/
def enter (s : Session) (name : String) : Session := { s with entered := name :: s.entered }

def remember (s : Session) (name : String) (id : NodeId) : Session :=
  { s with known := s.known.put name id }

/-- The session in which an object definition has its node, and its fields are still to be read. -/
def openObject (s : Session) (name path : String) (metadata : List (String × Json)) : Session :=
  { (s.add ⟨path, metadata, .object ∅⟩).remember name s.graph.size with
    unfinished := s.graph.size :: s.unfinished }

/-- The session in which the innermost unfinished object gets its fields. -/
def closeObject (s : Session) (id : NodeId) (fields : Entries String Ref) : Session :=
  { s with graph := s.graph.setShape id (.object fields), unfinished := s.unfinished.tail }

def addMerged (s : Session) (path : String) (metadata : List (String × Json))
    (fields : Entries String Ref) (parts : List NodeId) : Session :=
  { s.add ⟨path, metadata, .object fields⟩ with
    merges := ⟨s.graph.size, parts, s.unfinished⟩ :: s.merges }

end Session

/-- A computation that reads schemas into a session. -/
abbrev Reading := EStateM Fault Session

namespace Reading

instance : MonadLift (Except Fault) Reading := ⟨MonadExcept.ofExcept⟩

def addNode (path : String) (metadata : List (String × Json)) (shape : Shape) : Reading NodeId :=
  modifyGet fun s => (s.graph.size, s.add ⟨path, metadata, shape⟩)

/-- Adds an object that has the fields of its parts. -/
def addMerged (path : String) (metadata : List (String × Json)) (fields : Entries String Ref)
    (parts : List NodeId) : Reading NodeId :=
  modifyGet fun s => (s.graph.size, s.addMerged path metadata fields parts)

def enter (name : String) : Reading Unit := modify fun s => s.enter name

def remember (name : String) (id : NodeId) : Reading Unit := modify fun s => s.remember name id

def openObject (name path : String) (metadata : List (String × Json)) : Reading NodeId :=
  modifyGet fun s => (s.graph.size, s.openObject name path metadata)

def closeObject (id : NodeId) (fields : Entries String Ref) : Reading Unit :=
  modify fun s => s.closeObject id fields

/-- The node itself, or in a wrapper that admits null. -/
def nullableIf (nullable : Bool) (path : String) (id : NodeId) : Reading NodeId :=
  if nullable then addNode path [] (.nullable id) else pure id

/-- The only variant, or a union of the variants. -/
def unionOf (path : String) (metadata : List (String × Json)) : List NodeId → Reading NodeId
  | [id] => pure id
  | ids => addNode path metadata (.union (ids.map some))

end Reading

end ShapeSdl
