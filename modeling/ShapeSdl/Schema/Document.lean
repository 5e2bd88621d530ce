import ShapeSdl.Batch
import ShapeSdl.Schema.Definition
import ShapeSdl.TypeName

/-!
# Reading documents

* `Json.definitions` : the definitions of a document, comments left out;
* `Graph.isDeclarable` : whether a node becomes a declaration of its own: objects, enums, and unions
  of objects do, all else is written where it is used;
* `Graph.declared` : the definitions that become declarations, by their type names. A definition
  that only hands on the node of another one does not;
* `readDocument` : the batch of a document: its definitions, then its root;
* `Session.read` : the batch of the next document of a session, and the session after it;
* `Compilation.ofSchema` : how reading a document in a new session and compiling its batch ends, and
  what is logged.
-/

namespace ShapeSdl

def Json.definitionContainer (schema : Json) : Json :=
  let defs := (schema.get? "$defs").getD .null
  if defs.isTruthy then defs
  else
    let others := (schema.get? "definitions").getD .null
    if others.isTruthy then others else .obj []

/-- Whether an entry of the container is a comment. -/
def Json.isComment (definition : String × Json) : Bool :=
  match definition with
  | (_, .str _) => true
  | (name, _) => Text.startsWith "_comment" name

def Json.definitions (schema : Json) : Except Fault Definitions := do
  let _ ← schema.entries
  let container ← schema.definitionContainer.entries
  return container.filter fun d => !Json.isComment d

/-- Whether a node becomes a declaration of its own. -/
def Graph.isDeclarable (g : Graph) (id : NodeId) : Bool :=
  match g.shape? (some id) with
  | some (.union variants) => !variants.isEmpty && variants.all g.isObject
  | some (.object _) | some (.enumeration _) => true
  | _ => false

/-- Whether a node was read from the definition of that name. -/
def Graph.isOwn (g : Graph) (definition : String × NodeId) : Bool :=
  (g.node? (some definition.2)).any (·.path = Definitions.path definition.1)

/-- The definitions that become declarations, by their type names. -/
def Graph.declared (g : Graph) (nodes : List (String × NodeId)) : List (String × Ref) :=
  let owned := (nodes.filter g.isOwn).map Prod.snd
  (nodes.filter fun d => (g.isOwn d || !owned.contains d.2) && g.isDeclarable d.2).map
    fun d => (TypeName.pascal d.1, some d.2)

def readDefinitions (definitions : Definitions) : Reading (List (String × NodeId)) :=
  definitions.mapM fun (name, _) => do return (name, ← readDefinition definitions definitions name)

/-- The batch of a document: its declared definitions, then its root if that has a name and
`properties`. -/
def readDocument (schema : Json) (root : String) : Reading Batch := do
  modify Session.begin
  let definitions ← schema.definitions
  let nodes ← readDefinitions definitions
  let batch : Batch := .ofList ((← get).graph.declared nodes)
  if (schema.get? "properties").isSome ∧ root ≠ "" then
    let follow := followReference definitions (readDefinition definitions definitions)
    let id ← readSchema follow schema "#"
    return batch.put (TypeName.pascal root) (some id)
  else return batch

/-- The batch of the next document, or why there is none, and the session after it. -/
def Session.read (s : Session) (schema : Json) (root : String) : Except Fault Batch × Session :=
  match readDocument schema root s with
  | .ok batch s' => (.ok batch, s')
  | .error f s' => (.error f, s')

/-! ## From a document to declarations -/

/-- How a compilation ended, and its log. -/
structure Compilation where
  result : Except Fault Document
  log : List Event

def Compilation.ofSchema (schema : Json) (root : String) (o : Options) : Compilation :=
  match Session.read {} schema root with
  | (.error e, _) => ⟨.error e, []⟩
  | (.ok batch, session) =>
    match compileBatch session.graph o batch {} with
    | .error e walk => ⟨.error e, walk.log⟩
    | .ok document walk => ⟨.ok document, walk.log⟩

end ShapeSdl
