import ShapeSdl.Declaration

/-!
# Compiling batches

A batch is a list of nodes by name. All names are registered before the first declaration, so that
fields may refer forward.

* `Options.batchRegistry` : the seed names, then the names of the batch;
* `Graph.referenced` : the node that a field refers to, through wrappers and lists;
* `Context.checkReferences` : the check of strict mode: every object that a field of a declared
  object refers to is registered;
* `compileBatch`, `compileSingle` : the document of a batch, and the declaration of one node under
  the seed names alone;
* `compileValues` : the document of a batch given as an object of values where nodes belong. No value
  can be declared, so there is one only if the batch is empty.
-/

namespace ShapeSdl

/-- Nodes by the names under which they are declared. -/
abbrev Batch := Entries String Ref

/-- The seed names and the names of a batch. A node takes the last name that it is given. -/
def Options.batchRegistry (o : Options) (batch : Batch) : Except Fault Registry :=
  return (← o.registry).update (batch.toList.map fun (name, r) => (r, some name))

/-- The node behind at most `room` wrappers and lists, none of them in `seen`. -/
def Graph.referencedWithin (g : Graph) (type field : String) (room : Nat) (seen : List Ref)
    (r : Ref) : Except Fault Ref :=
  match g.shape? r with
  | some (.wrapper _ next _) | some (.list next) =>
    if r ∈ seen then .error (.structural (.fieldTooDeep field type))
    else match room with
      | 0 => .error (.structural (.fieldTooDeep field type))
      | room + 1 => referencedWithin g type field room (r :: seen) next
  | _ => .ok r

def Graph.referenced (g : Graph) (type field : String) (r : Ref) : Except Fault Ref :=
  g.referencedWithin type field maxDepth [] r

namespace Context

/-- Refuses a field that refers to an object that is not registered. -/
def checkField (cx : Context) (type : String) (field : String × Ref) : Except Fault Unit := do
  let target ← cx.graph.referenced type field.1 field.2
  if cx.graph.isObject target && !cx.registry.contains target then
    throw (.unregisteredReference type field.1)

/-- Refuses the first field of a declared object that refers to an object without a name. -/
def checkReferences (cx : Context) (batch : Batch) : Except Fault Unit :=
  batch.toList.forM fun (type, r) =>
    match cx.graph.shape? r with
    | some (.object fields) => fields.toList.forM (cx.checkField type)
    | _ => .ok ()

end Context

def compileBatch (g : Graph) (o : Options) (batch : Batch) : Compiling Document := do
  let registry ← o.batchRegistry batch
  Compiling.emit (.batch batch.size registry.size o.strict)
  let cx : Context := ⟨g, registry, o⟩
  if o.strict.isTruthy then cx.checkReferences batch
  batch.toList.mapM fun (name, r) => cx.declare name r

/-- The declaration of one node under the seed names. Strict mode has no part in it. -/
def compileSingle (g : Graph) (o : Options) (name : String) (r : Ref) : Compiling Declaration := do
  let registry ← o.registry
  Compiling.emit (.single name registry.size)
  Context.declare ⟨g, registry, o⟩ name r

/-! ## Batches of values -/

/-- The number of seed names and different values together. Null may have a seed name already. -/
def Options.valuesRegistered (o : Options) (values : List Json) : Except Fault Nat := do
  let registry ← o.registry
  let fresh := values.filter fun v => !(v = .null && registry.contains none)
  return registry.size + Json.Item.distinct (fresh.map .value)

def compileValues (o : Options) (values : List (String × Json)) : Compiling Document := do
  let registered ← o.valuesRegistered (values.map Prod.snd)
  Compiling.emit (.batch values.length registered o.strict)
  match values with
  | [] => return []
  | (name, v) :: _ => throw (.structural (.notDeclarable name v.kindName))

end ShapeSdl
