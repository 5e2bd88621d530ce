import ShapeSdl.Declaration

/-!
# Questions asked one after the other

* `Question`, `Answer` : what can be asked about the nodes of a graph, and what is answered. The
  registry and the scalar overrides may change between two questions;
* `Resolver` : what the questions are answered from, and what answering them has left behind;
* `Resolver.step` : the answer to a question, or why there is none, and the resolver after it.
-/

namespace ShapeSdl

/-- What can be asked, or told, between two answers. -/
inductive Question where
  | field (r : Ref)
  | base (r : Ref)
  | unwrap (r : Ref)
  | classify (r : Ref)
  | declare (name : String) (r : Ref)
  | register (r : Ref) (name : Option String)
  | setScalars (scalars : Json)

inductive Answer where
  | type (t : TypeExpr)
  | name (name : Json)
  | inner (r : Ref) (nullable : Bool)
  | declaration (d : Declaration)
  | done
deriving DecidableEq

/-- What questions are answered from, and the walk that the answers so far have left. -/
structure Resolver where
  cx : Context
  walk : Walk := {}

namespace Resolver

def answer (cx : Context) : Question → Compiling Answer
  | .field r => return .type (← cx.fieldType r)
  | .base r => return .type (← cx.baseType r)
  | .unwrap r => do
    let (inner, nullable) ← cx.graph.unwrap r
    return .inner inner nullable
  | .classify r => return .name (← cx.classify r)
  | .declare name r => return .declaration (← cx.declare name r)
  | .register .. | .setScalars _ => return .done

/-- What a question changes for those after it. -/
def tell (cx : Context) : Question → Context
  | .register r name => { cx with registry := cx.registry.register r name }
  | .setScalars scalars => { cx with options := { cx.options with scalars } }
  | _ => cx

def step (s : Resolver) (q : Question) : Except Fault Answer × Resolver :=
  match answer s.cx q s.walk with
  | .ok a walk => (.ok a, ⟨tell s.cx q, walk⟩)
  | .error f walk => (.error f, ⟨tell s.cx q, walk⟩)

end Resolver

end ShapeSdl
