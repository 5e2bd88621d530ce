import ShapeSdl.Proofs.Faults
import ShapeSdl.Proofs.References
import Mathlib.Data.List.Forall2
import Mathlib.Data.Option.Basic

/-!
# Outlines that say the same

Where a schema stands, and how constants and references are written, makes no difference to what is
read from it.

* `Exchange` : what may be written for something else: the body of a definition for a reference to
  it, or a union of constants for an enum of them;
* `Outline.Recast` : an outline that says the same at other paths, with such exchanges in the fields
  of objects and the elements of lists;
* `Recast.holds` : the faults in it are of the same kinds.
-/

namespace ShapeSdl

/-- What may be written for something else. -/
inductive Exchange where
  /-- The body of a definition for a reference to it. -/
  | inlined (name : String)
  /-- A union of constants for an enum of them. -/
  | constants
deriving DecidableEq

/-- Whether a place asks for the node itself, or only for the type that it has as a field. -/
inductive Fit where
  | firm
  | loose

namespace Outline

/-- The outline of an enum, of a constant or of a union of constants that has these values. -/
inductive Constants : List Json → Outline → Prop
  | enumeration {values n h} (shape : n.shape = .enumeration values)
      (texts : values.all Json.isText = true) : Constants values (.leaf n h)
  | single {value n h} (shape : n.shape = .literal value) : Constants [value] (.leaf n h)
  | union {values path metadata os}
      (each : List.Forall₂ (fun o value => ∃ n h, o = .leaf n h ∧ n.shape = .literal value) os values) :
      Constants values (.union path metadata os)

/-- An outline that says the same, at other paths. Fields and elements may be exchanged. -/
inductive Recast (definitions : Definitions) (exchange : Exchange) : Fit → Outline → Outline → Prop
  | fault {fit f f'} (kind : f.isStructural = f'.isStructural) :
      Recast definitions exchange fit (.fault f) (.fault f')
  | refused {fit o o' f f'} (inside : Recast definitions exchange fit o o')
      (kind : f.isStructural = f'.isStructural) :
      Recast definitions exchange fit (.refused o f) (.refused o' f')
  | reference {fit ref path path'} :
      Recast definitions exchange fit (.reference ref path) (.reference ref path')
  | leaf {fit n n' h h'} (shape : n.shape = n'.shape) :
      Recast definitions exchange fit (.leaf n h) (.leaf n' h')
  | wrapper {fit path path' kind value o o'} (inside : Recast definitions exchange fit o o') :
      Recast definitions exchange fit (.wrapper path kind value o) (.wrapper path' kind value o')
  | list {fit path path' metadata metadata' o o'} (inside : Recast definitions exchange .loose o o') :
      Recast definitions exchange fit (.list path metadata o) (.list path' metadata' o')
  | union {fit path path' metadata metadata' os os'}
      (inside : List.Forall₂ (Recast definitions exchange .firm) os os') :
      Recast definitions exchange fit (.union path metadata os) (.union path' metadata' os')
  | object {fit path path' metadata metadata' fields fields'}
      (names : fields.map Prod.fst = fields'.map Prod.fst)
      (inside : List.Forall₂ (Recast definitions exchange .loose) (fields.map Prod.snd)
        (fields'.map Prod.snd)) :
      Recast definitions exchange fit (.object path metadata fields) (.object path' metadata' fields')
  | merge {fit path path' metadata metadata' os os'}
      (inside : List.Forall₂ (Recast definitions exchange .firm) os os') :
      Recast definitions exchange fit (.merge path metadata os) (.merge path' metadata' os')
  | inlined {name ref path body o'} (isInlined : exchange = .inlined name)
      (means : ref.referred? = some name) (defined : definitions.lookup name = some body)
      (inside : Recast definitions exchange .firm (body.outline (Definitions.path name)) o') :
      Recast definitions exchange .loose (.reference ref path) o'
  | constants {values o o'} (isConstants : exchange = .constants) (nonempty : values ≠ [])
      (simple : ∀ value ∈ values, value.category.isSome = true) (left : o.Constants values)
      (right : o'.Constants values) : Recast definitions exchange .loose o o'

theorem Constants.not_holds {values : List Json} {o : Outline} (h : o.Constants values) (f : Fault) :
    ¬ o.Holds f := by
  intro hf
  cases h with
  | enumeration | single => cases hf
  | union each =>
    cases hf with
    | union mem inside =>
      obtain ⟨_, -, _, _, rfl, -⟩ := exists_mem_right each mem
      cases inside

section
variable {definitions : Definitions} {exchange : Exchange} {fit : Fit} {o o' : Outline}

/-- The faults that stand in a recast outline are of the kinds of those in the outline. -/
theorem Recast.holds (hr : Recast definitions .constants fit o o') {f' : Fault} (h : o'.Holds f') :
    ∃ f, o.Holds f ∧ f.isStructural = f'.isStructural := by
  induction h generalizing o fit with
  | fault =>
    cases hr with
    | fault kind => exact ⟨_, .fault, kind⟩
    | constants _ _ _ _ right => exact absurd .fault (right.not_holds _)
    | inlined isInlined => cases isInlined
  | refused =>
    cases hr with
    | refused _ kind => exact ⟨_, .refused, kind⟩
    | constants _ _ _ _ right => exact absurd .refused (right.not_holds _)
    | inlined isInlined => cases isInlined
  | notText notText isMisuse =>
    cases hr with
    | reference => exact ⟨_, .notText notText isMisuse, rfl⟩
    | constants _ _ _ _ right => cases right
    | inlined isInlined => cases isInlined
  | inRefused inside ih =>
    cases hr with
    | refused hin _ =>
      obtain ⟨f, hf, kind⟩ := ih hin
      exact ⟨f, .inRefused hf, kind⟩
    | constants _ _ _ _ right => cases right
    | inlined isInlined => cases isInlined
  | wrapper inside ih =>
    cases hr with
    | wrapper hin =>
      obtain ⟨f, hf, kind⟩ := ih hin
      exact ⟨f, .wrapper hf, kind⟩
    | constants _ _ _ _ right => cases right
    | inlined isInlined => cases isInlined
  | list inside ih =>
    cases hr with
    | list hin =>
      obtain ⟨f, hf, kind⟩ := ih hin
      exact ⟨f, .list hf, kind⟩
    | constants _ _ _ _ right => cases right
    | inlined isInlined => cases isInlined
  | union mem inside ih =>
    cases hr with
    | union hall =>
      obtain ⟨v, hv, hin⟩ := exists_mem_left hall mem
      obtain ⟨f, hf, kind⟩ := ih hin
      exact ⟨f, .union hv hf, kind⟩
    | constants _ _ _ _ right => exact absurd (.union mem inside) (right.not_holds _)
    | inlined isInlined => cases isInlined
  | object mem inside ih =>
    cases hr with
    | object _ hall =>
      obtain ⟨_, hv, hin⟩ := exists_mem_left hall (List.mem_map_of_mem mem)
      obtain ⟨field, hfield, rfl⟩ := List.mem_map.1 hv
      obtain ⟨f, hf, kind⟩ := ih hin
      exact ⟨f, .object hfield hf, kind⟩
    | constants _ _ _ _ right => cases right
    | inlined isInlined => cases isInlined
  | merge mem inside ih =>
    cases hr with
    | merge hall =>
      obtain ⟨v, hv, hin⟩ := exists_mem_left hall mem
      obtain ⟨f, hf, kind⟩ := ih hin
      exact ⟨f, .merge hv hf, kind⟩
    | constants _ _ _ _ right => cases right
    | inlined isInlined => cases isInlined

end

end Outline

end ShapeSdl
