import ShapeSdl.FieldType
import ShapeSdl.Proofs.Reads
import Mathlib.Data.List.Forall2

/-!
# Types by rules

* `Graph.Unwraps g r e nullable` : the wrappers around `r` hold `e`, and one of them admits null or
  none does;
* `Graph.EndsAt g named r e` : the walk from `r` through wrappers and lists ends at `e`. It does not
  enter the lists that are `named`;
* `Graph.scalarKey?` : the key of the scalar table for a node that has no name of its own;
* `Context.Names`, `Context.HasBase`, `Context.HasType` : the name that a type gives to the node at
  its end, the types of nodes and those of fields;
* `Context.fieldType_sound` : the type that a field resolves to is one by the rules, and a fallback
  is logged for an object without a name only.
-/

namespace ShapeSdl

open Fault (bind_eq_ok pure_eq_ok)

/-! ## What is logged -/

def Event.isFallback : Event → Bool
  | fallback .. => true
  | _ => false

theorem Event.isFallback_of_level {e : Event} (h : e.level = .warning) : e.isFallback = false := by
  cases e <;> first | rfl | cases h

/-- From one walk to a later one, all that has been logged in between is as `P` says. -/
def Walk.Logs (P : Event → Prop) (w w' : Walk) : Prop :=
  ∃ events, w'.log = w.log ++ events ∧ ∀ e ∈ events, P e

namespace Walk.Logs

variable {P Q : Event → Prop} {w u w' : Walk}

theorem refl (P : Event → Prop) (w : Walk) : w.Logs P w := ⟨[], by simp, by simp⟩

theorem trans (h : w.Logs P u) (h' : u.Logs P w') : w.Logs P w' := by
  obtain ⟨events, he, hp⟩ := h
  obtain ⟨events', he', hp'⟩ := h'
  refine ⟨events ++ events', by rw [he', he, List.append_assoc], ?_⟩
  exact List.forall_mem_append.2 ⟨hp, hp'⟩

theorem imp (h : w.Logs P w') (hpq : ∀ e, P e → Q e) : w.Logs Q w' := by
  obtain ⟨events, he, hp⟩ := h
  exact ⟨events, he, fun e hmem => hpq e (hp e hmem)⟩

theorem emit {e : Event} (he : P e) (h : Compiling.emit e w = .ok () w') : w.Logs P w' := by
  cases h
  exact ⟨[e], rfl, List.forall_mem_singleton.2 he⟩

end Walk.Logs

theorem Compiling.mapM_ok {α β : Type} {f : α → Compiling β} {R : α → β → Prop}
    {P : α → Event → Prop} {l : List α} {bs : List β} {w w' : Walk}
    (hf : ∀ a ∈ l, ∀ b u u', f a u = .ok b u' → R a b ∧ u.Logs (P a) u')
    (h : l.mapM f w = .ok bs w') :
    List.Forall₂ R l bs ∧ w.Logs (fun e => ∃ a ∈ l, P a e) w' := by
  induction l generalizing bs w with
  | nil =>
    cases h
    exact ⟨.nil, .refl _ _⟩
  | cons a rest ih =>
    rw [List.mapM_cons, bind_eq_ok] at h
    obtain ⟨b, u, hb, h⟩ := h
    rw [bind_eq_ok] at h
    obtain ⟨bs', v, hrest, h⟩ := h
    rw [pure_eq_ok] at h
    obtain ⟨rfl, rfl⟩ := h
    obtain ⟨hr, hlog⟩ := hf a List.mem_cons_self b _ _ hb
    obtain ⟨hrs, hlogs⟩ := ih (fun a ha => hf a (List.mem_cons_of_mem _ ha)) hrest
    refine ⟨.cons hr hrs, (hlog.imp fun e he => ⟨a, List.mem_cons_self, he⟩).trans ?_⟩
    exact hlogs.imp fun e ⟨a, ha, he⟩ => ⟨a, List.mem_cons_of_mem _ ha, he⟩

/-! ## Through wrappers and lists -/

namespace Graph

theorem shape?_of_node? {g : Graph} {r : Ref} {path : String} {metadata : List (String × Json)}
    {shape : Shape} (h : g.node? r = some ⟨path, metadata, shape⟩) : g.shape? r = some shape := by
  rw [shape?, h]
  rfl

def isWrapper (g : Graph) (r : Ref) : Bool :=
  match g.shape? r with
  | some (.wrapper ..) => true
  | _ => false

inductive Unwraps (g : Graph) : Ref → Ref → Bool → Prop
  | here {r} (bare : g.isWrapper r = false) : Unwraps g r r false
  | wrapper {r kind inner value e nullable} (node : g.shape? r = some (.wrapper kind inner value))
      (onward : Unwraps g inner e nullable) : Unwraps g r e (kind.isNullable || nullable)

/-- The next node of a walk through wrappers and lists, if it goes on. -/
def next? (g : Graph) (named : Ref → Bool) (r : Ref) : Option Ref :=
  match g.shape? r with
  | some (.wrapper _ inner _) => some inner
  | some (.list element) => if named r then none else some element
  | _ => none

inductive EndsAt (g : Graph) (named : Ref → Bool) : Ref → Ref → Prop
  | here {r} (stays : g.next? named r = none) : EndsAt g named r r
  | step {r next e} (goes : g.next? named r = some next) (onward : EndsAt g named next e) :
      EndsAt g named r e

variable {g : Graph} {named : Ref → Bool} {r e e' : Ref} {nullable : Bool}

theorem EndsAt.unique (h : g.EndsAt named r e) (h' : g.EndsAt named r e') : e = e' := by
  induction h with
  | here stays =>
    cases h' with
    | here => rfl
    | step goes => cases stays.symm.trans goes
  | step goes _ ih =>
    cases h' with
    | here stays => cases stays.symm.trans goes
    | step goes' onward => cases goes.symm.trans goes'; exact ih onward

/-- A walk that ends at an object has not passed a list by. -/
theorem EndsAt.of_isObject (h : g.EndsAt named r e) (ho : g.isObject e = true)
    (named' : Ref → Bool) (hn : ∀ r, named' r = true → named r = true) :
    g.EndsAt named' r e := by
  induction h with
  | here =>
    obtain ⟨fields, hs⟩ := isObject_iff.1 ho
    refine .here ?_
    rw [Graph.next?, hs]
  | @step r next e goes _ ih =>
    refine .step ?_ (ih ho)
    unfold Graph.next? at goes ⊢
    cases hs : g.shape? r with
    | none => rw [hs] at goes; cases goes
    | some shape =>
      rw [hs] at goes
      cases shape with
      | wrapper => exact goes
      | list element =>
        dsimp only at goes ⊢
        split at goes
        · cases goes
        · rwa [if_neg fun h => ‹¬ named r = true› (hn r h)]
      | _ => cases goes

theorem Unwraps.isWrapper (h : g.Unwraps r e nullable) : g.isWrapper e = false := by
  induction h with
  | here bare => exact bare
  | wrapper _ _ ih => exact ih

theorem Unwraps.endsAt {i : Ref} (h : g.Unwraps r i nullable) (he : g.EndsAt named i e) :
    g.EndsAt named r e := by
  induction h with
  | here => exact he
  | wrapper node _ ih => exact .step (by rw [Graph.next?, node]) (ih he)

theorem isWrapper_of_node? (h : ∀ path metadata kind inner value,
    g.node? r ≠ some ⟨path, metadata, .wrapper kind inner value⟩) : g.isWrapper r = false := by
  unfold Graph.isWrapper Graph.shape?
  cases hn : g.node? r with
  | none => rfl
  | some n =>
    obtain ⟨path, metadata, shape⟩ := n
    cases shape <;> first | rfl | exact absurd hn (h _ _ _ _ _)

theorem unwraps_of_unwrapWithin {g : Graph} : ∀ {room : Nat} {seen : List Ref}
    {before after : Bool} {r e : Ref}, g.unwrapWithin room seen before r = .ok (e, after) →
      ∃ nullable, g.Unwraps r e nullable ∧ after = (before || nullable) := by
  intro room seen before after r e h
  unfold unwrapWithin at h
  split at h
  · rename_i hn
    split at h
    · cases h
    · cases room with
      | zero => cases h
      | succ room =>
        dsimp only at h
        split at h
        · cases h
        · obtain ⟨nullable, hu, rfl⟩ := unwraps_of_unwrapWithin h
          exact ⟨_, .wrapper (shape?_of_node? hn) hu, Bool.or_assoc _ _ _⟩
  · rename_i hbare
    cases h
    exact ⟨false, .here (isWrapper_of_node? hbare), (Bool.or_false _).symm⟩

theorem unwraps_of_unwrap {g : Graph} {r e : Ref} {nullable : Bool}
    (h : g.unwrap r = .ok (e, nullable)) : g.Unwraps r e nullable := by
  obtain ⟨n, hu, hn⟩ := unwraps_of_unwrapWithin h
  rwa [hn, Bool.false_or]

/-- The key of the scalar table for a node that has no name of its own, if the table has to do with
it. -/
def scalarKey? (g : Graph) (r : Ref) : Option String :=
  match g.shape? r with
  | some (.scalar base checks) => some (Shape.subtype base checks)
  | some (.object _) => some "json"
  | some (.enumeration _) | some .bare => some "string"
  | some (.literal value) => some (value.category.getD "string")
  | some (.union variants) => match variants.mapM g.unwrap with
    | .ok targets => (Category.ofShapes? (targets.map fun t => g.shape? t.1)).map Category.key
    | .error _ => none
  | some (.wrapper ..) | some (.list _) | none => none

end Graph

/-! ## The rules -/

namespace Context

def isNamed (cx : Context) (r : Ref) : Bool := (cx.registry.get? r).isSome

/-- The name that a type gives to the node at its end: its own, or one of the scalar table. -/
inductive Names (cx : Context) (r : Ref) : Json → Prop
  | registered {name} (registered : cx.registry.get? r = some name) : Names cx r (.str name)
  | scalar {key name} (unnamed : cx.registry.get? r = none)
      (keyed : cx.graph.scalarKey? r = some key) (written : cx.options.scalarName key = .ok name) :
      Names cx r name

inductive HasBase (cx : Context) : Ref → TypeExpr → Prop
  | named {r name} (bare : cx.graph.isWrapper r = false) (names : cx.Names r name) :
      HasBase cx r (.named name)
  | list {r element inner nullable t} (unnamed : cx.registry.get? r = none)
      (node : cx.graph.shape? r = some (.list element))
      (inside : cx.graph.Unwraps element inner nullable) (type : HasBase cx inner t) :
      HasBase cx r (.list (t.unlessNullable nullable))

inductive HasType (cx : Context) : Ref → TypeExpr → Prop
  | intro {r inner nullable t} (inside : cx.graph.Unwraps r inner nullable)
      (type : cx.HasBase inner t) : HasType cx r (t.unlessNullable nullable)

/-- The walk from a reference ends at an object that has no name. -/
def FallsBack (cx : Context) (r : Ref) : Prop :=
  ∃ e, cx.graph.EndsAt cx.isNamed r e ∧ cx.registry.get? e = none ∧ cx.graph.isObject e = true

def MayLog (cx : Context) (r : Ref) (e : Event) : Prop := e.isFallback = true → cx.FallsBack r

end Context

def TypeExpr.innermost : TypeExpr → Json
  | named name => name
  | list t | required t => t.innermost

@[simp] theorem TypeExpr.innermost_unlessNullable (nullable : Bool) (t : TypeExpr) :
    (t.unlessNullable nullable).innermost = t.innermost := by
  cases nullable <;> rfl

namespace Context

variable {cx : Context} {r : Ref} {t : TypeExpr} {name : Json} {w w' : Walk}

theorem Names.eq_of_registered (h : cx.Names r name) {n : String}
    (hn : cx.registry.get? r = some n) : name = .str n := by
  cases h with
  | registered registered => cases hn.symm.trans registered; rfl
  | scalar unnamed => cases hn.symm.trans unnamed

/-- A list has a name of its own or is written as one. -/
theorem Names.next?_eq_none (h : cx.Names r name) (hr : cx.graph.isWrapper r = false) :
    cx.graph.next? cx.isNamed r = none := by
  unfold Graph.isWrapper at hr
  unfold Graph.next?
  cases hs : cx.graph.shape? r with
  | none => rfl
  | some shape =>
    rw [hs] at hr
    cases shape with
    | wrapper => cases hr
    | list element =>
      cases h with
      | registered hreg =>
        dsimp only
        rw [isNamed, hreg]
        rfl
      | scalar _ keyed =>
        rw [Graph.scalarKey?, hs] at keyed
        cases keyed
    | _ => rfl

/-- The name inside a type is that of the node at the end of the walk. -/
theorem HasBase.endsAt (h : cx.HasBase r t) :
    ∃ e, cx.graph.EndsAt cx.isNamed r e ∧ cx.Names e t.innermost := by
  induction h with
  | named bare names => exact ⟨_, .here (names.next?_eq_none bare), names⟩
  | @list r element inner nullable t unnamed node inside _ ih =>
    obtain ⟨e, he, hn⟩ := ih
    refine ⟨e, .step ?_ (inside.endsAt he), ?_⟩
    · rw [Graph.next?, node]
      dsimp only
      rw [isNamed, unnamed]
      rfl
    · rwa [TypeExpr.innermost, TypeExpr.innermost_unlessNullable]

theorem HasType.endsAt (h : cx.HasType r t) :
    ∃ e, cx.graph.EndsAt cx.isNamed r e ∧ cx.Names e t.innermost := by
  cases h with
  | intro inside type =>
    obtain ⟨e, he, hn⟩ := type.endsAt
    exact ⟨e, inside.endsAt he, by rwa [TypeExpr.innermost_unlessNullable]⟩

/-! ## Resolving follows the rules -/

theorem classify_names (hreg : cx.registry.get? r = none) (h : cx.classify r = .ok name) :
    cx.Names r name := by
  unfold classify at h
  rw [hreg] at h
  dsimp only at h
  split at h
  · rename_i path metadata variants hn
    split at h
    · cases h
    · cases ht : variants.mapM cx.graph.unwrap with
      | error f => rw [ht] at h; cases h
      | ok targets =>
        rw [ht] at h
        dsimp only [bind, Except.bind] at h
        split at h
        · rename_i category hc
          refine .scalar hreg ?_ h
          rw [Graph.scalarKey?, Graph.shape?_of_node? hn]
          dsimp only
          rw [ht]
          dsimp only
          rw [hc]
          rfl
        · split at h <;> cases h
  · cases h

theorem next?_of_openList? {path : String} {element : Ref}
    (h : cx.openList? r = some (path, element)) :
    cx.graph.next? cx.isNamed r = some element := by
  obtain ⟨hreg, metadata, hn⟩ := openList?_eq_some_iff.1 h
  rw [Graph.next?, Graph.shape?_of_node? hn]
  dsimp only
  rw [isNamed, hreg]
  rfl

theorem next?_of_openList?_eq_none (hr : cx.graph.isWrapper r = false)
    (h : cx.openList? r = none) : cx.graph.next? cx.isNamed r = none := by
  cases hn : cx.graph.node? r with
  | none => rw [Graph.next?, Graph.shape?, hn]; rfl
  | some n =>
    obtain ⟨path, metadata, shape⟩ := n
    have hs := Graph.shape?_of_node? hn
    rw [Graph.next?, hs]
    cases shape with
    | wrapper => rw [Graph.isWrapper, hs] at hr; cases hr
    | list element =>
      cases hreg : cx.registry.get? r with
      | some name => dsimp only; rw [isNamed, hreg]; rfl
      | none => cases h.symm.trans (openList?_eq_some_iff.2 ⟨hreg, metadata, hn⟩)
    | _ => rfl

/-- The name that a type ends in is one by the rules. -/
theorem names_of_endName (hr : cx.graph.isWrapper r = false) (hl : cx.openList? r = none)
    (h : cx.endName r = .ok name) : cx.Names r name := by
  rcases cx.endName_cases r with ⟨n, hreg, he⟩ | ⟨hreg, ⟨-, he⟩ | ⟨shape, key, hs, hkey, he⟩ |
      ⟨variants, -, he⟩⟩
  · cases h.symm.trans he
    exact .registered hreg
  · cases h.symm.trans he
  · refine .scalar hreg ?_ (he.symm.trans h)
    rw [Graph.scalarKey?, hs]
    cases shape with
    | wrapper => rw [Graph.isWrapper, hs] at hr; cases hr
    | list element =>
      have hnext := next?_of_openList?_eq_none hr hl
      rw [Graph.next?, hs, isNamed, hreg] at hnext
      cases hnext
    | union => cases hkey
    | _ => exact hkey
  · exact classify_names hreg (he.symm.trans h)

theorem level_of_mem_warningsAt {e : Event} (h : e ∈ cx.warningsAt r) : e.level = .warning := by
  unfold warningsAt at h
  split at h
  · rename_i path metadata shape _ _
    cases shape with
    | literal value =>
      dsimp only [Shape.warnings] at h
      split at h
      · cases h
      · rw [List.mem_singleton.1 h]; rfl
    | wrapper | bare => rw [List.mem_singleton.1 h]; rfl
    | _ => cases h
  · cases h

theorem of_mem_fallbackAt {e : Event} (h : e ∈ cx.fallbackAt r) :
    e.isFallback = true ∧ cx.registry.get? r = none ∧ cx.graph.isObject r = true := by
  unfold fallbackAt at h
  split at h
  · rename_i hreg hn _
    rw [List.mem_singleton.1 h]
    exact ⟨rfl, hreg, Graph.isObject_iff.2 ⟨_, Graph.shape?_of_node? hn⟩⟩
  · cases h

/-- The type of a node without wrappers follows the rules. -/
theorem baseTypeWithin_sound (cx : Context) : ∀ {room : Nat} {r : Ref} {t : TypeExpr} {w w' : Walk},
    cx.graph.isWrapper r = false → cx.baseTypeWithin room r w = .ok t w' →
      cx.HasBase r t ∧ w.Logs (cx.MayLog r) w' := by
  intro room r t w w' hr h
  -- Only a list goes on to another node, and it takes one from the room.
  cases hl : cx.openList? r with
  | none =>
    obtain ⟨name, hname, rfl, rfl⟩ := (baseTypeWithin_end_eq_ok_iff hl).1 h
    refine ⟨.named hr (names_of_endName hr hl hname), _, rfl, fun e he hfallback => ?_⟩
    rcases List.mem_append.1 he with he | he
    · cases hfallback.symm.trans (Event.isFallback_of_level (level_of_mem_warningsAt he))
    · obtain ⟨-, hreg, ho⟩ := of_mem_fallbackAt he
      exact ⟨r, .here (next?_of_openList?_eq_none hr hl), hreg, ho⟩
  | some p =>
    obtain ⟨path, element⟩ := p
    obtain ⟨-, -, rest, inner, nullable, typed, v, rfl, hu, ht, rfl, rfl⟩ :=
      (baseTypeWithin_list_eq_ok_iff hl).1 h
    obtain ⟨hreg, metadata, hn⟩ := openList?_eq_some_iff.1 hl
    have hin := Graph.unwraps_of_unwrap hu
    obtain ⟨htype, hlog⟩ := baseTypeWithin_sound cx hin.isWrapper ht
    refine ⟨.list hreg (Graph.shape?_of_node? hn) hin htype, hlog.imp fun e he hf => ?_⟩
    obtain ⟨end_, hend, hnone, hobj⟩ := he hf
    exact ⟨end_, .step (next?_of_openList? hl) (hin.endsAt hend), hnone, hobj⟩

theorem fieldType_sound (h : cx.fieldType r w = .ok t w') :
    cx.HasType r t ∧ w.Logs (cx.MayLog r) w' := by
  obtain ⟨⟨inner, nullable⟩, u, hlift, h⟩ := bind_eq_ok.1 h
  obtain ⟨hu, rfl⟩ := Compiling.lift_eq_ok.1 hlift
  obtain ⟨t', v, ht, h⟩ := bind_eq_ok.1 h
  obtain ⟨rfl, rfl⟩ := pure_eq_ok.1 h
  have hin := Graph.unwraps_of_unwrap hu
  obtain ⟨htype, hlog⟩ := baseTypeWithin_sound cx hin.isWrapper ht
  refine ⟨.intro hin htype, hlog.imp fun e he hf => ?_⟩
  obtain ⟨end_, hend, hnone, hobj⟩ := he hf
  exact ⟨end_, hin.endsAt hend, hnone, hobj⟩

end Context

end ShapeSdl
