import ShapeSdl.Proofs.Declared
import ShapeSdl.Proofs.Document
import Mathlib.Data.List.Nodup

/-!
# How nodes are referred to

All names of a batch are registered before anything is declared, so a node is referred to by the
same name everywhere.

* `Batch.lastName?`, `Options.seedName?` : the last name that a batch gives to a node, and the last
  one that it has been given beforehand;
* `Options.get?_batchRegistry_eq` : the registry of a batch holds the first of them, or else the
  second;
* `Options.Cites` : the name under which the output refers to a node: one of these, or one of the
  scalar table;
* `compileBatch_cites` : all references of a document follow this rule. Without names given
  beforehand, the members of unions are declared in it.
-/

namespace ShapeSdl

/-! ## Names of nodes -/

def Batch.lastName? (batch : Batch) (r : Ref) : Option String :=
  (batch.toList.reverse.find? fun entry => entry.2 = r).map Prod.fst

/-- The last name that a node has been given beforehand. -/
def Options.seedName? (o : Options) (r : Ref) : Option String :=
  match o.seeds with
  | .pairs pairs => (pairs.reverse.find? fun pair => pair.1 = r).bind Prod.snd
  | _ => none

namespace Batch

variable {batch : Batch} {r : Ref} {name : String}

theorem lastName?_eq_some_iff : batch.lastName? r = some name ↔ ∃ before after,
    batch.toList = before ++ (name, r) :: after ∧ ∀ entry ∈ after, entry.2 ≠ r := by
  unfold lastName?
  rw [Option.map_eq_some_iff]
  constructor
  · rintro ⟨⟨_, _⟩, h, rfl⟩
    obtain ⟨hr, after, before, he, hafter⟩ := List.find?_eq_some_iff_append.1 h
    cases of_decide_eq_true hr
    refine ⟨before.reverse, after.reverse, ?_, fun entry hentry => ?_⟩
    · rw [← List.reverse_reverse batch.toList, he, List.reverse_append, List.reverse_cons,
        List.append_assoc]
      rfl
    · simpa using hafter entry (List.mem_reverse.1 hentry)
  · rintro ⟨before, after, he, hafter⟩
    refine ⟨(name, r), List.find?_eq_some_iff_append.2 ⟨decide_eq_true rfl, after.reverse,
      before.reverse, ?_, fun entry hentry => ?_⟩, rfl⟩
    · rw [he, List.reverse_append, List.reverse_cons, List.append_assoc]
      rfl
    · simpa using hafter entry (List.mem_reverse.1 hentry)

/-- A name that a batch gives to a node is the name of that node only. -/
theorem get?_of_lastName? (h : batch.lastName? r = some name) : batch.get? name = some r := by
  obtain ⟨before, after, he, -⟩ := lastName?_eq_some_iff.1 h
  rw [← Entries.mem_toList_iff, he]
  exact List.mem_append_right _ List.mem_cons_self

theorem exists_lastName? (h : r ∈ batch.values) : ∃ name, batch.lastName? r = some name := by
  obtain ⟨entry, hentry, rfl⟩ := List.mem_map.1 h
  rw [← Option.isSome_iff_exists, lastName?, Option.isSome_map, List.find?_isSome]
  exact ⟨entry, List.mem_reverse.2 hentry, decide_eq_true rfl⟩

end Batch

namespace Options

variable {o : Options} {batch : Batch} {registry : Registry} {r : Ref}

theorem get?_registry (h : o.registry = .ok registry) : registry.get? r = o.seedName? r := by
  unfold Options.registry at h
  unfold seedName?
  split at h
  · rename_i hs
    cases h
    rw [hs]
    rfl
  · rename_i pairs hs
    cases h
    rw [hs]
    have hlast : (Entries.ofList pairs).get? r =
        (pairs.reverse.find? fun pair => pair.1 = r).map Prod.snd :=
      Entries.get?_ofList_eq_find? pairs r
    show ((Entries.ofList pairs).get? r).join = _
    rw [hlast]
    dsimp only
    cases pairs.reverse.find? fun pair => pair.1 = r <;> rfl
  · rename_i value hs
    rw [hs]
    cases hc : dataSeedCount value with
    | error f => rw [hc] at h; cases h
    | ok n => rw [hc] at h; cases h; rfl
  · cases h

/-- A node is registered under the last name that the batch gives it, or else under the last one
that it has been given beforehand. -/
theorem get?_batchRegistry_eq (h : o.batchRegistry batch = .ok registry) :
    registry.get? r = (batch.lastName? r).or (o.seedName? r) := by
  unfold batchRegistry at h
  cases hseed : o.registry with
  | error f => rw [hseed] at h; cases h
  | ok seed =>
    rw [hseed] at h
    cases h
    show ((seed.entries.putAll (batch.toList.map fun p => (p.2, some p.1))).get? r).join = _
    rw [Entries.get?_putAll, ← List.map_reverse, Entries.lookup_map, ← get?_registry hseed,
      Batch.lastName?]
    cases batch.toList.reverse.find? fun p => p.2 = r <;> rfl

def isNamed (o : Options) (batch : Batch) (r : Ref) : Bool :=
  ((batch.lastName? r).or (o.seedName? r)).isSome

theorem isNamed_eq (h : o.batchRegistry batch = .ok registry) (g : Graph) :
    Context.isNamed ⟨g, registry, o⟩ = o.isNamed batch := by
  funext r
  rw [Context.isNamed, get?_batchRegistry_eq h, isNamed]

/-- The name under which the output refers to a node. -/
inductive Cites (o : Options) (batch : Batch) (r : Ref) : Json → Prop
  /-- The batch names the node: its last name there counts. -/
  | batch {name} (last : batch.lastName? r = some name) : Cites o batch r (.str name)
  /-- The node has a name from beforehand only. -/
  | seed {name} (unnamed : batch.lastName? r = none) (seeded : o.seedName? r = some name) :
      Cites o batch r (.str name)
  /-- The node has no name. -/
  | scalar {key name} (unnamed : batch.lastName? r = none) (unseeded : o.seedName? r = none)
      (written : o.scalarName key = .ok name) : Cites o batch r name

/-- A node of the batch is referred to by the last name that it has there. -/
theorem Cites.eq_of_mem {name : Json} (h : o.Cites batch r name) (hr : r ∈ batch.values) :
    ∃ last, batch.lastName? r = some last ∧ name = .str last := by
  obtain ⟨last, hlast⟩ := Batch.exists_lastName? hr
  refine ⟨last, hlast, ?_⟩
  cases h with
  | batch h => cases hlast.symm.trans h; rfl
  | seed unnamed | scalar unnamed => cases hlast.symm.trans unnamed

theorem cites_of_names (h : o.batchRegistry batch = .ok registry) {g : Graph} {name : Json}
    (hn : Context.Names ⟨g, registry, o⟩ r name) : o.Cites batch r name := by
  cases hn with
  | registered hreg =>
    rw [get?_batchRegistry_eq h, Option.or_eq_some_iff] at hreg
    rcases hreg with hlast | ⟨hnone, hseed⟩
    · exact .batch hlast
    · exact .seed hnone hseed
  | scalar unnamed _ written =>
    rw [get?_batchRegistry_eq h, Option.or_eq_none_iff] at unnamed
    exact .scalar unnamed.1 unnamed.2 written

end Options

/-! ## References of a document -/

section
variable {g : Graph} {o : Options} {batch : Batch} {document : Document} {w w' : Walk}

/-- A field of the output refers to the node at the end of its walk. -/
def Options.CitesField (o : Options) (g : Graph) (batch : Batch) (field : String × Ref)
    (typed : String × TypeExpr) : Prop :=
  typed.1 = field.1 ∧ ∃ e, g.EndsAt (o.isNamed batch) field.2 e ∧
    o.Cites batch e typed.2.innermost

/-- All references of a document are names of the batch, names from beforehand, or names of the
scalar table; a node of the batch is referred to by its last name there. If no node has a name from
beforehand, the members of a union are declared as types in the same document, and different
variants have different names. -/
theorem compileBatch_cites (h : compileBatch g o batch w = .ok document w') :
    (∀ name typed, .type name typed ∈ document → ∃ r fields, batch.get? name = some r ∧
      g.shape? r = some (.object fields) ∧
        List.Forall₂ (o.CitesField g batch) fields.toList typed) ∧
    (∀ name members, .union name members ∈ document → ∃ r variants, batch.get? name = some r ∧
      g.shape? r = some (.union variants) ∧
        List.Forall₂ (fun variant member => o.Cites batch variant (.str member)) variants members ∧
        ((∀ r, o.seedName? r = none) → (∀ member ∈ members, ∃ typed, .type member typed ∈ document) ∧
          (variants.Nodup → members.Nodup))) ∧
    ∀ r ∈ batch.values, ∀ name, o.Cites batch r name →
      ∃ last, batch.lastName? r = some last ∧ name = .str last := by
  obtain ⟨registry, hreg, -, hdeclared, -⟩ := compileBatch_sound h
  refine ⟨fun name typed hmem => ?_, fun name members hmem => ?_, fun r hr name h => h.eq_of_mem hr⟩
  · obtain ⟨⟨_, r⟩, hentry, hd⟩ := exists_mem_left hdeclared hmem
    cases hd with
    | type node types =>
      refine ⟨r, _, Entries.mem_toList_iff.1 hentry, node, types.imp ?_⟩
      rintro field t ⟨hname, htype⟩
      obtain ⟨e, he, hnames⟩ := htype.endsAt
      rw [Options.isNamed_eq hreg] at he
      exact ⟨hname, e, he, Options.cites_of_names hreg hnames⟩
  · obtain ⟨⟨_, r⟩, hentry, hd⟩ := exists_mem_left hdeclared hmem
    cases hd with
    | @union _ _ variants _ node named =>
      have hnamed : List.Forall₂ (fun variant member => o.Cites batch variant (.str member))
          variants members := by
        refine named.imp fun variant member hmember => ?_
        exact Options.cites_of_names hreg (g := g) (.registered hmember.1)
      refine ⟨r, variants, Entries.mem_toList_iff.1 hentry, node, hnamed, fun hseeds => ?_⟩
      have hname : ∀ variant member, registry.get? variant = some member →
          batch.get? member = some variant := by
        intro variant member hmember
        apply Batch.get?_of_lastName?
        rwa [Options.get?_batchRegistry_eq hreg, hseeds, Option.or_none] at hmember
      constructor
      · intro member hmember
        obtain ⟨variant, -, hv⟩ := exists_mem_left named hmember
        obtain ⟨fields, hobject⟩ := Graph.isObject_iff.1 hv.2
        have hv' := Entries.mem_toList_iff.2 (hname variant member hv.1)
        obtain ⟨d, hd, hdecl⟩ := exists_mem_right hdeclared hv'
        cases hdecl with
        | type => exact ⟨_, hd⟩
        | enumeration node | union node => cases hobject.symm.trans node
      · intro hnodup
        have hunique : Relator.BiUnique fun variant member =>
            registry.get? variant = some member := by
          constructor
          · intro v v' m hm hm'
            exact Option.some.inj ((hname v m hm).symm.trans (hname v' m hm'))
          · intro v m m' hm hm'
            exact Option.some.inj (hm.symm.trans hm')
        exact (List.rel_nodup hunique (named.imp fun _ _ hv => hv.1)).1 hnodup

/-- An owner of a cat and of a pet, which is a cat or a dog. -/
def ownerGraph : Graph := ⟨#[
  ⟨"", [], .object (.ofList [("cat", some 1), ("pet", some 3)])⟩,
  ⟨"", [], .object ∅⟩,
  ⟨"", [], .object ∅⟩,
  ⟨"", [], .union [some 1, some 2]⟩]⟩

/-- The cat has two names. -/
def ownerBatch : Batch := .ofList
  [("Owner", some 0), ("Cat", some 1), ("Feline", some 1), ("Dog", some 2), ("Pet", some 3)]

/-- The owner refers to the cat by its last name, not by the one that it had before. -/
theorem compileBatch_cites_owner : ∃ document w typed,
    compileBatch ownerGraph { seeds := .pairs [(some 1, some "Kitty")] } ownerBatch {} =
      .ok document w ∧ .type "Owner" typed ∈ document ∧
        typed.map (fun t => (t.1, t.2.innermost)) =
          [("cat", .str "Feline"), ("pet", .str "Pet")] := by
  obtain ⟨document, w, h, hp⟩ := Reading.exists_ok
    (x := compileBatch ownerGraph { seeds := .pairs [(some 1, some "Kitty")] } ownerBatch {})
    (p := fun document _ => decide (Declaration.type "Owner" [
      ("cat", .required (.named (.str "Feline"))), ("pet", .required (.named (.str "Pet")))] ∈
        document)) (by decide +kernel)
  obtain ⟨typed, hmem⟩ : ∃ typed, .type "Owner" typed ∈ document := ⟨_, of_decide_eq_true hp⟩
  obtain ⟨hfields, -, hlast⟩ := compileBatch_cites h
  obtain ⟨r, fields, hr, hs, hall⟩ := hfields "Owner" typed hmem
  refine ⟨_, w, typed, h, hmem, ?_⟩
  cases hr
  cases hs
  obtain ⟨cat, _, ⟨hcat, e, he, hce⟩, hrest, rfl⟩ := List.forall₂_cons_left_iff.1 hall
  obtain ⟨pet, _, ⟨hpet, e', he', hpe⟩, hnil, rfl⟩ := List.forall₂_cons_left_iff.1 hrest
  cases hnil
  cases he.unique (.here rfl)
  cases he'.unique (.here rfl)
  obtain ⟨_, ⟨⟩, hcat'⟩ := hlast (some 1) (by decide) _ hce
  obtain ⟨_, ⟨⟩, hpet'⟩ := hlast (some 3) (by decide) _ hpe
  rw [List.map_cons, List.map_cons, List.map_nil, hcat, hpet, hcat', hpet']

end

end ShapeSdl
