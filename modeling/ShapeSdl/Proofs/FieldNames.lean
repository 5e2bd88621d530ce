import ShapeSdl.Proofs.Order
import ShapeSdl.Proofs.Strict

/-!
# What the names of fields stand for

Names of definitions and names of scalars come from different tables, and nothing keeps the two
apart. A definition `string` is declared as `String`, the name of every plain text.

* `Options.builtinNames`, `Options.scalarName_default` : the scalar table without overrides;
* `Graph.EndsAt.congr` : only names of lists count for the end of a walk;
* `Batch.names_default` : a name for a node of a batch is one under which it is declared, or the node is
  not declared and has the name of its scalar;
* `field_names_faithful` : if the name of a declaration is rendered for a field, then the field leads
  to the declared node, or the name is one of the scalar table and the field to nothing declared;
* `stringNamesake_unfaithful` : the second case is a real one.
-/

namespace ShapeSdl

/-! ## The scalar table -/

namespace Options

/-- The names of the scalar table as long as none is replaced. -/
def builtinNames : List String :=
  ["String", "Int", "Float", "Boolean", "UUID", "Datetime", "Date", "JSON"]

theorem scalarName_default (key : String) :
    ∃ name ∈ builtinNames, ({} : Options).scalarName key = .ok (.str name) := by
  have hscalars : ∀ p ∈ defaultScalars, ∃ name ∈ builtinNames, p.2 = .str name := by decide
  have hgenerics : ∀ p ∈ genericScalars, p.2 ∈ builtinNames := by decide
  have htable : ∀ key value, (Entries.ofList defaultScalars).get? key = some value →
      ∃ name ∈ builtinNames, value = .str name :=
    fun key value hvalue => hscalars (key, value) (Entries.mem_of_get?_ofList hvalue)
  have hgeneric : ∀ key, (genericScalars.lookup key).getD "String" ∈ builtinNames := by
    intro key
    cases hl : genericScalars.lookup key with
    | none => decide
    | some name =>
      obtain ⟨before, after, he, -⟩ := List.lookup_eq_some_iff.1 hl
      exact hgenerics (key, name) (he ▸ List.mem_append_right _ List.mem_cons_self)
  have heq : ({} : Options).scalarName key = .ok (((Entries.ofList defaultScalars).get? key).getD
      (((Entries.ofList defaultScalars).get? (categoryOf key)).getD
        (.str ((genericScalars.lookup (categoryOf key)).getD "String")))) := rfl
  rw [heq]
  cases hkey : (Entries.ofList defaultScalars).get? key with
  | some value =>
    obtain ⟨name, hname, rfl⟩ := htable key value hkey
    exact ⟨name, hname, rfl⟩
  | none =>
    cases hcategory : (Entries.ofList defaultScalars).get? (categoryOf key) with
    | some value =>
      obtain ⟨name, hname, rfl⟩ := htable _ value hcategory
      exact ⟨name, hname, rfl⟩
    | none => exact ⟨_, hgeneric _, rfl⟩

end Options

/-! ## Walks past the same lists -/

namespace Graph

variable {g : Graph} {named named' : Ref → Bool} {r e : Ref}

theorem next?_congr
    (hn : ∀ r element, g.shape? r = some (.list element) → named r = named' r) (r : Ref) :
    g.next? named r = g.next? named' r := by
  unfold next?
  cases hs : g.shape? r with
  | none => rfl
  | some shape =>
    cases shape with
    | list element =>
      dsimp only
      rw [hn r element hs]
    | _ => rfl

/-- Only names of lists count for the end of a walk. -/
theorem EndsAt.congr (hn : ∀ r element, g.shape? r = some (.list element) → named r = named' r)
    (h : g.EndsAt named r e) : g.EndsAt named' r e := by
  induction h with
  | here stays => exact .here ((next?_congr hn _).symm.trans stays)
  | step goes _ ih => exact .step ((next?_congr hn _).symm.trans goes) ih

end Graph

/-! ## Names in a batch -/

/-- Without options, a name for a node of a batch is one under which the node is declared, or the
node is not declared and has the name of its scalar. -/
theorem Batch.names_default {batch : Batch} {g : Graph} {e : Ref} {name : Json}
    (h : Context.Names ⟨g, batch.registry, {}⟩ e name) : ∃ n, name = .str n ∧
      (batch.get? n = some e ∨ n ∈ Options.builtinNames ∧ e ∉ batch.values ∧
        ∃ key, g.scalarKey? e = some key ∧ ({} : Options).scalarName key = .ok (.str n)) := by
  cases h with
  | @registered n hreg => exact ⟨n, rfl, .inl (get?_of_registry hreg)⟩
  | @scalar key _ unnamed keyed written =>
    obtain ⟨n, hn, he⟩ := Options.scalarName_default key
    cases he.symm.trans written
    refine ⟨n, rfl, .inr ⟨hn, fun hmem => ?_, key, keyed, he⟩⟩
    obtain ⟨⟨k, r⟩, hk, rfl⟩ := List.mem_map.1 hmem
    obtain ⟨l, hl⟩ := exists_registry (Entries.mem_toList_iff.1 hk)
    cases unnamed.symm.trans hl

/-- If a document compiles, then no list of its batch is named. -/
theorem Batch.isNamed_list {batch : Batch} {g : Graph} {o : Options} {document : Document}
    (h : List.Forall₂ (Context.Declared ⟨g, batch.registry, o⟩) batch.toList document) {r element : Ref}
    (hs : g.shape? r = some (.list element)) :
    Context.isNamed ⟨g, batch.registry, o⟩ r = false := by
  cases hreg : batch.registry.get? r with
  | none => rw [Context.isNamed, hreg]; rfl
  | some name =>
    obtain ⟨d, -, hd⟩ := exists_mem_right h (Entries.mem_toList_iff.2 (get?_of_registry hreg))
    exact absurd hs (hd.not_list element)

/-- If the type of a field is rendered with the name of a declaration, then the field leads to the
node that is declared under this name, through wrappers and lists. Otherwise it leads to a node that
is declared under no name, and what is rendered is one of the names of the scalar table. -/
theorem field_names_faithful {schema : Json} {root : String} {document : Document}
    (h : (Compilation.ofSchema schema root {}).result = .ok document) :
    ∃ batch t, readDocument schema root {} = .ok batch t ∧
      document.map Declaration.name = batch.keys ∧
      ∀ type typed, .type type typed ∈ document → ∃ r fields, batch.get? type = some r ∧
        t.graph.shape? r = some (.object fields) ∧
        List.Forall₂ (fun field s => s.1 = field.1 ∧
          ∃ e, t.graph.EndsAt Graph.noneNamed field.2 e ∧
            ∀ d ∈ document, s.2.innermost = .str d.name → batch.get? d.name = some e ∨
              d.name ∈ Options.builtinNames ∧ e ∉ batch.values ∧
                ∃ key, t.graph.scalarKey? e = some key ∧
                  ({} : Options).scalarName key = .ok (.str d.name))
          fields.toList typed := by
  obtain ⟨batch, t, w, hread, hc⟩ := Compilation.result_eq_ok_iff.1 h
  obtain ⟨registry, hreg, -, hdeclared, -⟩ := compileBatch_sound hc
  cases hreg
  refine ⟨batch, t, hread, Context.map_name_of_declared hdeclared, fun type typed hmem => ?_⟩
  obtain ⟨⟨name, r⟩, hentry, hdecl⟩ := exists_mem_left hdeclared hmem
  cases hdecl with
  | @type _ _ fields _ node types =>
    refine ⟨r, fields, Entries.mem_toList_iff.1 hentry, node, types.imp fun field s hs => ?_⟩
    obtain ⟨hname, htype⟩ := hs
    obtain ⟨e, he, hnames⟩ := htype.endsAt
    refine ⟨hname, e, he.congr fun r element hs => Batch.isNamed_list hdeclared hs, ?_⟩
    -- The node at the end has one name only, so what holds of it holds of the declaration's.
    intro d _ hd
    obtain ⟨n, hn, hcases⟩ := Batch.names_default hnames
    cases hd.symm.trans hn
    exact hcases

def ownedPet : Json := .obj [("$defs", .obj [
  ("pet", .obj [("type", .str "object"), ("properties", .obj [
    ("owners", .obj [("type", .str "array"), ("items", .obj [("$ref", .str "#/$defs/person")])])])]),
  ("person", .obj [("type", .str "object"), ("properties", .obj [
    ("name", .obj [("type", .str "string")])])])])]

theorem field_names_faithful_ownedPet : ∃ batch t r e, readDocument ownedPet "" {} = .ok batch t ∧
    (t.graph.fields (some 0)).get? "owners" = some r ∧ t.graph.EndsAt Graph.noneNamed r e ∧
      batch.get? "Person" = some e := by
  have hc : (Compilation.ofSchema ownedPet "" {}).result = .ok [
      .type "Pet" [("owners", .list (.required (.named (.str "Person"))))],
      .type "Person" [("name", .named (.str "String"))]] := by decide +kernel
  obtain ⟨batch, t, hread, -, hall⟩ := field_names_faithful hc
  obtain ⟨r, fields, hr, hs, htypes⟩ := hall "Pet" _ List.mem_cons_self
  obtain ⟨batch', t', hread', hpet⟩ := Reading.exists_ok (x := readDocument ownedPet "" {})
    (p := fun batch _ => decide (batch.get? "Pet" = some (some 0))) (by decide +kernel)
  cases hread.symm.trans hread'
  cases hr.symm.trans (of_decide_eq_true hpet)
  obtain ⟨⟨name, owners⟩, _, ⟨hname, e, he, hd⟩, hnil, hfields⟩ := List.forall₂_cons_right_iff.1 htypes
  cases hname
  refine ⟨batch, t, owners, e, hread, ?_, he, ?_⟩
  · rw [Graph.fields, hs, ← Entries.mem_toList_iff, hfields]
    exact List.mem_cons_self
  · refine (hd _ (List.mem_cons_of_mem _ List.mem_cons_self) rfl).resolve_right fun hbuiltin => ?_
    exact absurd hbuiltin.1 (by decide)

/-- A definition that takes the name of plain texts. -/
def stringNamesake : Json := .obj [("$defs", .obj [
  ("string", .obj [("type", .str "object"), ("properties", .obj [
    ("a", .obj [("type", .str "string")])])])])]

/-- A plain text is rendered under a name that the document declares as a type. -/
theorem stringNamesake_unfaithful : ∃ batch t r, readDocument stringNamesake "" {} = .ok batch t ∧
    (Compilation.ofSchema stringNamesake "" {}).result =
      .ok [.type "String" [("a", .named (.str "String"))]] ∧
    batch.get? "String" = some (some 0) ∧ (t.graph.fields (some 0)).get? "a" = some r ∧
      ∀ e, t.graph.EndsAt Graph.noneNamed r e → batch.get? "String" ≠ some e := by
  obtain ⟨batch, t, hread, ht⟩ := Reading.exists_ok (x := readDocument stringNamesake "" {})
    (p := fun batch t => decide (batch.get? "String" = some (some 0) ∧
      (t.graph.fields (some 0)).get? "a" = some (some 2) ∧
      t.graph.next? Graph.noneNamed (some 2) = some (some 1) ∧
      t.graph.next? Graph.noneNamed (some 1) = none)) (by decide +kernel)
  obtain ⟨hstring, hfield, hnext, hend⟩ := of_decide_eq_true ht
  refine ⟨batch, t, some 2, hread, by decide +kernel, hstring, hfield, fun e he heq => ?_⟩
  cases he.unique (.step hnext (.here hend))
  cases hstring.symm.trans heq

end ShapeSdl
