import ShapeSdl.Proofs.Alongside

/-!
# Definitions that are written out

A definition that yields no declaration is written where it is used. It makes no difference whether a
schema refers to it or repeats it.

* `Json.refTo` : a schema that is a reference and nothing else;
* `Json.interchangeable_refTo` : the body of a definition can stand in the place of a reference to it;
* `compile_writtenOut` : a document in which it does compiles to the same.

The two documents are not read alike. The definition is read once, the first time that it is met, and
remembered; what is repeated is read in its own place, when other definitions may have nodes that had
none, and objects the fields that they had not.
-/

namespace ShapeSdl

def Json.refTo (text : String) : Json := .obj [("$ref", .str text)]

theorem Json.outline_refTo (text path : String) :
    (refTo text).outline path = .reference (.str text) path := outline_of_ref rfl rfl path

/-- The body of a definition without a default can stand in the place of a reference to it. -/
theorem Json.interchangeable_refTo {ds : Definitions} {text name : String}
    {entries : List (String × Json)} (hmeans : (Json.str text).referred? = some name)
    (hbody : ds.lookup name = some (.obj entries))
    (hdefault : (Json.obj entries).get? "default" = none) :
    (refTo text).Interchangeable ds (.inlined name) (.obj entries) where
  isObject := ⟨⟨_, rfl⟩, _, rfl⟩
  default_eq := hdefault.symm
  fits path path' := by
    rw [outline_refTo]
    exact .inlined rfl hmeans hbody (matches_self ds _ _ _ _).recast

theorem Settled.exists_entries {ds : Definitions} {own : String → List NodeId} {s : Session}
    (S : Settled ds own s) {name : String} {id : NodeId} {body : Json}
    (hk : s.known.get? name = some id) (hbody : ds.lookup name = some body) :
    ∃ entries, body = .obj entries := by
  obtain ⟨body', nodes, hd, -, hb⟩ := S.built name id hk List.not_mem_nil
  cases hbody.symm.trans hd
  cases body with
  | obj entries => exact ⟨entries, rfl⟩
  | _ =>
    rw [Json.outline] at hb
    cases hb

/-- A definition without a default whose node cannot be declared may be written out: if a document
compiles in which a property or an array item refers to it, the document with its body there compiles,
and to the same. -/
theorem compile_writtenOut {F : Json → Json} (hF : Json.DocumentPosition F)
    {text name root : String} {body : Json} {ds : Definitions} {o : Options} {document : Document}
    (hds : (F (.refTo text)).definitions = .ok ds)
    (hmeans : (Json.str text).referred? = some name) (hbody : ds.lookup name = some body)
    (hdefault : body.get? "default" = none) (hseeds : o.registry = .ok ∅)
    (hundeclared : ∀ batch t id, readDocument (F (.refTo text)) root {} = .ok batch t →
      t.known.get? name = some id → t.graph.isDeclarable id = false)
    (h : (Compilation.ofSchema (F (.refTo text)) root o).result = .ok document) :
    (Compilation.ofSchema (F body) root o).result = .ok document := by
  obtain ⟨batch, t, -, hread, -⟩ := Compilation.result_eq_ok_iff.1 h
  obtain ⟨own, S⟩ := readDocument_settled hds hread
  obtain ⟨ids, u, hr, hg, -⟩ := (readDocument_eq_ok_iff_stages hds).1 hread
  obtain ⟨id, hid⟩ := hg.knows (hr.knows_definition (Session.sane_begin {})
    (Definitions.mem_of_lookup hbody))
  obtain ⟨entries, rfl⟩ := S.exists_entries hid hbody
  obtain ⟨ds', H⟩ := hF.restates hds (Json.interchangeable_refTo hmeans hbody hdefault)
  refine H.compiles hseeds (fun other batch t id hin hread hid => ?_) h
  cases hin
  exact hundeclared batch t id hread hid

def friendsBody : Json := .obj [("type", .str "array"), ("items", .refTo "#/$defs/pet")]

def petsWith (friends : Json) : Json := .obj [("$defs", .obj [
  ("pet", .obj [("type", .str "object"), ("properties", .obj [("friends", friends)])]),
  ("friends", friendsBody)])]

/-- The list of friends is read while the pet that they are friends of is. -/
theorem compile_writtenOut_friends : ∃ document,
    (Compilation.ofSchema (petsWith (.refTo "#/$defs/friends")) "" {}).result = .ok document ∧
    (Compilation.ofSchema (petsWith friendsBody) "" {}).result = .ok document ∧
    document.map Declaration.text = ["type Pet \x7b\n  friends: [Pet!]\n\x7d"] := by
  obtain ⟨batch, t, hread, ht⟩ := Reading.exists_ok
    (x := readDocument (petsWith (.refTo "#/$defs/friends")) "" {})
    (p := fun _ t => decide (t.known.get? "friends" = some 1 ∧ t.graph.isDeclarable 1 = false))
    (by decide +kernel)
  obtain ⟨hknown, hnot⟩ := of_decide_eq_true ht
  have hF : Json.DocumentPosition petsWith :=
    .definition [] [] [] [("friends", friendsBody)] "pet" (by decide)
      (.slot (.property [("type", .str "object")] [] [] [] "friends"))
  have hok : (Compilation.ofSchema (petsWith (.refTo "#/$defs/friends")) "" {}).result =
      .ok [.type "Pet" [("friends", .list (.required (.named (.str "Pet"))))]] := by decide +kernel
  have hundeclared : ∀ batch t id, readDocument (petsWith (.refTo "#/$defs/friends")) "" {} = .ok batch t →
      t.known.get? "friends" = some id → t.graph.isDeclarable id = false := by
    intro batch' t' id h hid
    cases hread.symm.trans h
    cases hknown.symm.trans hid
    exact hnot
  exact ⟨_, hok, compile_writtenOut hF rfl (by decide) rfl rfl rfl hundeclared hok, rfl⟩

end ShapeSdl
