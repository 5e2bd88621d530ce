import ShapeSdl.Proofs.Overruns

/-!
# Circles of a document

The nodes of a document refer to older ones, except for the objects of plain object definitions. So
every circle passes through such an object, and no walk through wrappers and lists has one.

* `Session.Ordered.straight` : no walk comes back to where it was;
* `readDocument_ordered` : the nodes of a document are in order, and those of its batch among them;
* `readDocument_circles` : what that means for circles, for walks and for the guards against them.
-/

namespace ShapeSdl

namespace Session.Ordered

variable {definitions : Definitions} {first : NodeId} {s : Session} {r x : Ref}

theorem reaches (h : s.Ordered definitions first) (hr : s.Within first r)
    (hx : s.graph.Reaches r x) : s.Within first x := by
  induction hx with
  | refl => exact hr
  | tail _ hlink ih =>
    obtain ⟨id, rfl, hid, -⟩ := ih
    exact h.within id hid _ hlink

theorem straight (h : s.Ordered definitions first) (hr : s.Within first r) :
    s.graph.Straight r := by
  intro x k hx
  obtain ⟨id, rfl, hid, -⟩ := h.reaches hr hx
  exact h.not_circle hid .here

end Session.Ordered

variable {schema : Json} {root : String} {s t : Session} {batch : Batch} {definitions : Definitions}

/-- The nodes of a document are in order, and those of its batch are among them. -/
theorem readDocument_ordered (hd : schema.definitions = .ok definitions)
    (h : readDocument schema root s = .ok batch t) :
    t.Ordered definitions s.graph.size ∧ ∀ r ∈ batch.values, t.Within s.graph.size r := by
  obtain ⟨definitions', ids, u, hd', hr, h⟩ := readDocument_eq_ok_iff.1 h
  cases hd.symm.trans hd'
  have hb := s.sane_begin
  obtain ⟨hu, hfirst⟩ := hr.ordered hb (.begin definitions s)
  have hin := Session.within_map_some hfirst (hr.grows hb).2.2
  have hdeclared : ∀ r ∈ (Entries.ofList
      (u.graph.declared ((definitions.map Prod.fst).zip ids))).values, u.Within s.graph.size r := by
    intro r hmem
    obtain ⟨⟨k, _⟩, hk, rfl⟩ := List.mem_map.1 hmem
    have hentry := Entries.mem_of_get?_ofList (Entries.mem_toList_iff.1 hk)
    obtain ⟨⟨name, id⟩, hd, he⟩ := List.mem_map.1 hentry
    cases he
    exact hin _ (List.mem_map_of_mem (List.of_mem_zip (List.mem_filter.1 hd).1).2)
  dsimp only at h
  split at h
  · obtain ⟨id, hi, rfl⟩ := h
    have hs := hr.sane hb
    obtain ⟨ht, hroot⟩ := hi.ordered hs hu
    refine ⟨ht, fun r hmem => ?_⟩
    obtain ⟨⟨name, _⟩, hentry, rfl⟩ := List.mem_map.1 hmem
    have hget := Entries.mem_toList_iff.1 hentry
    rw [Entries.get?_put] at hget
    split at hget
    · cases hget
      exact ⟨id, rfl, hroot id (List.mem_singleton_self _), hi.lt hs⟩
    · refine (hdeclared _ ?_).mono (hi.grows hs).1.size_le
      exact List.mem_map_of_mem (Entries.mem_toList_iff.2 hget)
  · obtain ⟨rfl, rfl⟩ := h
    exact ⟨hu, hdeclared⟩

/-- All that the batch of a document leads to has been read from that document. Every circle among
its nodes passes through the object of a plain object definition. No walk through wrappers and lists
comes back to where it was. So whenever a guard refuses the batch, in strict mode or not, the reason
is its count. -/
theorem readDocument_circles (hd : schema.definitions = .ok definitions)
    (h : readDocument schema root s = .ok batch t) :
    (∀ r ∈ batch.values, ∀ x, t.graph.Reaches r x → t.Within s.graph.size x) ∧
    (∀ id rest, s.graph.size ≤ id →
      List.IsChain (fun i j => some j ∈ t.graph.links (some i)) (id :: rest ++ [id]) →
        ∃ i ∈ id :: rest, t.IsPlainNode definitions i) ∧
    (∀ r x n k, t.Within s.graph.size r → Steps (t.graph.next? Graph.noneNamed) n r x →
      ¬ Steps (t.graph.next? Graph.noneNamed) (k + 1) x x) ∧
    ∀ o w f w', w.active = [] → compileBatch t.graph o batch w = .error f w' →
      f.GuardedBy (t.graph.Exceeds batch) := by
  obtain ⟨ht, hbatch⟩ := readDocument_ordered hd h
  refine ⟨fun r hr x hx => ht.reaches (hbatch r hr) hx, fun id rest hid hchain => ?_, ?_, ?_⟩
  · exact ht.circle hid hchain
  · intro r x n k hr hx
    exact ht.straight hr x k (Graph.reaches_of_steps hx)
  · intro o w f w' hw hf
    exact compileBatch_exceeds (fun r hr => ht.straight (hbatch r hr)) hw hf

/-- So many lists inside each other. -/
def nestedItems (items : Json) : Nat → Json
  | 0 => items
  | n + 1 => .obj [("type", .str "array"), ("items", nestedItems items n)]

/-- A tree whose nodes have a parent, and further nodes in lists inside each other. -/
def deepTree (depth : Nat) : Json := .obj [("$defs", .obj [
  ("Tree", .obj [("type", .str "object"), ("properties", .obj [
    ("parent", .obj [("$ref", .str "#/$defs/Tree")]),
    ("children", nestedItems (.obj [("$ref", .str "#/$defs/Tree")]) depth)])])])]

def endsAtGuard : EStateM.Result Fault Walk Document → Bool
  | .ok .. => false
  | .error f _ => f.isGuard

theorem readDocument_circles_tree : ∃ definitions batch t cause w,
    (deepTree 65).definitions = .ok definitions ∧ readDocument (deepTree 65) "" {} = .ok batch t ∧
    some 1 ∈ t.graph.links (some 0) ∧ some 0 ∈ t.graph.links (some 1) ∧
    t.IsPlainNode definitions 0 ∧
    compileBatch t.graph {} batch {} = .error (.structural cause) w ∧ cause.isGuard = true ∧
    t.graph.Exceeds batch cause := by
  obtain ⟨definitions, hd⟩ : ∃ definitions, (deepTree 65).definitions = .ok definitions := ⟨_, rfl⟩
  obtain ⟨batch, t, h, hp⟩ := Reading.exists_ok (x := readDocument (deepTree 65) "" {})
    (p := fun batch t => some 1 ∈ t.graph.links (some 0) ∧ some 0 ∈ t.graph.links (some 1) ∧
      t.graph.isObject (some 1) = false ∧ endsAtGuard (compileBatch t.graph {} batch {}) = true)
    (by decide +kernel)
  obtain ⟨hdown, hup, hwrapper, hfail⟩ := of_decide_eq_true hp
  obtain ⟨-, hcircle, -, hguard⟩ := readDocument_circles hd h
  obtain ⟨i, hi, hplain⟩ := hcircle 0 [1] (Nat.le_refl 0)
    (.cons_cons hdown (.cons_cons hup (.singleton 0)))
  have hroot : t.IsPlainNode definitions 0 := by
    rcases List.mem_pair.1 hi with rfl | rfl
    · exact hplain
    · cases hwrapper.symm.trans hplain.1
  cases hc : compileBatch t.graph {} batch {} with
  | ok document w => rw [hc] at hfail; cases hfail
  | error f w =>
    rw [hc] at hfail
    cases f with
    | structural cause =>
      exact ⟨definitions, batch, t, cause, w, hd, h, hdown, hup, hroot, hc, hfail,
        hguard {} {} (.structural cause) w rfl hc hfail⟩
    | _ => cases hfail

end ShapeSdl
