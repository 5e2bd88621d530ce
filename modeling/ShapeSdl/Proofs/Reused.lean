import ShapeSdl.Proofs.Circles
import ShapeSdl.Proofs.Renamed

/-!
# Documents read one after the other

A session reads many documents into one graph, and some of them may fail halfway.

* `Session.readAll` : the batches of documents that are read one after the other, or why there are
  none, each with the session after it;
* `Session.read_eq` : a document is read as by a new session, at positions behind all earlier nodes;
* `Graph.Extends` : a graph with further nodes (`Session.extends_read`);
* `Session.within_of_reaches` : the batch of a document leads to nodes of that document only;
* `Session.readAll_apart` : a session for many documents is as good as one for each. What a batch
  leads to is neither changed by later documents nor reached from theirs.
-/

namespace ShapeSdl

namespace Graph

/-- The second graph has all nodes of the first one, at their positions, and may have more. -/
structure Extends (g h : Graph) : Prop where
  size_le : g.size ≤ h.size
  node? : ∀ id < g.size, h.node? (some id) = g.node? (some id)

theorem Extends.refl (g : Graph) : g.Extends g := ⟨Nat.le_refl _, fun _ _ => rfl⟩

theorem Extends.trans {g h k : Graph} (hgh : g.Extends h) (hhk : h.Extends k) : g.Extends k where
  size_le := Nat.le_trans hgh.size_le hhk.size_le
  node? id hid := (hhk.node? id (Nat.lt_of_lt_of_le hid hgh.size_le)).trans (hgh.node? id hid)

theorem extends_behind (base g : Graph) : base.Extends (base.behind g) where
  size_le := by
    rw [size_behind]
    exact Nat.le_add_right ..
  node? _ hid := node?_behind_of_lt base g hid

end Graph

namespace Session

/-- The batches of documents with the names of their roots, read one after the other, or why there
are none, each with the session after it. -/
def readAll (s : Session) : List (Json × String) → List (Except Fault Batch × Session)
  | [] => []
  | (schema, root) :: rest => s.read schema root :: readAll (s.read schema root).2 rest

variable (s : Session) (schema : Json) (root : String)

/-- A document is read as by a new session, behind the nodes that are there. -/
theorem read_eq : s.read schema root =
    ((read {} schema root).1.map (Entries.mapValues (Option.map s.graph.shift)),
      (read {} schema root).2.behind s.graph) := by
  have hbegin : readDocument schema root s = readDocument schema root s.begin := rfl
  have hbehind := readDocument_behind s.graph schema root {}
  rw [← begin_eq_behind, ← hbegin] at hbehind
  unfold read
  rw [hbehind]
  cases readDocument schema root {} <;> rfl

/-- Whether it is read or not, a document leaves the nodes that are there as they are. -/
theorem extends_read : s.graph.Extends (s.read schema root).2.graph := by
  rw [read_eq]
  exact s.graph.extends_behind _

theorem within_of_reaches {batch : Batch} (h : (s.read schema root).1 = .ok batch) {r x : Ref}
    (hr : r ∈ batch.values) (hx : (s.read schema root).2.graph.Reaches r x) :
    (s.read schema root).2.Within s.graph.size x := by
  unfold read at h hx ⊢
  cases hd : readDocument schema root s with
  | error f t => rw [hd] at h; cases h
  | ok batch' t =>
    rw [hd] at h hx
    cases h
    obtain ⟨definitions, _, _, hdefs, -⟩ := readDocument_eq_ok_iff.1 hd
    obtain ⟨ht, hbatch⟩ := readDocument_ordered hdefs hd
    exact ht.reaches (hbatch r hr) hx

theorem exists_extends_of_mem_readAll : ∀ {documents : List (Json × String)} {s : Session}
    {step : Except Fault Batch × Session}, step ∈ s.readAll documents →
      ∃ (before : Session) (schema : Json) (root : String),
        s.graph.Extends before.graph ∧ step = before.read schema root
  | (schema, root) :: rest, s, step, h => by
    rcases List.mem_cons.1 h with rfl | h
    · exact ⟨s, schema, root, .refl _, rfl⟩
    · obtain ⟨before, schema', root', hext, hstep⟩ := exists_extends_of_mem_readAll h
      exact ⟨before, schema', root', (s.extends_read schema root).trans hext, hstep⟩

/-- What the batch of a document leads to stays as it is when other documents are read, and their
batches do not lead to it. -/
theorem apart_of_mem_readAll {documents : List (Json × String)}
    {later : Except Fault Batch × Session}
    (h : later ∈ (s.read schema root).2.readAll documents) {batch : Batch}
    (hbatch : (s.read schema root).1 = .ok batch) {r x : Ref} (hr : r ∈ batch.values)
    (hx : (s.read schema root).2.graph.Reaches r x) :
    later.2.graph.node? x = (s.read schema root).2.graph.node? x ∧
      ∀ batch', later.1 = .ok batch' → ∀ r' ∈ batch'.values, ¬later.2.graph.Reaches r' x := by
  obtain ⟨id, rfl, -, hid⟩ := within_of_reaches s schema root hbatch hr hx
  obtain ⟨before, schema', root', hext, rfl⟩ := exists_extends_of_mem_readAll h
  refine ⟨(hext.trans (before.extends_read schema' root')).node? id hid, ?_⟩
  intro batch' hbatch' r' hr' hreaches
  obtain ⟨_, ⟨⟩, hbehind, -⟩ := within_of_reaches before schema' root' hbatch' hr' hreaches
  exact Nat.not_le_of_lt (Nat.lt_of_lt_of_le hid hext.size_le) hbehind

/-- One session for many documents is as good as a new one for each, whichever of them fail. A
document ends as in a new session: with the same fault, or with the same batch and the same nodes at
other positions. What a batch leads to stays as it is, and no later batch leads to it. -/
theorem readAll_apart (s : Session) (documents : List (Json × String)) :
    List.Forall₂ (fun document step => ∃ ρ : NodeId → NodeId, Function.Injective ρ ∧
        step.1 = (read {} document.1 document.2).1.map (Entries.mapValues (Option.map ρ)) ∧
        ∀ id, step.2.graph.node? (some (ρ id)) =
          ((read {} document.1 document.2).2.graph.node? (some id)).map (Node.rename ρ))
      documents (s.readAll documents) ∧
    (s.readAll documents).Pairwise fun earlier later => ∀ batch, earlier.1 = .ok batch →
      ∀ r ∈ batch.values, ∀ x, earlier.2.graph.Reaches r x →
        later.2.graph.node? x = earlier.2.graph.node? x ∧
          ∀ batch', later.1 = .ok batch' → ∀ r' ∈ batch'.values, ¬later.2.graph.Reaches r' x := by
  induction documents generalizing s with
  | nil => exact ⟨.nil, .nil⟩
  | cons document rest ih =>
    obtain ⟨schema, root⟩ := document
    obtain ⟨hrest, hapart⟩ := ih (s.read schema root).2
    refine ⟨.cons ⟨s.graph.shift, s.graph.shift_injective, ?_, fun id => ?_⟩ hrest,
      .cons (fun later hlater batch hbatch r hr x hx => ?_) hapart⟩
    · rw [read_eq]
    · rw [read_eq]
      exact Graph.node?_behind ..
    · exact apart_of_mem_readAll s schema root hlater hbatch hr hx

/-- A document that fails halfway leaves nodes behind, and the next one is read all the same. -/
example :
    let pet := Json.obj [("$defs", .obj [("pet", .obj [("properties", .obj [
      ("name", .obj [("type", .str "string")])])])])]
    let broken := Json.obj [("$defs", .obj [("pet", .obj [("properties", .obj [
      ("name", .obj [("type", .str "string")]), ("age", .obj [("type", .str "age")])])])])]
    (readAll {} [(broken, ""), (pet, "")]).map
        (fun step => (step.1.toOption.map Entries.toList, step.2.graph.size)) =
      [(none, 3), (some [("Pet", some 3)], 6)] := by
  decide +kernel

end Session

end ShapeSdl
