import ShapeSdl.Proofs.Descent
import ShapeSdl.Proofs.Stops

/-!
# Intact sessions

A session never refers to a node that is not there, neither for a definition nor from another node.

* `Session.Intact` : all nodes that a session refers to are there;
* `Reads.intact`, `Goes.intact_of_reaches` : this stays so whatever is read, and on the way there;
* `Session.intact_read` : a session for many documents is intact, whichever of them fail.
-/

namespace ShapeSdl

/-- All nodes that a session refers to are there. -/
structure Session.Intact (s : Session) : Prop where
  sane : s.Sane
  links : ∀ id next, some next ∈ s.graph.links (some id) → next < s.graph.size

theorem Session.intact_empty : ({} : Session).Intact where
  sane := nofun
  links id next hnext := by
    rw [Graph.links_of_size_le (g := ∅) (Nat.zero_le id)] at hnext
    cases hnext

namespace Session.Intact

variable {s : Session} {name : String} {id : NodeId}

theorem add (h : s.Intact) {n : Node}
    (hn : ∀ next, some next ∈ n.shape.links → next < s.graph.size) : (s.add n).Intact where
  sane := sane_add h.sane n
  links i next hnext := by
    rw [size_add]
    refine Nat.lt_succ_of_lt ?_
    by_cases he : i = s.graph.size
    · subst he
      rw [links_add_self] at hnext
      exact hn next hnext
    · rw [links_add_of_ne s n he] at hnext
      exact h.links i next hnext

theorem begin (h : s.Intact) : s.begin.Intact := ⟨s.sane_begin, h.links⟩

theorem enter (h : s.Intact) (name : String) : (s.enter name).Intact := ⟨h.sane, h.links⟩

theorem remember (h : s.Intact) (hid : id < s.graph.size) : (s.remember name id).Intact :=
  ⟨sane_remember h.sane hid, h.links⟩

theorem openObject (h : s.Intact) (name path : String) (metadata : List (String × Json)) :
    ((s.enter name).openObject name path metadata).Intact :=
  have ha := h.add (n := ⟨path, metadata, .object ∅⟩) nofun
  ⟨sane_openObject (s := s.enter name) h.sane name path metadata, ha.links⟩

theorem closeObject (h : s.Intact) {fields : Entries String Ref}
    (hf : ∀ next, some next ∈ fields.values → next < s.graph.size) :
    (s.closeObject id fields).Intact where
  sane other i hi := by
    rw [size_closeObject]
    exact h.sane other i hi
  links i next hnext := by
    rw [size_closeObject]
    by_cases he : i = id
    · subst he
      exact hf next (mem_links_closeObject hnext)
    · rw [links_closeObject_of_ne s fields he] at hnext
      exact h.links i next hnext

theorem links_of_node? (h : s.Intact) {n : Node} (hn : s.graph.node? (some id) = some n) :
    ∀ next, some next ∈ n.shape.links → next < s.graph.size := by
  intro next hnext
  refine h.links id next ?_
  rwa [Graph.links_of_shape? (congrArg (Option.map Node.shape) hn)]

end Session.Intact

theorem Reads.intact {definitions : Definitions} {stack : List String} {task : Task} {s t : Session}
    {ids : List NodeId} (h : Reads definitions stack task s ids t) (hs : s.Intact) : t.Intact := by
  induction h with
  | @leaf _ s n hleaf =>
    have hlinks : n.shape.links = [] := by
      cases hn : n.shape <;> first | rfl | (rw [hn] at hleaf; cases hleaf)
    exact hs.add (by rw [hlinks]; nofun)
  | wrapper inside ih | list inside ih =>
    refine (ih hs).add fun next hnext => ?_
    cases List.mem_singleton.1 hnext
    exact inside.lt hs.sane
  | union inside ih =>
    refine (ih hs).add fun next hnext => ?_
    obtain ⟨_, hid, ⟨⟩⟩ := List.mem_map.1 hnext
    exact (inside.grows hs.sane).2.2 next hid
  | @object _ _ _ _ _ fields ids inside ih =>
    refine (ih hs).add fun next hnext => ?_
    obtain ⟨_, hid, ⟨⟩⟩ := List.mem_map.1 (Outline.values_fieldRefs_subset fields ids hnext)
    exact (inside.grows hs.sane).2.2 next hid
  | @merge _ _ t path metadata _ ids inside _ ih =>
    have ht := ih hs
    have ha := ht.add (n := ⟨path, metadata, .object (t.graph.merged ids)⟩) fun next hnext => by
      obtain ⟨id, -, hlink⟩ := Graph.exists_mem_links_of_merged hnext
      exact ht.links id next hlink
    exact ⟨ha.sane, ha.links⟩
  | reference _ _ _ ih => exact ih hs
  | known | nil => exact hs
  | @plain _ s t name _ path metadata fields ids _ _ _ _ _ inside ih =>
    have hso := hs.openObject name path metadata
    refine (ih hso).closeObject fun next hnext => ?_
    obtain ⟨_, hid, ⟨⟩⟩ := List.mem_map.1 (Outline.values_fieldRefs_subset fields ids hnext)
    exact (inside.grows hso.sane).2.2 next hid
  | @other _ s _ name _ _ _ _ _ _ inside ih =>
    exact (ih (hs.enter name)).remember (inside.lt (s := s.enter name) hs.sane)
  | cons _ _ ih₁ ih₂ => exact ih₂ (ih₁ hs)

section
variable {definitions : Definitions} {v w : Visit}

theorem Goes.intact (h : Goes definitions v w) (hv : v.session.Intact) : w.session.Intact := by
  cases h with
  | wrapper | refused | list | union | object | reference | first => exact hv
  | merge read | rest read => exact read.intact hv
  | plain => exact hv.openObject ..
  | other => exact hv.enter _

theorem Goes.intact_of_reaches (h : Relation.ReflTransGen (Goes definitions) v w)
    (hv : v.session.Intact) : w.session.Intact := by
  induction h with
  | refl => exact hv
  | tail _ hlast ih => exact hlast.intact ih

theorem Stops.intact {f : Fault} {t : Session} (h : Stops definitions v f t)
    (hv : v.session.Intact) : t.Intact := by
  cases h with
  | fault | notText | external | unresolved | cyclic => exact hv
  | refused read => exact read.intact hv
  | part read _ last => exact last.intact (read.intact hv)
  | body => exact hv.enter _
  | fields => exact hv.openObject ..

end

/-- Whether a document is read or not, an intact session stays intact. -/
theorem Session.intact_read {s : Session} (hs : s.Intact) (schema : Json) (root : String) :
    (s.read schema root).2.Intact := by
  have hbegin := hs.begin
  unfold read
  cases h : readDocument schema root s with
  | ok batch t =>
    obtain ⟨definitions, ids, u, -, hread, h⟩ := readDocument_eq_ok_iff.1 h
    have hu := hread.intact hbegin
    dsimp only at h
    split at h
    · obtain ⟨id, hroot, -⟩ := h
      exact hroot.intact hu
    · obtain ⟨-, rfl⟩ := h
      exact hu
  | error f t =>
    cases hd : schema.definitions with
    | error f' =>
      unfold readDocument at h
      rw [Reading.begin_bind, hd] at h
      cases h
      exact hbegin
    | ok definitions =>
      obtain ⟨w, hway, hstop⟩ := readDocument_eq_error hd h
      exact hstop.intact (Goes.intact_of_reaches hway hbegin)

end ShapeSdl
