import ShapeSdl.Registry.Workspace
import Mathlib.Data.Finset.Card
import Mathlib.Logic.Function.Basic

/-!
# Registries by what has been written to them

* `History` : the writes to a registry; `History.nodes`, `History.lastName`, `History.summary` : the
  nodes in order of their first writes, the name of the last write to a node, and both together;
* `Histories.step` : the histories of all registries after a command. A registry that is made from
  another one, or updated from it, writes the summary of the other one;
* `Recounts` : what can be seen of a registry is what its history says. The registry that a history
  leaves is seen so (`recounts_ofPairs`);
* `Workspace.Apart` : no two names stand for one registry, which a command keeps (`Apart.step`);
* `Workspace.Follows` : every registry is the one that its history leaves, which a command keeps
  (`Follows.step`);
* `run_recounts` : what can be seen of registries after any commands, and what is answered then, is
  what their histories say, and a command leaves all registries but its own as they are.
-/

namespace ShapeSdl.Registry

/-- The writes to a registry, the first one first. -/
abbrev History := List (Ref × Option String)

namespace History

/-- The nodes that have been written, in order of their first writes. -/
def nodes (h : History) : List Ref := (h.map Prod.fst).eraseDups

/-- The name of the last write to a node, if there is a write and it has a name. -/
def lastName (h : History) (node : Ref) : Option String :=
  ((h.filter fun write => write.1 = node).getLast?.map Prod.snd).join

/-- The nodes in order of their first writes, each with the name of its last write. -/
def summary (h : History) : History := (nodes h).map fun node => (node, lastName h node)

theorem mem_nodes {h : History} {node : Ref} : node ∈ nodes h ↔ node ∈ h.map Prod.fst :=
  List.mem_eraseDups

theorem nodes_append_singleton (h : History) (write : Ref × Option String) :
    nodes (h ++ [write]) = if write.1 ∈ nodes h then nodes h else nodes h ++ [write.1] := by
  have happend : nodes (h ++ [write]) =
      nodes h ++ ([write.1].removeAll (h.map Prod.fst)).eraseDups := by
    rw [nodes, List.map_append, List.map_singleton, List.eraseDups_append, nodes]
  rw [happend]
  split
  · simp [List.removeAll, mem_nodes.1 ‹_›]
  · simp [List.removeAll, List.eraseDups_cons, mt mem_nodes.2 ‹_›]

end History

/-! ## The registry that a history leaves -/

section
variable (h : History) (node : Ref)

theorem ofPairs_append (writes : History) :
    ofPairs (h ++ writes) = (ofPairs h).update writes :=
  congrArg Registry.mk (Entries.putAll_append ∅ h writes)

theorem keys_ofPairs : (ofPairs h).entries.keys = History.nodes h := by
  induction h using List.reverseRecOn with
  | nil => rfl
  | append_singleton h write ih =>
    have hput : (ofPairs (h ++ [write])).entries = (ofPairs h).entries.put write.1 write.2 :=
      congrArg Registry.entries (ofPairs_append h [write])
    rw [hput, History.nodes_append_singleton, ← ih]
    split
    · exact Entries.keys_put_of_mem ‹_›
    · exact Entries.keys_put_of_notMem ‹_›

/-- The name of a node is that of the last write to it. -/
theorem get?_ofPairs : (ofPairs h).get? node = History.lastName h node := by
  have hlast : (ofPairs h).entries.get? node =
      (h.reverse.find? fun write => write.1 = node).map Prod.snd :=
    Entries.get?_ofList_eq_find? h node
  rw [get?, hlast, ← List.getLast?_filter, History.lastName]

theorem toList_ofPairs : (ofPairs h).toList = History.summary h := by
  have hpair : ∀ p ∈ (ofPairs h).toList, (p.1, (ofPairs h).get? p.1) = p := by
    intro p hp
    rw [get?, Entries.mem_toList_iff.1 hp]
    rfl
  have hmap : (ofPairs h).entries.keys.map (fun node => (node, (ofPairs h).get? node)) =
      (ofPairs h).toList := by
    rw [Entries.keys, List.map_map]
    exact (List.map_congr_left hpair).trans (List.map_id _)
  rw [← hmap, keys_ofPairs]
  exact List.map_congr_left fun node _ => congrArg (Prod.mk node) (get?_ofPairs h node)

/-- What can be seen of a registry is what its history says. -/
structure Recounts (r : Registry) (h : History) : Prop where
  get? : ∀ node, r.get? node = History.lastName h node
  contains : ∀ node, r.contains node = true ↔ node ∈ h.map Prod.fst
  size : r.size = (h.map Prod.fst).toFinset.card
  toList : r.toList = History.summary h

theorem recounts_ofPairs : Recounts (ofPairs h) h where
  get? := get?_ofPairs h
  contains node := by
    rw [contains, Entries.contains_iff, keys_ofPairs, History.mem_nodes]
  size := by
    have hset : (h.map Prod.fst).toFinset = (ofPairs h).entries.keys.toFinset := by
      ext node
      rw [List.mem_toFinset, List.mem_toFinset, keys_ofPairs, History.mem_nodes]
    rw [hset, List.toFinset_card_of_nodup (Entries.keys_nodup _), Entries.length_keys]
    rfl
  toList := toList_ofPairs h

end

/-! ## Several registries -/

abbrev Histories := String → History

namespace Histories

def writesOf (H : Histories) : Source → History
  | .nothing => []
  | .pairs pairs => pairs
  | .mapping names => names.toList
  | .registry name => History.summary (H name)

def step (H : Histories) : Command → Histories
  | .create registry source => Function.update H registry (H.writesOf source)
  | .register registry node name =>
    Function.update H registry (H registry ++ [(node, name)])
  | .update registry source =>
    Function.update H registry (H registry ++ H.writesOf source)
  | .copy registry target => Function.update H target (History.summary (H registry))
  | .get .. | .contains .. | .size _ | .listing _ => H

/-- The histories after several commands, if nothing has been written before. -/
def after (commands : List Command) : Histories := commands.foldl step fun _ => []

end Histories

/-- The registry that a command makes or writes to. -/
def Command.target? : Command → Option String
  | .create registry _ | .register registry .. | .update registry _ => some registry
  | .copy _ target => some target
  | .get .. | .contains .. | .size _ | .listing _ => none

namespace Workspace

/-- The registries after several commands, if none has been made before. -/
def after (commands : List Command) : Workspace := commands.foldl (fun w c => (w.step c).2) ∅

variable {w : Workspace} {H : Histories} {name other : String} {r : Registry} {place : Nat}

/-- No two names stand for one registry, and each stands for one that is there. -/
structure Apart (w : Workspace) : Prop where
  lt : ∀ name place, w.places.get? name = some place → place < w.registries.length
  injective : ∀ name other place, w.places.get? name = some place →
    w.places.get? other = some place → name = other

theorem apart_empty : Apart ∅ := ⟨nofun, nofun⟩

theorem find_of_place (h : w.places.get? name = some place) :
    w.find name = (w.registries[place]?).getD ∅ := by
  rw [find, find?, h]
  rfl

theorem find_of_no_place (h : w.places.get? name = none) : w.find name = ∅ := by
  rw [find, find?, h]
  rfl

theorem Apart.make (h : w.Apart) (name : String) (r : Registry) : (w.make name r).Apart where
  lt other place hplace := by
    rw [Workspace.make, Entries.get?_put] at hplace
    rw [Workspace.make, List.length_append]
    split at hplace
    · cases hplace
      exact Nat.lt_succ_self _
    · exact Nat.lt_succ_of_lt (h.lt other place hplace)
  injective a b place ha hb := by
    rw [Workspace.make, Entries.get?_put] at ha hb
    split at ha <;> split at hb
    · rw [‹a = name›, ‹b = name›]
    · cases ha
      exact absurd (h.lt b _ hb) (Nat.lt_irrefl _)
    · cases hb
      exact absurd (h.lt a _ ha) (Nat.lt_irrefl _)
    · exact h.injective a b place ha hb

theorem Apart.change (h : w.Apart) (name : String) (f : Registry → Registry) :
    (w.change name f).Apart := by
  unfold Workspace.change
  split
  · exact ⟨fun other place hplace => by rw [List.length_modify]; exact h.lt other place hplace,
      h.injective⟩
  · exact h.make name _

/-- A command keeps the registries of different names apart: what is made, copies too, is new. -/
theorem Apart.step (h : w.Apart) (c : Command) : (w.step c).2.Apart := by
  cases c with
  | create | copy => exact h.make _ _
  | register | update => exact h.change _ _
  | get | contains | size | listing => exact h

theorem find_make (h : w.Apart) (name other : String) (r : Registry) :
    (w.make name r).find other = if other = name then r else w.find other := by
  by_cases hname : other = name
  · have hplace : (w.make name r).places.get? other = some w.registries.length := by
      rw [make, Entries.get?_put, if_pos hname]
    rw [find_of_place hplace, if_pos hname, make, List.getElem?_concat_length]
    rfl
  · have hsame : (w.make name r).places.get? other = w.places.get? other := by
      rw [make, Entries.get?_put, if_neg hname]
    rw [if_neg hname]
    cases hplace : w.places.get? other with
    | none => rw [find_of_no_place (hsame.trans hplace), find_of_no_place hplace]
    | some place =>
      rw [find_of_place (hsame.trans hplace), find_of_place hplace, make,
        List.getElem?_append_left (h.lt other place hplace)]

theorem find_change (h : w.Apart) (name other : String) (f : Registry → Registry) :
    (w.change name f).find other = if other = name then f (w.find name) else w.find other := by
  unfold change
  cases hplace : w.places.get? name with
  | none => rw [find_make h, find_of_no_place hplace]
  | some place =>
    have hfind : ∀ {name place'}, w.places.get? name = some place' →
        find { w with registries := w.registries.modify place f } name =
          ((w.registries.modify place f)[place']?).getD ∅ := fun h => find_of_place h
    dsimp only
    split
    · rename_i hname
      rw [hname, hfind hplace, find_of_place hplace]
      simp [List.getElem?_eq_getElem (h.lt name place hplace)]
    · rename_i hname
      cases hother : w.places.get? other with
      | none => rw [find_of_no_place hother]; exact find_of_no_place hother
      | some place' =>
        have hne : place ≠ place' := by
          rintro rfl
          exact hname (h.injective other name place hother hplace)
        rw [hfind hother, find_of_place hother, List.getElem?_modify]
        simp [hne]

/-- A command leaves all registries but its own as they are. -/
theorem find_step_of_ne (h : w.Apart) {c : Command} (hc : c.target? ≠ some name) :
    (w.step c).2.find name = w.find name := by
  have hne : ∀ {target}, some target ≠ some name → name ≠ target := fun hne he =>
    hne (congrArg some he.symm)
  cases c with
  | create | copy => exact (find_make h _ _ _).trans (if_neg (hne hc))
  | register | update => exact (find_change h _ _ _).trans (if_neg (hne hc))
  | get | contains | size | listing => rfl

/-- Every registry is the one that its history leaves, and no two names share one. -/
structure Follows (w : Workspace) (H : Histories) : Prop where
  apart : w.Apart
  find : ∀ name, w.find name = ofPairs (H name)

theorem Follows.pairsOf (h : w.Follows H) (source : Source) :
    w.pairsOf source = H.writesOf source := by
  cases source with
  | nothing | pairs | mapping => rfl
  | registry name =>
    rw [Workspace.pairsOf, h.find name, toList_ofPairs]
    rfl

theorem Follows.make (h : w.Follows H) (name : String) (history : History) :
    Follows (w.make name (ofPairs history)) (Function.update H name history) where
  apart := h.apart.make name _
  find other := by
    rw [find_make h.apart, Function.update_apply]
    split
    · rfl
    · exact h.find other

theorem Follows.change (h : w.Follows H) (name : String) (writes : History) :
    Follows (w.change name (·.update writes)) (Function.update H name (H name ++ writes)) where
  apart := h.apart.change name _
  find other := by
    rw [find_change h.apart, Function.update_apply]
    split
    · rw [h.find name, ofPairs_append]
    · exact h.find other

/-- A command keeps every registry the one that its history leaves. -/
theorem Follows.step (h : w.Follows H) (c : Command) : Follows (w.step c).2 (H.step c) := by
  cases c with
  | create registry source =>
    show Follows (w.make registry (ofPairs (w.pairsOf source))) _
    rw [h.pairsOf]
    exact h.make registry _
  | register registry node name => exact h.change registry [(node, name)]
  | update registry source =>
    show Follows (w.change registry (·.update (w.pairsOf source))) _
    rw [h.pairsOf]
    exact h.change registry _
  | copy registry target =>
    show Follows (w.make target (w.find registry).copy) _
    rw [copy, h.find registry, toList_ofPairs]
    exact h.make target _
  | get | contains | size | listing => exact h

theorem Follows.run (h : w.Follows H) (commands : List Command) :
    Follows (commands.foldl (fun w c => (w.step c).2) w) (commands.foldl Histories.step H) := by
  induction commands generalizing w H with
  | nil => exact h
  | cons c rest ih => exact ih (h.step c)

theorem follows_after (commands : List Command) :
    Follows (after commands) (Histories.after commands) :=
  Follows.run ⟨apart_empty, fun _ => rfl⟩ commands

/-- What can be seen of the registries after any commands is what their histories say: the name of
the last write to a node, whether it has been written, the number of the nodes, and the nodes in
order of their first writes with their last names. Questions are answered so. A further command
leaves all registries but its own as they are, wherever they have been copied from. -/
theorem run_recounts (commands : List Command) :
    (∀ name, Recounts ((after commands).find name) (Histories.after commands name)) ∧
    (∀ name node, ((after commands).step (.get name node)).1 =
        .ok (.name (History.lastName (Histories.after commands name) node)) ∧
      ((after commands).step (.contains name node)).1 =
        .ok (.truth (decide (node ∈ (Histories.after commands name).map Prod.fst))) ∧
      ((after commands).step (.size name)).1 =
        .ok (.number ((Histories.after commands name).map Prod.fst).toFinset.card)) ∧
    ∀ c name, c.target? ≠ some name →
      ((after commands).step c).2.find name = (after commands).find name := by
  have hseen : ∀ name, Recounts ((after commands).find name) (Histories.after commands name) := by
    intro name
    rw [(follows_after commands).find name]
    exact recounts_ofPairs _
  refine ⟨hseen, fun name node => ⟨?_, ?_, ?_⟩,
    fun c name => find_step_of_ne (follows_after commands).apart⟩
  · exact congrArg (Except.ok ∘ Reply.name) ((hseen name).get? node)
  · refine congrArg (Except.ok ∘ Reply.truth) ?_
    rw [Bool.eq_iff_iff, (hseen name).contains node, decide_eq_true_iff]
  · exact congrArg (Except.ok ∘ Reply.number) (hseen name).size

/-- Registry `b` is a copy of `a`; then both go their own ways, and `a` is updated from itself. -/
def twoRegistries : List Command := [
  .create "a" (.pairs [(some 0, some "Pet"), (some 1, some "Dog"), (some 0, some "Animal")]),
  .copy "a" "b", .register "b" (some 0) (some "Beast"), .register "a" (some 2) none,
  .update "a" (.registry "a"), .update "b" (.registry "a")]

theorem run_recounts_twoRegistries :
    ((after twoRegistries).find "b").toList =
      [(some 0, some "Animal"), (some 1, some "Dog"), (some 2, none)] ∧
    ((after twoRegistries).step (.get "a" (some 0))).1 = .ok (.name (some "Animal")) ∧
    ((after twoRegistries).step (.register "b" (some 1) (some "Cat"))).2.find "a" =
      (after twoRegistries).find "a" := by
  obtain ⟨hseen, hreplies, hframe⟩ := run_recounts twoRegistries
  refine ⟨?_, ?_, hframe _ _ (by decide)⟩
  · rw [(hseen "b").toList]
    decide
  · rw [(hreplies "a" (some 0)).1]
    decide

end Workspace

end ShapeSdl.Registry
