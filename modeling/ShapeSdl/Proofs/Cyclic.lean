import ShapeSdl.Proofs.Faults
import ShapeSdl.Proofs.Unwinding

/-!
# Definitions that refer to themselves

A definition is entered at most once: after that it has its node, or it is being read. If it is met
while it is being read, it has its node if it is an object definition, and is refused otherwise. So
what is refused lies on a circle of references, and a circle without object definitions is always
refused: the first of its definitions to get a node would need another one that has its node before.

* `Visit.Follows definitions start name other` : on the way from `start`, reading follows a reference
  in the body of definition `name` to definition `other`;
* `Session.Underway definitions stack s` : which definitions have been entered, and which of them
  have a node, while those of the stack are being read;
* `Visit.Traced v definitions start` : how the definitions that are being read follow each other;
* `Definitions.Entangled definitions circle` : none of these definitions is an object, and each refers
  to one of them;
* `readDocument_cyclic` : documents are read to the end, with no definition entered twice, and which
  circles are refused.
-/

namespace ShapeSdl

/-! ## What has been entered -/

/-- While the definitions of a stack are being read, those that have been entered are different
definitions of the document that are being read or have a node. Objects that are being read have
theirs. -/
structure Session.Underway (definitions : Definitions) (stack : List String) (s : Session) :
    Prop where
  sane : s.Sane
  nodup : s.entered.Nodup
  defined : ∀ name ∈ s.entered, (definitions.lookup name).isSome
  settled : ∀ name ∈ s.entered, name ∈ stack ∨ s.Knows name
  opened : ∀ name ∈ stack, definitions.IsPlain name → s.Knows name

namespace Session.Underway

variable {definitions : Definitions} {stack : List String} {s t : Session} {name : String}
  {body : Json}

theorem begin (definitions : Definitions) (s : Session) : s.begin.Underway definitions [] :=
  ⟨s.sane_begin, List.nodup_nil, nofun, nofun, nofun⟩

theorem of_knows (h : s.Underway definitions stack) (ht : t.Sane) (he : t.entered = s.entered)
    (hk : ∀ name, s.Knows name → t.Knows name) : t.Underway definitions stack where
  sane := ht
  nodup := he ▸ h.nodup
  defined := he ▸ h.defined
  settled := he ▸ fun name hname => (h.settled name hname).imp_right (hk name)
  opened name hname hp := hk name (h.opened name hname hp)

theorem add (h : s.Underway definitions stack) (n : Node) : (s.add n).Underway definitions stack :=
  h.of_knows (Session.sane_add h.sane n) rfl fun _ hk => hk

/-- A definition that has no node and is not being read has not been entered. -/
theorem notMem (h : s.Underway definitions stack) (unknown : s.known.get? name = none)
    (free : name ∉ stack) : name ∉ s.entered := by
  intro hmem
  rcases h.settled name hmem with hstack | ⟨id, hid⟩
  · exact free hstack
  · cases unknown.symm.trans hid

/-- The body of a definition is entered, whatever else is done to have a node for an object. -/
theorem enter (h : s.Underway definitions stack) (unknown : s.known.get? name = none)
    (free : name ∉ stack) (defined : definitions.lookup name = some body) (ht : t.Sane)
    (he : t.entered = name :: s.entered) (hk : ∀ name, s.Knows name → t.Knows name)
    (hp : definitions.IsPlain name → t.Knows name) : t.Underway definitions (name :: stack) where
  sane := ht
  nodup := he ▸ List.nodup_cons.2 ⟨h.notMem unknown free, h.nodup⟩
  defined := he ▸ List.forall_mem_cons.2 ⟨by rw [defined]; rfl, h.defined⟩
  settled := he ▸ List.forall_mem_cons.2 ⟨.inl List.mem_cons_self, fun other hother =>
    (h.settled other hother).imp (List.mem_cons_of_mem _) (hk other)⟩
  opened := List.forall_mem_cons.2 ⟨hp, fun other hother hplain =>
    hk other (h.opened other hother hplain)⟩

theorem leave (h : s.Underway definitions (name :: stack)) (hk : s.Knows name) :
    s.Underway definitions stack where
  sane := h.sane
  nodup := h.nodup
  defined := h.defined
  settled other hother := (h.settled other hother).elim
    (fun hmem => (List.mem_cons.1 hmem).elim (fun he => .inr (he ▸ hk)) .inl) .inr
  opened other hother := h.opened other (List.mem_cons_of_mem _ hother)

end Session.Underway

section
variable {definitions : Definitions} {stack : List String} {task : Task} {s t : Session}
  {ids : List NodeId} {v w start : Visit} {name : String} {body : Json}

namespace Session.Underway

theorem plain (h : s.Underway definitions stack) (unknown : s.known.get? name = none)
    (free : name ∉ stack) (defined : definitions.lookup name = some body) (path : String)
    (metadata : List (String × Json)) :
    ((s.enter name).openObject name path metadata).Underway definitions (name :: stack) :=
  h.enter unknown free defined (sane_openObject (s := s.enter name) h.sane name path metadata) rfl
    (fun _ => (grows_openObject unknown path metadata).knows)
    fun _ => ⟨_, Entries.get?_put_self ..⟩

theorem other (h : s.Underway definitions stack) (unknown : s.known.get? name = none)
    (free : name ∉ stack) (defined : definitions.lookup name = some body)
    (isOther : body.isPlainObject ≠ .ok true) :
    (s.enter name).Underway definitions (name :: stack) :=
  h.enter unknown free defined h.sane rfl (fun _ hk => hk)
    fun hp => absurd ((Definitions.isPlain_iff defined).1 hp) isOther

end Session.Underway

theorem Reads.underway (h : Reads definitions stack task s ids t)
    (hs : s.Underway definitions stack) : t.Underway definitions stack := by
  induction h with
  | leaf => exact hs.add _
  | wrapper _ ih | list _ ih | union _ ih | object _ ih => exact (ih hs).add _
  | merge _ _ ih =>
    have ht := ih hs
    exact ht.of_knows (Session.sane_add ht.sane _) rfl fun _ hk => hk
  | reference _ _ _ ih => exact ih hs
  | known | nil => exact hs
  | @plain _ s _ name _ path metadata _ _ unknown free defined isPlain outlined inside ih =>
    have ht := ih (hs.plain unknown free defined path metadata)
    have hread := Reads.plain unknown free defined isPlain outlined inside
    have hk := hread.known_of_definition hs.sane
    exact (ht.of_knows (hread.sane hs.sane) rfl fun _ hk => hk).leave ⟨_, hk⟩
  | other unknown free defined isOther inside ih =>
    have ht := ih (hs.other unknown free defined (by rw [isOther]; nofun))
    have hread := Reads.other unknown free defined isOther inside
    have hu := inside.unknown_of_mem List.mem_cons_self unknown
    have hk := hread.known_of_definition hs.sane
    refine (ht.of_knows (hread.sane hs.sane) rfl fun _ => ?_).leave ⟨_, hk⟩
    exact (Session.grows_remember hu _).knows
  | cons _ _ ih₁ ih₂ => exact ih₂ (ih₁ hs)

theorem Goes.underway (h : Goes definitions v w) (hv : v.session.Underway definitions v.stack) :
    w.session.Underway definitions w.stack := by
  cases h with
  | wrapper | refused | list | union | object | reference | first => exact hv
  | merge read | rest read => exact read.underway hv
  | plain unknown free defined => exact hv.plain unknown free defined _ _
  | other unknown free defined isOther =>
    exact hv.other unknown free defined (by rw [isOther]; nofun)

theorem Goes.underway_of_reaches (h : Relation.ReflTransGen (Goes definitions) v w)
    (hv : v.session.Underway definitions v.stack) : w.session.Underway definitions w.stack := by
  induction h with
  | refl => exact hv
  | tail _ hlast ih => exact hlast.underway ih

theorem Stops.underway {f : Fault} (h : Stops definitions v f t)
    (hv : v.session.Underway definitions v.stack) : ∃ stack, t.Underway definitions stack := by
  cases h with
  | fault | notText | external | unresolved | cyclic => exact ⟨_, hv⟩
  | refused read => exact ⟨_, read.underway hv⟩
  | part read _ last => exact ⟨_, last.underway (read.underway hv)⟩
  | body unknown free defined misshaped =>
    exact ⟨_, hv.other unknown free defined (by rw [misshaped]; nofun)⟩
  | fields unknown free defined => exact ⟨_, hv.plain unknown free defined _ _⟩

/-! ## What is followed -/

/-- On the way from `start`, reading follows a reference in the body of definition `name` to
definition `other`. -/
def Visit.Follows (definitions : Definitions) (start : Visit) (name other : String) : Prop :=
  ∃ stack s, Relation.ReflTransGen (Goes definitions) start
    ⟨name :: stack, .one (.definition other), s⟩

/-- A step on the way stays in the body of one definition, or enters that of the next. -/
theorem Goes.stack_cases (h : Goes definitions v w) :
    (w.stack = v.stack ∧ w.task.mentions ⊆ v.task.mentions) ∨
      ∃ name, v.task = .one (.definition name) ∧ w.stack = name :: v.stack ∧
        ∀ other ∈ w.task.mentions, definitions.Refers name other := by
  cases h with
  | wrapper | refused | list => exact .inl ⟨rfl, List.Subset.refl _⟩
  | @union _ _ _ _ variants => exact .inl ⟨rfl, Outline.mentionsAll_eq variants ▸ .refl _⟩
  | @object _ _ _ _ fields => exact .inl ⟨rfl, Outline.mentionsFields_eq fields ▸ .refl _⟩
  | @merge _ _ _ _ _ before part after =>
    refine .inl ⟨rfl, fun other hother => ?_⟩
    show other ∈ Outline.mentionsAll (before ++ part :: after)
    rw [Outline.mentionsAll_eq, List.map_append, Task.mentions, List.flatMap_append]
    exact List.mem_append_right _ (List.mem_append_left _ hother)
  | @reference _ _ ref _ _ means =>
    refine .inl ⟨rfl, fun other hother => ?_⟩
    show other ∈ ref.referred?.toList
    rwa [means]
  | @plain _ _ name body _ _ fields _ _ defined _ outlined =>
    refine .inr ⟨name, rfl, rfl, fun other hother => ⟨body, defined, ?_⟩⟩
    rwa [outlined, Outline.mentions, Outline.mentionsFields_eq]
  | @other _ _ name body _ _ defined => exact .inr ⟨name, rfl, rfl, fun _ hm => ⟨body, defined, hm⟩⟩
  | first => exact .inl ⟨rfl, List.subset_append_left _ _⟩
  | rest => exact .inl ⟨rfl, List.subset_append_right _ _⟩

theorem List.exists_mem_head? {α : Type} {a : α} {l : List α} (h : a ∈ l) : ∃ b, b ∈ l.head? :=
  Option.isSome_iff_exists.1 (List.isSome_head?.2 (List.ne_nil_of_mem h))

/-- The definitions that are being read follow each other to the innermost one, and what comes next
is referred to by that one. -/
structure Visit.Traced (v : Visit) (definitions : Definitions) (start : Visit) : Prop where
  followed : ∀ inner ∈ v.stack.head?, ∀ name ∈ v.stack,
    Relation.ReflTransGen (start.Follows definitions) name inner
  mentioned : ∀ inner ∈ v.stack.head?, ∀ other ∈ v.task.mentions, definitions.Refers inner other

theorem Visit.follows_of_reaches (h : Relation.ReflTransGen (Goes definitions) start v)
    (ht : v.task = .one (.definition name)) {inner : String} (hi : inner ∈ v.stack.head?) :
    start.Follows definitions inner name := by
  obtain ⟨stack, task, s⟩ := v
  obtain ⟨rest, hstack⟩ := List.head?_eq_some_iff.1 hi
  cases hstack
  cases ht
  exact ⟨rest, s, h⟩

theorem Visit.traced (h : Relation.ReflTransGen (Goes definitions) start v)
    (h0 : start.stack = []) : v.Traced definitions start := by
  induction h with
  | refl => exact ⟨by rw [h0]; nofun, by rw [h0]; nofun⟩
  | @tail v w hv hlast ih =>
    -- What is entered becomes the innermost definition. It has been followed to by the one before.
    rcases hlast.stack_cases with ⟨hstack, hm⟩ | ⟨name, htask, hstack, hm⟩
    · exact ⟨hstack ▸ ih.followed, fun inner hi other ho =>
        ih.mentioned inner (hstack ▸ hi) other (hm ho)⟩
    · refine ⟨?_, ?_⟩ <;> rw [hstack] <;> rintro _ ⟨⟩ other hother
      · rcases List.mem_cons.1 hother with rfl | hother
        · exact .refl
        · obtain ⟨inner, hi⟩ := List.exists_mem_head? hother
          exact (ih.followed inner hi other hother).tail (follows_of_reaches hv htask hi)
      · exact hm other hother

/-- What is followed in a body is referred to by it. -/
theorem Visit.Follows.refers {other : String} (h : start.Follows definitions name other)
    (h0 : start.stack = []) : definitions.Refers name other := by
  obtain ⟨stack, s, hway⟩ := h
  exact (Visit.traced hway h0).mentioned name rfl other (List.mem_singleton_self _)

/-- A definition that is met while it is being read has been followed to from itself. -/
theorem Visit.follows_self (h : Relation.ReflTransGen (Goes definitions) start v)
    (h0 : start.stack = []) (ht : v.task = .one (.definition name)) (busy : name ∈ v.stack) :
    Relation.TransGen (start.Follows definitions) name name := by
  obtain ⟨inner, hi⟩ := List.exists_mem_head? busy
  exact .tail' ((Visit.traced h h0).followed inner hi name busy) (follows_of_reaches h ht hi)

/-! ## Circles without objects -/

/-- None of the definitions of a circle is an object, and each of them refers to one of them. -/
def Definitions.Entangled (definitions : Definitions) (circle : String → Prop) : Prop :=
  ∀ name, circle name → ¬ definitions.IsPlain name ∧
    ∃ other, circle other ∧ definitions.Refers name other

/-- Reading gives none of the definitions of such a circle its node. -/
theorem Reads.not_knows {circle : String → Prop} (h : Reads definitions stack task s ids t)
    (hc : definitions.Entangled circle) (hs : s.Sane) (hn : ∀ name, circle name → ¬ s.Knows name) :
    ∀ name, circle name → ¬ t.Knows name := by
  induction h with
  | leaf | known | nil => exact hn
  | wrapper _ ih | list _ ih | union _ ih | object _ ih | merge _ _ ih | reference _ _ _ ih =>
    exact ih hs hn
  | @plain _ s _ name body path metadata _ _ _ _ defined isPlain _ _ ih =>
    have hso := Session.sane_openObject (s := s.enter name) hs name path metadata
    refine ih hso fun other hother => ?_
    -- Only an object gets its node here.
    have hne : other ≠ name := by
      rintro rfl
      exact (hc _ hother).1 ⟨body, defined, isPlain⟩
    exact fun hk => hn other hother (Session.knows_put_of_ne hne hk)
  | @other _ _ _ name body _ _ _ defined _ inside ih =>
    intro other hother hk
    by_cases he : other = name
    · subst he
      -- Its body has been read before it gets its node, and with it another one of the circle.
      obtain ⟨-, next, hnext, body', hd', hm⟩ := hc other hother
      cases defined.symm.trans hd'
      exact ih hs hn next hnext (inside.knows hs next hm)
    · exact ih hs hn other hother (Session.knows_put_of_ne he hk)
  | cons first _ ih₁ ih₂ => exact ih₂ (first.sane hs) (ih₁ hs hn)

/-- The definitions of a circle of references between definitions that are no objects. -/
theorem Definitions.entangled_of_transGen (definitions : Definitions) :
    definitions.Entangled fun name => Relation.TransGen
      (fun a b => definitions.Refers a b ∧ ¬ definitions.IsPlain a) name name := by
  intro name h
  obtain ⟨other, hfirst, hback⟩ := Relation.TransGen.head'_iff.1 h
  exact ⟨hfirst.2, other, .tail' hback hfirst, hfirst.1⟩

end

/-! ## Documents -/

section
variable {schema : Json} {definitions : Definitions} {root : String} {s t : Session}

/-- However the reading of a document ends, each definition has been entered at most once. -/
theorem readDocument_underway (hd : schema.definitions = .ok definitions)
    (h : (∃ batch, readDocument schema root s = .ok batch t) ∨
      ∃ f, readDocument schema root s = .error f t) :
    ∃ stack, t.Underway definitions stack := by
  have hbegin := Session.Underway.begin definitions s
  rcases h with ⟨batch, h⟩ | ⟨f, h⟩
  · obtain ⟨definitions', ids, u, hd', hread, h⟩ := readDocument_eq_ok_iff.1 h
    cases hd.symm.trans hd'
    have hu := hread.underway hbegin
    dsimp only at h
    split at h
    · obtain ⟨id, hroot, -⟩ := h
      exact ⟨[], hroot.underway hu⟩
    · obtain ⟨-, rfl⟩ := h
      exact ⟨[], hu⟩
  · obtain ⟨w, hway, hstop⟩ := readDocument_eq_error hd h
    exact hstop.underway (Goes.underway_of_reaches hway hbegin)

/-- A definition is refused for referring to itself only if reading has followed references from it
to itself, and it is no object. -/
theorem readDocument_eq_cyclic (hd : schema.definitions = .ok definitions) {name : String}
    (h : readDocument schema root s = .error (.structural (.cyclicDefinition name)) t) :
    Relation.TransGen ((schema.visit definitions root s).Follows definitions) name name ∧
      ¬ definitions.IsPlain name := by
  obtain ⟨w, hway, hstop⟩ := readDocument_eq_error hd h
  have hdefs : definitions.Tells fun f => f.isCyclic = false :=
    fun _ _ _ _ _ hf => Json.not_isCyclic_of_outline hf
  have htask := Goes.tells_of_reaches hway hdefs (Json.tells_visit (fun o ho f hf => ?_) s)
  · rcases hstop.told hdefs htask with hf | ⟨_, _, -, hf⟩ | ⟨cause, hcause, hname⟩
    · cases hf
    · obtain ⟨⟨_, hf⟩, -⟩ := Json.isPlainObject_error hf
      cases hf
    · obtain ⟨htask, unknown, busy⟩ := hname name (Fault.structural.inj hcause).symm
      refine ⟨Visit.follows_self hway rfl htask busy, fun hp => ?_⟩
      -- An object that is being read has its node, and would not have been refused.
      have hw := Goes.underway_of_reaches hway (Session.Underway.begin definitions s)
      obtain ⟨id, hid⟩ := hw.opened name busy hp
      cases unknown.symm.trans hid
  · unfold Json.rootOutline at ho
    split at ho
    · cases ho
      exact Json.not_isCyclic_of_outline hf
    · cases ho

/-- A document is not read to its end if definitions that are no objects refer to each other in a
circle. -/
theorem readDocument_ne_ok_of_circle (hd : schema.definitions = .ok definitions) {name : String}
    (hc : Relation.TransGen (fun a b => definitions.Refers a b ∧ ¬ definitions.IsPlain a) name name)
    (batch : Batch) : readDocument schema root s ≠ .ok batch t := by
  intro h
  obtain ⟨definitions', ids, u, hd', hread, -⟩ := readDocument_eq_ok_iff.1 h
  cases hd.symm.trans hd'
  have hb := s.sane_begin
  have hdef : name ∈ (Task.all definitions.jobs).mentions := by
    obtain ⟨_, ⟨⟨body, hbody, -⟩, -⟩, -⟩ := Relation.TransGen.head'_iff.1 hc
    refine List.mem_flatMap.2 ⟨.definition name, ?_, List.mem_singleton_self _⟩
    exact List.mem_map.2 ⟨(name, body), Definitions.mem_of_lookup hbody, rfl⟩
  refine hread.not_knows definitions.entangled_of_transGen hb ?_ name hc (hread.knows hb name hdef)
  rintro other - ⟨id, hid⟩
  cases hid

/-- Reading a document comes to an end: it never enters more definitions inside each other than there
are, whatever would be done beyond. However it ends, every definition has been entered at most once.
If the references that it follows make no circle through a definition that is no object, none is
refused for referring to itself. If they make a circle without objects, reading does not succeed.
The latter is so even for the references that stand in the definitions, be they followed or not. -/
theorem readDocument_cyclic (hd : schema.definitions = .ok definitions) (root : String)
    (s : Session) :
    let start := schema.visit definitions root s
    (∀ beyond depth, definitions.length < depth →
      readDocumentBy (fun definitions => readDefinitionWithin definitions beyond depth []) schema
        root = readDocument schema root) ∧
    (∀ t, ((∃ batch, readDocument schema root s = .ok batch t) ∨
        ∃ f, readDocument schema root s = .error f t) →
      t.entered.Nodup ∧ ∀ name ∈ t.entered, (definitions.lookup name).isSome) ∧
    (∀ name other, start.Follows definitions name other → definitions.Refers name other) ∧
    ((∀ name, Relation.TransGen (start.Follows definitions) name name → definitions.IsPlain name) →
      ∀ name t, readDocument schema root s ≠ .error (.structural (.cyclicDefinition name)) t) ∧
    ((∃ name, Relation.TransGen (fun a b => definitions.Refers a b ∧ ¬ definitions.IsPlain a)
        name name) →
      ∀ batch t, readDocument schema root s ≠ .ok batch t) := by
  refine ⟨fun beyond depth h => readDocumentBy_eq hd beyond h root, fun t ht => ?_,
    fun _ _ h => h.refers rfl, fun hplain name t h => ?_, fun ⟨name, hc⟩ batch t => ?_⟩
  · obtain ⟨stack, hu⟩ := readDocument_underway hd ht
    exact ⟨hu.nodup, hu.defined⟩
  · obtain ⟨hcircle, hother⟩ := readDocument_eq_cyclic hd h
    exact hother (hplain name hcircle)
  · exact readDocument_ne_ok_of_circle hd hc batch

end

/-- Two list definitions that refer to each other, and an object that refers to itself. -/
def ringDefinitions : Definitions := [
  ("Tree", .obj [("type", .str "object"), ("properties", .obj [
    ("parent", .obj [("$ref", .str "#/$defs/Tree")])])]),
  ("Row", .obj [("type", .str "array"), ("items", .obj [("$ref", .str "#/$defs/Column")])]),
  ("Column", .obj [("type", .str "array"), ("items", .obj [("$ref", .str "#/$defs/Row")])])]

def ringDocument : Json := .obj [("$defs", .obj ringDefinitions)]

theorem readDocument_cyclic_ring : ringDocument.definitions = .ok ringDefinitions ∧
    ringDefinitions.Refers "Tree" "Tree" ∧ ringDefinitions.IsPlain "Tree" ∧
    (∃ t, readDocument ringDocument "" {} = .error (.structural (.cyclicDefinition "Row")) t ∧
      t.entered.Nodup) ∧
    (∃ name, Relation.TransGen ((ringDocument.visit ringDefinitions "" {}).Follows ringDefinitions)
      name name ∧ ¬ ringDefinitions.IsPlain name) ∧
    ∀ batch t, readDocument ringDocument "" {} ≠ .ok batch t := by
  have hd : ringDocument.definitions = .ok ringDefinitions := rfl
  obtain ⟨-, hentered, -, hplain, hring⟩ := readDocument_cyclic hd "" {}
  have htree : ringDefinitions.Refers "Tree" "Tree" := ⟨_, rfl, by decide +kernel⟩
  have hrow : ringDefinitions.Refers "Row" "Column" := ⟨_, rfl, by decide +kernel⟩
  have hcolumn : ringDefinitions.Refers "Column" "Row" := ⟨_, rfl, by decide +kernel⟩
  have hrowList : ¬ ringDefinitions.IsPlain "Row" := by
    rintro ⟨_, ⟨⟩, hp⟩
    cases hp
  have hcolumnList : ¬ ringDefinitions.IsPlain "Column" := by
    rintro ⟨_, ⟨⟩, hp⟩
    cases hp
  obtain ⟨f, t, h, hf⟩ := Reading.exists_error (x := readDocument ringDocument "" {})
    (p := fun f => f = .structural (.cyclicDefinition "Row")) (by decide +kernel)
  cases of_decide_eq_true hf
  refine ⟨hd, htree, ⟨_, rfl, rfl⟩, ⟨t, h, (hentered t (.inr ⟨_, h⟩)).1⟩, ?_, ?_⟩
  · by_contra hnone
    push Not at hnone
    exact hplain hnone "Row" t h
  · exact hring ⟨"Row", .tail (.single ⟨hrow, hrowList⟩) ⟨hcolumn, hcolumnList⟩⟩

end ShapeSdl
