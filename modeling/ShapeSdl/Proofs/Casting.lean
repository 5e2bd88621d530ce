import ShapeSdl.Proofs.Merge
import ShapeSdl.Proofs.Alike
import ShapeSdl.Proofs.Recast
import Mathlib.Order.Basic

/-!
# Casting one reading for another

Two lists of definitions that say the same are read side by side. The nodes of the second reading are
cast for those of the first one.

* `Session.Precedes` : a session and one that comes later, in which objects may have other fields;
* `Casting`, `Role` : which node is cast for which other one, and in which role. A node of the first
  reading has one twin; of the definition that is inlined it has as many copies as there are;
* `Formed` : what is known of the body of the inlined definition, to read it once more;
* `Replay definitions exchange e spare C s s'` : sessions that have been read side by side, the first of
  which will become `e`;
* `Replay.grow`, `Replay.assign`, `Replay.push`, `Replay.rememberBoth`, `Replay.closeBoth` : the
  steps of the two readings.
-/

namespace ShapeSdl

/-! ## Sessions that come later -/

theorem Shape.isObject_of_isLeaf {a : Shape} (h : a.isLeaf = true) : a.isObject = false := by
  cases a <;> first | rfl | cases h

/-- What the shape of a node may be later: an object may have got its fields. -/
def Shape.Becomes (a b : Shape) : Prop := a = b ∨ a.isObject = true ∧ b.isObject = true

/-- Session `t` comes later than session `s`, and objects may have got their fields. -/
structure Session.Precedes (s t : Session) : Prop where
  shape? : ∀ id a, s.graph.shape? (some id) = some a →
    ∃ b, t.graph.shape? (some id) = some b ∧ a.Becomes b
  known : ∀ name id, s.known.get? name = some id → t.known.get? name = some id

theorem Graph.lt_of_shape? {g : Graph} {id : NodeId} {a : Shape} (h : g.shape? (some id) = some a) :
    id < g.size := by
  by_contra hle
  rw [shape?, node?, Array.getElem?_eq_none (Nat.le_of_not_lt hle)] at h
  cases h

theorem Graph.isObject_of_shape? {g : Graph} {r : Ref} {a : Shape} (h : g.shape? r = some a) :
    g.isObject r = a.isObject := by
  rw [isObject, h]
  rfl

theorem Graph.fields_of_shape? {g : Graph} {r : Ref} {fields : Entries String Ref}
    (h : g.shape? r = some (.object fields)) : g.fields r = fields := by
  rw [Graph.fields, h]

namespace Session

variable {s t u : Session}

theorem shape?_add_self (s : Session) (n : Node) :
    (s.add n).graph.shape? (some s.graph.size) = some n.shape :=
  congrArg (Option.map Node.shape) (s.node?_add_self n)

theorem fields_closeObject_self {id : NodeId} (h : s.graph.isObject (some id) = true)
    (fields : Entries String Ref) : (s.closeObject id fields).graph.fields (some id) = fields := by
  obtain ⟨old, hold⟩ := Graph.isObject_iff.1 h
  obtain ⟨n, hn, -⟩ := Option.map_eq_some_iff.1 hold
  rw [Graph.fields, Graph.shape?, node?_closeObject_self hn]
  rfl

theorem fields_closeObject_of_ne {id j : NodeId} (s : Session) (fields : Entries String Ref)
    (h : j ≠ id) : (s.closeObject id fields).graph.fields (some j) = s.graph.fields (some j) := by
  rw [Graph.fields, Graph.fields, shape?_closeObject_of_ne _ _ h]

theorem Grows.precedes (h : s.Grows t) : s.Precedes t where
  shape? _ a ha := ⟨a, (h.shape? (Graph.lt_of_shape? ha)).trans ha, .inl rfl⟩
  known := h.known

theorem Precedes.refl (s : Session) : s.Precedes s := (Grows.refl s).precedes

theorem Precedes.trans (h : s.Precedes t) (h' : t.Precedes u) : s.Precedes u where
  shape? id a ha := by
    obtain ⟨b, hb, hab⟩ := h.shape? id a ha
    obtain ⟨c, hc, hbc⟩ := h'.shape? id b hb
    refine ⟨c, hc, ?_⟩
    rcases hab with rfl | ⟨ha, hb⟩
    · exact hbc
    · rcases hbc with rfl | ⟨-, hc⟩
      · exact .inr ⟨ha, hb⟩
      · exact .inr ⟨ha, hc⟩
  known name id hid := h'.known name id (h.known name id hid)

theorem precedes_closeObject {id : NodeId} (h : s.graph.isObject (some id) = true)
    (fields : Entries String Ref) : s.Precedes (s.closeObject id fields) where
  shape? j a ha := by
    by_cases hj : j = id
    · subst hj
      have hclosed : (s.closeObject j fields).graph.isObject (some j) = true :=
        isObject_closeObject fields h
      obtain ⟨more, hmore⟩ := Graph.isObject_iff.1 hclosed
      exact ⟨_, hmore, .inr ⟨(Graph.isObject_of_shape? ha).symm.trans h, rfl⟩⟩
    · exact ⟨a, (shape?_closeObject_of_ne s fields hj).trans ha, .inl rfl⟩
  known _ _ h := h

end Session

/-! ## Roles -/

/-- What a node of the second reading is to the node that it is cast for. -/
inductive Role where
  /-- Its only twin. Objects have related fields. -/
  | twin
  /-- A copy of a node of the inlined definition. -/
  | copy
  /-- It has the same type as a field. -/
  | stand

/-- Which nodes of the second reading are cast for which nodes of the first one. -/
abbrev Casting := Role → NodeId → NodeId → Prop

namespace Casting

/-- A node is cast for another one as good as the node itself. -/
def Firm (C : Casting) (i j : NodeId) : Prop := C .twin i j ∨ C .copy i j

def Cast (C : Casting) (i j : NodeId) : Prop := ∃ role, C role i j

def put (C : Casting) (role : Role) (i j : NodeId) : Casting := fun role' i' j' =>
  C role' i' j' ∨ role' = role ∧ i' = i ∧ j' = j

variable {C D : Casting} {role : Role} {i j : NodeId}

theorem le_put (C : Casting) (role : Role) (i j : NodeId) : C ≤ C.put role i j :=
  fun _ _ _ h => .inl h

theorem put_self (C : Casting) (role : Role) (i j : NodeId) : C.put role i j role i j :=
  .inr ⟨rfl, rfl, rfl⟩

theorem Firm.mono (h : C.Firm i j) (hle : C ≤ D) : D.Firm i j := h.imp (hle _ _ _) (hle _ _ _)

theorem Firm.cast (h : C.Firm i j) : C.Cast i j := h.elim (fun h => ⟨_, h⟩) fun h => ⟨_, h⟩

theorem Cast.mono (h : C.Cast i j) (hle : C ≤ D) : D.Cast i j := by
  obtain ⟨role, h⟩ := h
  exact ⟨role, hle _ _ _ h⟩

end Casting

abbrev Casting.Fields (C : Casting) (fields fields' : Entries String Ref) : Prop :=
  Entries.Related (Ref.Rel C.Cast) fields fields'

theorem Casting.Fields.mono {C D : Casting} {fields fields' : Entries String Ref}
    (h : C.Fields fields fields') (hle : C ≤ D) : D.Fields fields fields' := by
  apply h.imp
  rintro _ _ ⟨hij⟩
  exact .some (hij.mono hle)

/-- Shapes that refer to nodes that are cast for each other. What lists and objects refer to need only
have the same type. -/
inductive Shape.Resembles (C : Casting) : Shape → Shape → Prop
  | leaf {shape : Shape} (isLeaf : shape.isLeaf = true) : Resembles C shape shape
  | wrapper {i j kind value} (inside : C.Firm i j) :
      Resembles C (.wrapper kind (some i) value) (.wrapper kind (some j) value)
  | list {i j} (inside : C.Cast i j) : Resembles C (.list (some i)) (.list (some j))
  | union {is js} (inside : List.Forall₂ C.Firm is js) :
      Resembles C (.union (is.map some)) (.union (js.map some))
  | object {fields fields'} : Resembles C (.object fields) (.object fields')

namespace Shape

variable {C D : Casting} {a a' b b' : Shape}

theorem Resembles.mono (h : a.Resembles C b) (hle : C ≤ D) : a.Resembles D b := by
  cases h with
  | leaf isLeaf => exact .leaf isLeaf
  | wrapper inside => exact .wrapper (inside.mono hle)
  | list inside => exact .list (inside.mono hle)
  | union inside => exact .union (inside.imp fun _ _ h => h.mono hle)
  | object => exact .object

theorem Resembles.isObject_eq (h : a.Resembles C b) : a.isObject = b.isObject := by
  cases h <;> rfl

theorem Resembles.becomes (h : a.Resembles C b) (ha : a.Becomes a') (hb : b.Becomes b') :
    a'.Resembles C b' := by
  have key : ∀ c c' : Shape, c.isObject = true → c'.isObject = true → c.Resembles C c' := by
    intro c c' hc hc'
    cases c <;> cases hc
    cases c' <;> cases hc'
    exact .object
  rcases ha with rfl | ⟨ha, ha'⟩
  · rcases hb with rfl | ⟨hb, hb'⟩
    · exact h
    · exact key _ _ (h.isObject_eq.trans hb) hb'
  · rcases hb with rfl | ⟨-, hb'⟩
    · exact key _ _ ha' (h.isObject_eq.symm.trans ha)
    · exact key _ _ ha' hb'

end Shape

def Casting.Resembles (C : Casting) (g g' : Graph) (i j : NodeId) : Prop :=
  ∃ a b, g.shape? (some i) = some a ∧ g'.shape? (some j) = some b ∧ a.Resembles C b

/-- The node is that of an enum, a constant or a union of constants with these values. -/
inductive Graph.Constants (g : Graph) : List Json → NodeId → Prop
  | enumeration {values id} (node : g.shape? (some id) = some (.enumeration values))
      (texts : values.all Json.isText = true) : Constants g values id
  | single {value id} (node : g.shape? (some id) = some (.literal value)) : Constants g [value] id
  | union {values id ids} (node : g.shape? (some id) = some (.union (ids.map some)))
      (each : List.Forall₂ (fun i value => g.shape? (some i) = some (.literal value)) ids values) :
      Constants g values id

/-- Two nodes that have the same type as fields: wrappers of one kind around such nodes, or the same
constants. -/
inductive Casting.StandIn (C : Casting) (g g' : Graph) (i j : NodeId) : Prop
  | wrapper {kind value a b} (left : g.shape? (some i) = some (.wrapper kind (some a) value))
      (right : g'.shape? (some j) = some (.wrapper kind (some b) value)) (inside : C.Cast a b)
  | constants {values} (nonempty : values ≠ [])
      (simple : ∀ value ∈ values, value.category.isSome = true) (left : g.Constants values i)
      (right : g'.Constants values j)

namespace Session.Precedes

variable {s t : Session} {id : NodeId} {a : Shape}

theorem shape?_of_not_isObject (h : s.Precedes t) (hs : s.graph.shape? (some id) = some a)
    (ha : a.isObject = false) : t.graph.shape? (some id) = some a := by
  obtain ⟨b, hb, rfl | ⟨ho, -⟩⟩ := h.shape? id a hs
  · exact hb
  · rw [ha] at ho
    cases ho

theorem isObject (h : s.Precedes t) (hs : s.graph.isObject (some id) = true) :
    t.graph.isObject (some id) = true := by
  obtain ⟨fields, hf⟩ := Graph.isObject_iff.1 hs
  obtain ⟨b, hb, rfl | ⟨-, ho⟩⟩ := h.shape? id _ hf
  · exact Graph.isObject_of_shape? hb
  · exact (Graph.isObject_of_shape? hb).trans ho

theorem constants (h : s.Precedes t) {values : List Json} (hc : s.graph.Constants values id) :
    t.graph.Constants values id := by
  cases hc with
  | enumeration node texts => exact .enumeration (h.shape?_of_not_isObject node rfl) texts
  | single node => exact .single (h.shape?_of_not_isObject node rfl)
  | union node each =>
    exact .union (h.shape?_of_not_isObject node rfl)
      (each.imp fun _ _ hi => h.shape?_of_not_isObject hi rfl)

end Session.Precedes

theorem Casting.Resembles.mono {C D : Casting} {g : Graph} {s t : Session} {i j : NodeId}
    (h : C.Resembles g s.graph i j) (hle : C ≤ D) (hp : s.Precedes t) :
    D.Resembles g t.graph i j := by
  obtain ⟨a, b, ha, hb, hab⟩ := h
  obtain ⟨b', hb', hbb⟩ := hp.shape? _ _ hb
  exact ⟨a, b', ha, hb', (hab.becomes (.inl rfl) hbb).mono hle⟩

theorem Casting.StandIn.mono {C D : Casting} {g : Graph} {s t : Session} {i j : NodeId}
    (h : C.StandIn g s.graph i j) (hle : C ≤ D) (hp : s.Precedes t) : D.StandIn g t.graph i j := by
  cases h with
  | wrapper left right inside =>
    exact .wrapper left (hp.shape?_of_not_isObject right rfl) (inside.mono hle)
  | constants nonempty simple left right => exact .constants nonempty simple left (hp.constants right)

/-! ## What is copied -/

/-- The nodes `ids` are of the shapes that a task says, but for the fields of objects. All of them are
as `P` says, and definitions that the task mentions have the nodes that `K` says. -/
inductive Formed (definitions : Definitions) (g : Graph) (K : String → NodeId → Prop)
    (P : NodeId → Prop) : Task → List NodeId → Prop
  | leaf {n h id} (node : g.shape? (some id) = some n.shape) (mine : P id) :
      Formed definitions g K P (.one (.outline (.leaf n h))) [id]
  | wrapper {path kind value inner i id}
      (inside : Formed definitions g K P (.one (.outline inner)) [i])
      (node : g.shape? (some id) = some (.wrapper kind (some i) value)) (mine : P id) :
      Formed definitions g K P (.one (.outline (.wrapper path kind value inner))) [id]
  | list {path metadata element i id}
      (inside : Formed definitions g K P (.one (.outline element)) [i])
      (node : g.shape? (some id) = some (.list (some i))) (mine : P id) :
      Formed definitions g K P (.one (.outline (.list path metadata element))) [id]
  | union {path metadata variants is id}
      (inside : Formed definitions g K P (.all (variants.map .outline)) is)
      (node : g.shape? (some id) = some (.union (is.map some))) (mine : P id) :
      Formed definitions g K P (.one (.outline (.union path metadata variants))) [id]
  | object {path metadata fields is id}
      (inside : Formed definitions g K P (.all (Outline.fieldJobs fields)) is)
      (node : g.isObject (some id) = true) (mine : P id) :
      Formed definitions g K P (.one (.outline (.object path metadata fields))) [id]
  | merge {path metadata parts is id}
      (inside : Formed definitions g K P (.all (parts.map .outline)) is)
      (objects : ∀ i ∈ is, g.isObject (some i) = true) (node : g.isObject (some id) = true)
      (mine : P id) : Formed definitions g K P (.one (.outline (.merge path metadata parts))) [id]
  | reference {ref path name id} (means : ref.referred? = some name)
      (defined : (definitions.lookup name).isSome)
      (inside : Formed definitions g K P (.one (.definition name)) [id]) :
      Formed definitions g K P (.one (.outline (.reference ref path))) [id]
  | definition {name id} (known : K name id) : Formed definitions g K P (.one (.definition name)) [id]
  | nil : Formed definitions g K P (.all []) []
  | cons {job jobs id ids} (first : Formed definitions g K P (.one job) [id])
      (rest : Formed definitions g K P (.all jobs) ids) :
      Formed definitions g K P (.all (job :: jobs)) (id :: ids)

theorem Formed.mono {definitions : Definitions} {g : Graph} {K K' : String → NodeId → Prop}
    {P P' : NodeId → Prop} {task : Task} {ids : List NodeId} (h : Formed definitions g K P task ids)
    (hk : ∀ name id, K name id → K' name id) (hp : ∀ id, P id → P' id) :
    Formed definitions g K' P' task ids := by
  induction h with
  | leaf node mine => exact .leaf node (hp _ mine)
  | wrapper _ node mine ih => exact .wrapper ih node (hp _ mine)
  | list _ node mine ih => exact .list ih node (hp _ mine)
  | union _ node mine ih => exact .union ih node (hp _ mine)
  | object _ node mine ih => exact .object ih node (hp _ mine)
  | merge _ objects node mine ih => exact .merge ih objects node (hp _ mine)
  | reference means defined _ ih => exact .reference means defined ih
  | definition known => exact .definition (hk _ _ known)
  | nil => exact .nil
  | cons _ _ ih₁ ih₂ => exact .cons ih₁ ih₂

/-- A definition other than `name` has this node. -/
def Session.KnowsOther (s : Session) (name other : String) (id : NodeId) : Prop :=
  other ≠ name ∧ s.known.get? other = some id

def Casting.HasCopy (C : Casting) (i : NodeId) : Prop := ∃ j, C .copy i j

theorem Casting.HasCopy.mono {C D : Casting} {i : NodeId} (h : C.HasCopy i) (hle : C ≤ D) :
    D.HasCopy i := by
  obtain ⟨j, hj⟩ := h
  exact ⟨j, hle _ _ _ hj⟩

/-- Of the body of a definition enough is known to read it once more. -/
def Session.HasFormed (s e : Session) (definitions : Definitions) (C : Casting) (name : String)
    (id : NodeId) : Prop :=
  ∃ body, definitions.lookup name = some body ∧ body.isPlainObject = .ok false ∧
    Formed definitions e.graph (s.KnowsOther name) C.HasCopy
      (.one (.outline (body.outline (Definitions.path name)))) [id]

theorem Session.HasFormed.mono {definitions : Definitions} {e s t : Session} {C D : Casting}
    {name : String} {id : NodeId} (h : s.HasFormed e definitions C name id) (hle : C ≤ D)
    (hk : ∀ name id, s.known.get? name = some id → t.known.get? name = some id) :
    t.HasFormed e definitions D name id := by
  obtain ⟨body, hd, hp, hf⟩ := h
  exact ⟨body, hd, hp, hf.mono (fun _ _ h => ⟨h.1, hk _ _ h.2⟩) fun _ h => h.mono hle⟩

/-! ## Sessions that are read side by side -/

/-- A node is cast for the node of a definition: as its twin, or as a copy of the node of the inlined
definition itself. -/
def Casting.Meets (C : Casting) (exchange : Exchange) (e : Session) (i j : NodeId) : Prop :=
  C .twin i j ∨ C .copy i j ∧ ∃ name, exchange = .inlined name ∧ e.known.get? name = some i

theorem Casting.Meets.mono {C D : Casting} {exchange : Exchange} {e : Session} {i j : NodeId}
    (h : C.Meets exchange e i j) (hle : C ≤ D) : D.Meets exchange e i j :=
  h.imp (hle _ _ _) fun h => ⟨hle _ _ _ h.1, h.2⟩

theorem Casting.Meets.firm {C : Casting} {exchange : Exchange} {e : Session} {i j : NodeId}
    (h : C.Meets exchange e i j) : C.Firm i j := h.imp id And.left

/-- Two sessions that have been read side by side, the first of which will become `e`. Of the second
one, the nodes `spare` are not cast. -/
structure Replay (definitions : Definitions) (exchange : Exchange) (e : Session)
    (spare : NodeId → Prop) (C : Casting) (s s' : Session) : Prop where
  lt : ∀ role i j, C role i j → i < s.graph.size ∧ j < s'.graph.size
  spared : ∀ j, spare j → j < s'.graph.size ∧ ∀ role i, ¬ C role i j
  role_eq : ∀ role role' i i' j, C role i j → C role' i' j → role = role' ∧ i = i'
  alone : ∀ role i j k, C .twin i j → C role i k → role = .twin ∧ k = j
  resembles : ∀ i j, C.Firm i j → C.Resembles e.graph s'.graph i j
  standIn : ∀ i j, C .stand i j → C.StandIn e.graph s'.graph i j
  fields : ∀ i j, C .twin i j → C.Fields (s.graph.fields (some i)) (s'.graph.fields (some j))
  known : ∀ name i, s.known.get? name = some i → exchange ≠ .inlined name →
    ∃ j, s'.known.get? name = some j ∧ C.Meets exchange e i j
  known' : ∀ name j, (definitions.lookup name).isSome → s'.known.get? name = some j →
    ∃ i, s.known.get? name = some i ∧ C.Meets exchange e i j
  formed : ∀ name i, exchange = .inlined name → s.known.get? name = some i →
    s.HasFormed e definitions C name i

namespace Replay

variable {definitions : Definitions} {exchange : Exchange} {e s s' t t' : Session} {C : Casting}
  {role : Role} {i j : NodeId} {name : String} {spare : NodeId → Prop}

/-- Nothing but the graph and the definitions that have nodes matters. -/
theorem congr (h : Replay definitions exchange e spare C s s') (hg : t.graph = s.graph)
    (hk : t.known = s.known) (hg' : t'.graph = s'.graph) (hk' : t'.known = s'.known) :
    Replay definitions exchange e spare C t t' := by
  cases s
  cases t
  cases s'
  cases t'
  cases hg
  cases hk
  cases hg'
  cases hk'
  exact ⟨h.lt, h.spared, h.role_eq, h.alone, h.resembles, h.standIn, h.fields, h.known, h.known', h.formed⟩

/-- Nodes are added that are not cast, and in the second session other definitions may get theirs. -/
theorem grow (h : Replay definitions exchange e spare C s s') (hg : s.Grows t) (hk : t.known = s.known)
    (hg' : s'.Grows t') (hk' : ∀ name, (definitions.lookup name).isSome →
      t'.known.get? name = s'.known.get? name) : Replay definitions exchange e spare C t t' where
  lt role i j hij := by
    obtain ⟨hi, hj⟩ := h.lt role i j hij
    exact ⟨Nat.lt_of_lt_of_le hi hg.size_le, Nat.lt_of_lt_of_le hj hg'.size_le⟩
  spared j hj := ⟨Nat.lt_of_lt_of_le (h.spared j hj).1 hg'.size_le, (h.spared j hj).2⟩
  role_eq := h.role_eq
  alone := h.alone
  resembles i j hij := (h.resembles i j hij).mono (le_refl C) hg'.precedes
  standIn i j hij := (h.standIn i j hij).mono (le_refl C) hg'.precedes
  fields i j hij := by
    obtain ⟨hi, hj⟩ := h.lt _ i j hij
    rw [hg.fields hi, hg'.fields hj]
    exact h.fields i j hij
  known name i hi hne := by
    rw [hk] at hi
    obtain ⟨j, hj, hij⟩ := h.known name i hi hne
    exact ⟨j, hg'.known name j hj, hij⟩
  known' name j hd hj := by
    rw [hk' name hd] at hj
    rw [hk]
    exact h.known' name j hd hj
  formed name i he hi := by
    rw [hk] at hi
    exact (h.formed name i he hi).mono (le_refl C) hg.known

/-- What a node must be like to be cast for another one. -/
structure Fitting (e : Session) (spare : NodeId → Prop) (C : Casting) (s s' : Session) (role : Role)
    (i j : NodeId) : Prop where
  lt : i < s.graph.size ∧ j < s'.graph.size
  needed : ¬ spare j
  uncast : ∀ role i, ¬ C role i j
  alone : ∀ role' k, C role' i k → role ≠ .twin ∧ role' ≠ .twin
  resembles : role ≠ .stand → C.Resembles e.graph s'.graph i j
  standIn : role = .stand → C.StandIn e.graph s'.graph i j
  fields : role = .twin → C.Fields (s.graph.fields (some i)) (s'.graph.fields (some j))

theorem assign (h : Replay definitions exchange e spare C s s') (hf : Fitting e spare C s s' role i j) :
    Replay definitions exchange e spare (C.put role i j) s s' where
  lt := by
    rintro _ _ _ (hij | ⟨rfl, rfl, rfl⟩)
    · exact h.lt _ _ _ hij
    · exact hf.lt
  spared k hk := by
    refine ⟨(h.spared k hk).1, ?_⟩
    rintro _ _ (hij | ⟨-, -, rfl⟩)
    · exact (h.spared k hk).2 _ _ hij
    · exact hf.needed hk
  role_eq := by
    rintro _ _ _ _ _ (hij | ⟨rfl, rfl, rfl⟩) (hij' | ⟨rfl, rfl, hj⟩)
    · exact h.role_eq _ _ _ _ _ hij hij'
    · rw [hj] at hij
      exact absurd hij (hf.uncast _ _)
    · exact absurd hij' (hf.uncast _ _)
    · exact ⟨rfl, rfl⟩
  alone := by
    rintro _ _ _ _ (hij | ⟨htwin, rfl, rfl⟩) (hij' | ⟨rfl, hi, rfl⟩)
    · exact h.alone _ _ _ _ hij hij'
    · rw [hi] at hij
      exact absurd rfl (hf.alone _ _ hij).2
    · exact absurd htwin.symm (hf.alone _ _ hij').1
    · exact ⟨htwin.symm, rfl⟩
  resembles := by
    have hput : C.Resembles e.graph s'.graph i j → (C.put role i j).Resembles e.graph s'.graph i j :=
      fun hij => hij.mono (C.le_put _ _ _) (.refl _)
    rintro _ _ ((hij | ⟨rfl, rfl, rfl⟩) | (hij | ⟨rfl, rfl, rfl⟩))
    · exact (h.resembles _ _ (.inl hij)).mono (C.le_put _ _ _) (.refl _)
    · exact hput (hf.resembles nofun)
    · exact (h.resembles _ _ (.inr hij)).mono (C.le_put _ _ _) (.refl _)
    · exact hput (hf.resembles nofun)
  standIn := by
    rintro _ _ (hij | ⟨hstand, rfl, rfl⟩)
    · exact (h.standIn _ _ hij).mono (C.le_put _ _ _) (.refl _)
    · exact (hf.standIn hstand.symm).mono (C.le_put _ _ _) (.refl _)
  fields := by
    rintro _ _ (hij | ⟨htwin, rfl, rfl⟩)
    · exact (h.fields _ _ hij).mono (C.le_put _ _ _)
    · exact (hf.fields htwin.symm).mono (C.le_put _ _ _)
  known name i hi hne := by
    obtain ⟨j, hj, hij⟩ := h.known name i hi hne
    exact ⟨j, hj, hij.mono (C.le_put _ _ _)⟩
  known' name j hd hj := by
    obtain ⟨i, hi, hij⟩ := h.known' name j hd hj
    exact ⟨i, hi, hij.mono (C.le_put _ _ _)⟩
  formed name i he hi := (h.formed name i he hi).mono (C.le_put _ _ _) fun _ _ h => h

theorem push (h : Replay definitions exchange e spare C s s') (role : Role) (n n' : Node)
    (he : (s.add n).Precedes e) (hres : role ≠ .stand → n.shape.Resembles C n'.shape)
    (hstand : role = .stand →
      C.StandIn e.graph (s'.add n').graph s.graph.size s'.graph.size)
    (hfields : role = .twin → ∀ fields fields', n.shape = .object fields →
      n'.shape = .object fields' → C.Fields fields fields') :
    Replay definitions exchange e spare (C.put role s.graph.size s'.graph.size) (s.add n) (s'.add n') := by
  have hn := s.shape?_add_self n
  have hn' := s'.shape?_add_self n'
  apply (h.grow (s.grows_add n) rfl (s'.grows_add n') fun _ _ => rfl).assign
  refine ⟨⟨by simp, by simp⟩, fun hj => Nat.lt_irrefl _ (h.spared _ hj).1, ?_, ?_, fun hne => ?_, hstand,
    fun htwin => ?_⟩
  · exact fun role i hij => Nat.lt_irrefl _ (h.lt _ _ _ hij).2
  · exact fun role k hij => absurd (h.lt _ _ _ hij).1 (Nat.lt_irrefl _)
  · obtain ⟨b, hb, hab⟩ := he.shape? _ _ hn
    exact ⟨b, _, hb, hn', (hres hne).becomes hab (.inl rfl)⟩
  · have hab := hres (by rw [htwin]; nofun)
    have hf := hfields htwin
    rw [Graph.fields, Graph.fields, hn, hn']
    generalize n.shape = a at hab hf
    generalize n'.shape = b at hab hf
    cases hab with
    | leaf isLeaf => cases a <;> first | exact .empty | cases isLeaf
    | wrapper | list | union => exact .empty
    | object => exact hf _ _ rfl rfl

theorem pushCopy (h : Replay definitions exchange e spare C s s') (hi : C.HasCopy i) {n' : Node} {a : Shape}
    (ha : e.graph.shape? (some i) = some a) (hres : a.Resembles C n'.shape) :
    Replay definitions exchange e spare (C.put .copy i s'.graph.size) s (s'.add n') := by
  obtain ⟨k, hk⟩ := hi
  apply (h.grow (.refl s) rfl (s'.grows_add n') fun _ _ => rfl).assign
  refine ⟨⟨(h.lt _ _ _ hk).1, by simp⟩, fun hj => Nat.lt_irrefl _ (h.spared _ hj).1, ?_,
    fun role l hil => ⟨nofun, ?_⟩, fun _ => ?_, nofun, nofun⟩
  · exact fun role i hij => Nat.lt_irrefl _ (h.lt _ _ _ hij).2
  · rintro rfl
    cases (h.alone _ _ _ _ hil hk).1
  · exact ⟨a, _, ha, s'.shape?_add_self n', hres⟩

/-- The definition that is inlined gets its node in the first session. -/
theorem rememberLeft (h : Replay definitions exchange e spare C s s') (he : exchange = .inlined name)
    (hu : s.known.get? name = none) (hf : s.HasFormed e definitions C name i) :
    Replay definitions exchange e spare C (s.remember name i) s' :=
  { h with
    known := by
      intro other k hk hne
      have hother : other ≠ name := fun heq => hne (heq ▸ he)
      rw [Session.remember, Entries.get?_put_of_ne _ _ hother] at hk
      exact h.known other k hk hne
    known' := by
      intro other j hd hj
      obtain ⟨k, hk, hkj⟩ := h.known' other j hd hj
      exact ⟨k, (Session.grows_remember hu i).known _ _ hk, hkj⟩
    formed := by
      intro other k he' hk
      cases he.symm.trans he'
      cases (Entries.get?_put_self ..).symm.trans hk
      exact hf.mono (le_refl C) (Session.grows_remember hu i).known }

theorem rememberRight (h : Replay definitions exchange e spare C s s') (hi : s.known.get? name = some i)
    (hij : C.Meets exchange e i j) : Replay definitions exchange e spare C s (s'.remember name j) :=
  { h with
    known := by
      intro other k hk hne
      by_cases hother : other = name
      · subst hother
        cases hi.symm.trans hk
        exact ⟨j, Entries.get?_put_self .., hij⟩
      · obtain ⟨l, hl, hkl⟩ := h.known other k hk hne
        exact ⟨l, (Entries.get?_put_of_ne _ _ hother).trans hl, hkl⟩
    known' := by
      intro other k hd hk
      by_cases hother : other = name
      · subst hother
        cases (Entries.get?_put_self ..).symm.trans hk
        exact ⟨i, hi, hij⟩
      · exact h.known' other k hd ((Entries.get?_put_of_ne _ _ hother).symm.trans hk) }

theorem rememberBoth (h : Replay definitions exchange e spare C s s') (hne : exchange ≠ .inlined name)
    (hu : s.known.get? name = none) (hij : C.Meets exchange e i j) :
    Replay definitions exchange e spare C (s.remember name i) (s'.remember name j) :=
  { h with
    known := by
      intro other k hk hne
      by_cases hother : other = name
      · subst hother
        cases (Entries.get?_put_self ..).symm.trans hk
        exact ⟨j, Entries.get?_put_self .., hij⟩
      · obtain ⟨l, hl, hkl⟩ := h.known other k ((Entries.get?_put_of_ne _ _ hother).symm.trans hk) hne
        exact ⟨l, (Entries.get?_put_of_ne _ _ hother).trans hl, hkl⟩
    known' := by
      intro other k hd hk
      by_cases hother : other = name
      · subst hother
        cases (Entries.get?_put_self ..).symm.trans hk
        exact ⟨i, Entries.get?_put_self .., hij⟩
      · obtain ⟨l, hl, hlk⟩ := h.known' other k hd
          ((Entries.get?_put_of_ne _ _ hother).symm.trans hk)
        exact ⟨l, (Entries.get?_put_of_ne _ _ hother).trans hl, hlk⟩
    formed := by
      intro other k he hk
      have hother : other ≠ name := fun heq => hne (heq ▸ he)
      have hk' := (Entries.get?_put_of_ne _ _ hother).symm.trans hk
      exact (h.formed other k he hk').mono (le_refl C) (Session.grows_remember hu i).known }

/-- Two objects get their fields. -/
theorem closeBoth (h : Replay definitions exchange e spare C s s') (hij : C .twin i j)
    (hi : s.graph.isObject (some i) = true) (hj : s'.graph.isObject (some j) = true)
    {fields fields' : Entries String Ref} (hf : C.Fields fields fields') :
    Replay definitions exchange e spare C (s.closeObject i fields) (s'.closeObject j fields') where
  lt role i j hij := by
    rw [Session.size_closeObject, Session.size_closeObject]
    exact h.lt role i j hij
  spared j hj := by
    rw [Session.size_closeObject]
    exact h.spared j hj
  role_eq := h.role_eq
  alone := h.alone
  resembles k l hkl := (h.resembles k l hkl).mono (le_refl C) (Session.precedes_closeObject hj _)
  standIn k l hkl := (h.standIn k l hkl).mono (le_refl C) (Session.precedes_closeObject hj _)
  fields k l hkl := by
    by_cases hk : k = i
    · subst hk
      obtain ⟨-, rfl⟩ := h.alone _ _ _ _ hij hkl
      rwa [Session.fields_closeObject_self hi, Session.fields_closeObject_self hj]
    · have hl : l ≠ j := by
        rintro rfl
        exact hk (h.role_eq _ _ _ _ _ hkl hij).2
      rw [Session.fields_closeObject_of_ne _ _ hk, Session.fields_closeObject_of_ne _ _ hl]
      exact h.fields k l hkl
  known := h.known
  known' := h.known'
  formed := h.formed

end Replay

end ShapeSdl
