import ShapeSdl.Proofs.Reads
import Mathlib.Data.List.Basic

/-!
# Reading behind other nodes

Reading never asks where its nodes are, and it asks for none that it has not made. So what is read
behind the nodes of earlier documents is what is read into an empty graph, at later positions.

* `Shape.rename`, `Node.rename` : a shape and a node that refer to renamed nodes;
* `Graph.shift base`, `Graph.behind base` : the positions behind the nodes of a graph, and a graph
  with its nodes there;
* `Session.behind base` : a session whose nodes are there;
* `Reading.Behind base f x y` : behind those nodes `y` ends as `x` does, with the value renamed by
  `f`, in success and in failure;
* `Outline.run_behind`, `readDefinition_behind`, `readDocument_behind` : so does reading a schema, a
  definition, a document.
-/

namespace ShapeSdl

open Reading

/-! ## Entries with other values -/

namespace Entries

universe u v w

variable {α : Type u} {β : Type v} {γ : Type w}

def mapValues (f : β → γ) (e : Entries α β) : Entries α γ :=
  ⟨e.toList.map fun p => (p.1, f p.2), by
    rw [List.map_map]
    exact e.nodup_keys⟩

@[simp] theorem toList_mapValues (f : β → γ) (e : Entries α β) :
    (e.mapValues f).toList = e.toList.map fun p => (p.1, f p.2) := rfl

variable [DecidableEq α] (f : β → γ)

theorem putPair_map (k : α) (v : β) : ∀ xs : List (α × β),
    putPair k (f v) (xs.map fun p => (p.1, f p.2)) = (putPair k v xs).map fun p => (p.1, f p.2)
  | [] => rfl
  | (k', v') :: rest => by
    have ih := putPair_map k v rest
    by_cases hk : k' = k <;> simp [putPair, hk, ih]

theorem mapValues_put (e : Entries α β) (k : α) (v : β) :
    (e.put k v).mapValues f = (e.mapValues f).put k (f v) :=
  ext_toList (putPair_map f k v e.toList).symm

theorem mapValues_putAll : ∀ (ps : List (α × β)) (e : Entries α β),
    (e.putAll ps).mapValues f = (e.mapValues f).putAll (ps.map fun p => (p.1, f p.2))
  | [], _ => rfl
  | p :: rest, e => by
    rw [putAll_cons, mapValues_putAll rest, mapValues_put]
    rfl

theorem mapValues_ofList (ps : List (α × β)) :
    (ofList ps).mapValues f = ofList (ps.map fun p => (p.1, f p.2)) := mapValues_putAll f ps ∅

theorem get?_mapValues (e : Entries α β) (k : α) : (e.mapValues f).get? k = (e.get? k).map f := by
  rw [get?, get?, toList_mapValues]
  generalize e.toList = xs
  induction xs with
  | nil => rfl
  | cons p rest ih =>
    obtain ⟨k', v⟩ := p
    rw [List.map_cons, lookup_cons_ite, lookup_cons_ite, ih]
    split <;> rfl

end Entries

/-! ## Renamed nodes -/

def Shape.rename (ρ : NodeId → NodeId) : Shape → Shape
  | scalar base checks => scalar base checks
  | wrapper kind inner value => wrapper kind (inner.map ρ) value
  | list element => list (element.map ρ)
  | object fields => object (fields.mapValues (Option.map ρ))
  | enumeration values => enumeration values
  | literal value => literal value
  | union variants => union (variants.map (Option.map ρ))
  | bare => bare

def Node.rename (ρ : NodeId → NodeId) (n : Node) : Node := { n with shape := n.shape.rename ρ }

namespace Shape

variable (ρ : NodeId → NodeId)

theorem rename_of_isLeaf {shape : Shape} (h : shape.isLeaf = true) : shape.rename ρ = shape := by
  cases shape <;> first | rfl | cases h

@[simp] theorem kindName_rename (shape : Shape) : (shape.rename ρ).kindName = shape.kindName := by
  cases shape <;> rfl

@[simp] theorem isObject_rename (shape : Shape) : (shape.rename ρ).isObject = shape.isObject := by
  cases shape <;> rfl

theorem rename_union (ids : List NodeId) :
    (union (ids.map some)).rename ρ = union ((ids.map ρ).map some) := by
  simp [rename]

theorem rename_object (fields : List (String × Ref)) : (object (.ofList fields)).rename ρ =
    object (.ofList (fields.map fun p => (p.1, p.2.map ρ))) := by
  rw [rename, Entries.mapValues_ofList]

end Shape

/-! ## Graphs behind other graphs -/

namespace Graph

/-- The position of a node behind the nodes of `base`. -/
def shift (base : Graph) (id : NodeId) : NodeId := base.size + id

/-- The nodes of `base`, and behind them those of `g`. -/
def behind (base g : Graph) : Graph := ⟨base.nodes ++ g.nodes.map (Node.rename base.shift)⟩

theorem shift_injective (base : Graph) : Function.Injective base.shift :=
  fun _ _ h => Nat.add_left_cancel h

variable (base g : Graph)

theorem ext_node? {g h : Graph} (hn : ∀ id, g.node? (some id) = h.node? (some id)) : g = h := by
  obtain ⟨nodes⟩ := g
  obtain ⟨nodes'⟩ := h
  exact congrArg Graph.mk (Array.ext_getElem? hn)

@[simp] theorem behind_empty : base.behind ∅ = base :=
  congrArg Graph.mk (show base.nodes ++ #[].map _ = base.nodes by simp)

@[simp] theorem size_behind : (base.behind g).size = base.shift g.size := by
  simp [behind, size, shift]

theorem node?_behind (id : NodeId) : (base.behind g).node? (some (base.shift id)) =
    (g.node? (some id)).map (Node.rename base.shift) := by
  change (base.nodes ++ g.nodes.map (Node.rename base.shift))[base.nodes.size + id]? = _
  rw [Array.getElem?_append_right (Nat.le_add_right ..), Nat.add_sub_cancel_left,
    Array.getElem?_map]
  rfl

theorem node?_behind_of_lt {id : NodeId} (h : id < base.size) :
    (base.behind g).node? (some id) = base.node? (some id) :=
  Array.getElem?_append_left h

theorem behind_add (n : Node) :
    base.behind (g.add n) = (base.behind g).add (n.rename base.shift) := by
  simp [behind, add]

theorem behind_setShape (id : NodeId) (shape : Shape) :
    base.behind (g.setShape id shape) =
      (base.behind g).setShape (base.shift id) (shape.rename base.shift) := by
  refine ext_node? fun j => ?_
  rcases Nat.lt_or_ge j base.size with hj | hj
  · have hne : j ≠ base.shift id := Nat.ne_of_lt (Nat.lt_of_lt_of_le hj (Nat.le_add_right ..))
    rw [node?_behind_of_lt _ _ hj, node?_setShape_of_ne _ _ hne, node?_behind_of_lt _ _ hj]
  · obtain ⟨k, rfl⟩ := Nat.exists_eq_add_of_le hj
    change _ = ((base.behind g).setShape _ _).node? (some (base.shift k))
    refine (node?_behind base _ k).trans ?_
    by_cases hk : k = id
    · subst hk
      rw [node?_setShape_self, node?_setShape_self, node?_behind, Option.map_map, Option.map_map]
      rfl
    · rw [node?_setShape_of_ne _ _ hk, node?_setShape_of_ne _ _ (base.shift_injective.ne hk),
        node?_behind]

theorem shape?_behind (r : Ref) : (base.behind g).shape? (r.map base.shift) =
    (g.shape? r).map (Shape.rename base.shift) := by
  cases r with
  | none => rfl
  | some id =>
    rw [Option.map_some, shape?, node?_behind, shape?, Option.map_map, Option.map_map]
    rfl

theorem isObject_behind (r : Ref) :
    (base.behind g).isObject (r.map base.shift) = g.isObject r := by
  rw [isObject, shape?_behind, isObject, Option.map_map]
  congr 2
  funext shape
  exact shape.isObject_rename _

theorem kindName_behind (r : Ref) :
    (base.behind g).kindName (r.map base.shift) = g.kindName r := by
  rw [kindName, shape?_behind, kindName, Option.map_map]
  congr 2
  funext shape
  exact shape.kindName_rename _

/-! ### Declared definitions -/

theorem isOwn_behind (definition : String × NodeId) :
    (base.behind g).isOwn (definition.1, base.shift definition.2) = g.isOwn definition := by
  rw [isOwn, node?_behind, isOwn, Option.any_map]
  rfl

theorem isDeclarable_behind (id : NodeId) :
    (base.behind g).isDeclarable (base.shift id) = g.isDeclarable id := by
  have hs := shape?_behind base g (some id)
  rw [Option.map_some] at hs
  rw [isDeclarable, hs, isDeclarable]
  cases g.shape? (some id) with
  | none => rfl
  | some shape =>
    cases shape with
    | union variants => simp [Shape.rename, isObject_behind, Function.comp_def]
    | _ => rfl

theorem declared_behind (nodes : List (String × NodeId)) :
    (base.behind g).declared (nodes.map fun d => (d.1, base.shift d.2)) =
      (g.declared nodes).map fun d => (d.1, d.2.map base.shift) := by
  have hown : (base.behind g).isOwn ∘ (fun d => (d.1, base.shift d.2)) = g.isOwn :=
    funext (isOwn_behind base g)
  have howned : ((nodes.map fun d => (d.1, base.shift d.2)).filter (base.behind g).isOwn).map
      Prod.snd = ((nodes.filter g.isOwn).map Prod.snd).map base.shift := by
    rw [List.filter_map, hown, List.map_map, List.map_map]
    rfl
  have hcontains : ∀ (ids : List NodeId) id,
      (ids.map base.shift).contains (base.shift id) = ids.contains id := by
    intro ids id
    rw [List.contains_eq_mem, List.contains_eq_mem]
    exact decide_eq_decide.2 (List.mem_map_of_injective base.shift_injective)
  unfold declared
  dsimp only
  rw [howned]
  generalize (nodes.filter g.isOwn).map Prod.snd = owned
  rw [List.filter_map, List.map_map, List.map_map]
  refine congrArg (List.map _) (List.filter_congr fun d _ => ?_)
  simp only [Function.comp_apply, hcontains, isOwn_behind, isDeclarable_behind]

end Graph

/-! ## Sessions behind other graphs -/

def Merge.rename (ρ : NodeId → NodeId) (m : Merge) : Merge :=
  ⟨ρ m.node, m.parts.map ρ, m.unfinished.map ρ⟩

namespace Session

def behind (base : Graph) (s : Session) : Session where
  graph := base.behind s.graph
  known := s.known.mapValues base.shift
  entered := s.entered
  unfinished := s.unfinished.map base.shift
  merges := s.merges.map (Merge.rename base.shift)

variable (base : Graph) (s : Session)

theorem begin_eq_behind : s.begin = ({} : Session).behind s.graph := by
  rw [behind, Graph.behind_empty]
  rfl

theorem behind_add (n : Node) :
    (s.add n).behind base = (s.behind base).add (n.rename base.shift) := by
  rw [behind, add, Graph.behind_add]
  rfl

theorem behind_remember (name : String) (id : NodeId) :
    (s.remember name id).behind base = (s.behind base).remember name (base.shift id) := by
  rw [behind, remember, Entries.mapValues_put]
  rfl

theorem behind_openObject (name path : String) (metadata : List (String × Json)) :
    (s.openObject name path metadata).behind base =
      (s.behind base).openObject name path metadata := by
  simp only [openObject, behind, add, remember, Graph.behind_add, Graph.size_behind,
    Entries.mapValues_put, List.map_cons]
  rfl

theorem behind_closeObject (id : NodeId) (fields : Entries String Ref) :
    (s.closeObject id fields).behind base =
      (s.behind base).closeObject (base.shift id) (fields.mapValues (Option.map base.shift)) := by
  rw [behind, closeObject, Graph.behind_setShape, List.map_tail]
  rfl

theorem behind_addMerged (path : String) (metadata : List (String × Json))
    (fields : Entries String Ref) (parts : List NodeId) :
    (s.addMerged path metadata fields parts).behind base =
      (s.behind base).addMerged path metadata (fields.mapValues (Option.map base.shift))
        (parts.map base.shift) := by
  simp only [addMerged, behind, add, Graph.behind_add, Graph.size_behind, List.map_cons]
  rfl

end Session

/-! ## Reading behind other graphs -/

namespace Reading

variable {base : Graph} {α β : Type} {f : α → α} {g : β → β} {x y : Reading α}

/-- The end of a reading, with the session behind the nodes of `base` and the value renamed. -/
def endBehind (base : Graph) (f : α → α) :
    EStateM.Result Fault Session α → EStateM.Result Fault Session α
  | .ok a s => .ok (f a) (s.behind base)
  | .error e s => .error e (s.behind base)

/-- Behind the nodes of `base` the second reading ends as the first one does, with the value renamed
by `f`. -/
def Behind (base : Graph) (f : α → α) (x y : Reading α) : Prop :=
  ∀ s, y (s.behind base) = endBehind base f (x s)

namespace Behind

theorem pure {a b : α} (h : f a = b) : Behind base f (pure a) (pure b) := by
  subst h
  exact fun _ => rfl

theorem throw (e : Fault) : Behind base f (throw e) (throw e) := fun _ => rfl

theorem lift (e : Except Fault α) : Behind base id (liftM e) (liftM e) := by
  intro s
  cases e <;> rfl

theorem bind {k l : α → Reading β} (h : Behind base f x y)
    (hk : ∀ a, Behind base g (k a) (l (f a))) : Behind base g (x >>= k) (y >>= l) := by
  intro s
  show EStateM.bind y l (s.behind base) = endBehind base g (EStateM.bind x k s)
  unfold EStateM.bind
  rw [h s]
  cases x s with
  | ok a t => exact hk a t
  | error e t => rfl

theorem get {k l : Session → Reading β} (h : ∀ s, Behind base g (k s) (l (s.behind base))) :
    Behind base g (get >>= k) (get >>= l) := fun s => h s s

theorem modifyGet {step step' : Session → α × Session}
    (h : ∀ s, step' (s.behind base) = (f (step s).1, (step s).2.behind base)) :
    Behind base f (modifyGet step) (modifyGet step') := by
  intro s
  show EStateM.Result.ok (step' (s.behind base)).1 (step' (s.behind base)).2 = _
  rw [h s]
  rfl

theorem mapM {γ : Type} {k : γ → Reading α} (hk : ∀ c, Behind base f (k c) (k c)) :
    ∀ l : List γ, Behind base (List.map f) (l.mapM k) (l.mapM k)
  | [] => .pure rfl
  | c :: rest => by
    rw [List.mapM_cons]
    exact (hk c).bind fun a => (mapM hk rest).bind fun as => .pure rfl

theorem addNode (path : String) (metadata : List (String × Json)) {shape shape' : Shape}
    (h : shape.rename base.shift = shape') :
    Behind base base.shift (addNode path metadata shape) (addNode path metadata shape') := by
  refine modifyGet fun s => ?_
  rw [Session.behind_add, ← h]
  exact Prod.ext (Graph.size_behind ..) rfl

theorem addMerged (path : String) (metadata : List (String × Json)) (fields : Entries String Ref)
    (parts : List NodeId) : Behind base base.shift (addMerged path metadata fields parts)
      (Reading.addMerged path metadata (fields.mapValues (Option.map base.shift))
        (parts.map base.shift)) := by
  refine modifyGet fun s => ?_
  rw [Session.behind_addMerged]
  exact Prod.ext (Graph.size_behind ..) rfl

theorem enter (name : String) : Behind base id (enter name) (enter name) := fun _ => rfl

theorem remember (name : String) (node : NodeId) :
    Behind base id (remember name node) (Reading.remember name (base.shift node)) := by
  refine modifyGet fun s => ?_
  rw [Session.behind_remember]

theorem openObject (name path : String) (metadata : List (String × Json)) :
    Behind base base.shift (openObject name path metadata) (openObject name path metadata) := by
  refine modifyGet fun s => ?_
  rw [Session.behind_openObject]
  exact Prod.ext (Graph.size_behind ..) rfl

theorem closeObject (node : NodeId) (fields : Entries String Ref) :
    Behind base id (closeObject node fields)
      (Reading.closeObject (base.shift node) (fields.mapValues (Option.map base.shift))) := by
  refine modifyGet fun s => ?_
  rw [Session.behind_closeObject]

end Behind

end Reading

namespace Outline

variable {base : Graph} {follow : Json → String → Reading NodeId}

mutual

/-- Reading by an outline is the same behind other nodes if following references is. -/
theorem run_behind (h : ∀ ref path, Behind base base.shift (follow ref path) (follow ref path)) :
    ∀ o : Outline, Behind base base.shift (o.run follow) (o.run follow)
  | .fault f => .throw f
  | .refused inner f => (run_behind h inner).bind fun _ => .throw f
  | .reference ref path => h ref path
  | .leaf _ isLeaf => .addNode _ _ (Shape.rename_of_isLeaf _ isLeaf)
  | .wrapper _ _ _ inner => (run_behind h inner).bind fun _ => .addNode _ _ rfl
  | .list _ _ element => (run_behind h element).bind fun _ => .addNode _ _ rfl
  | .union _ _ variants =>
    (runAll_behind h variants).bind fun ids => .addNode _ _ (Shape.rename_union _ ids)
  | .object _ _ fields =>
    (runFields_behind h fields).bind fun refs => .addNode _ _ (Shape.rename_object _ refs)
  | .merge path _ parts =>
    (runParts_behind h path 0 ∅ parts).bind fun (fields, ids) => .addMerged _ _ fields ids

theorem runAll_behind (h : ∀ ref path, Behind base base.shift (follow ref path) (follow ref path)) :
    ∀ os : List Outline, Behind base (List.map base.shift) (runAll follow os) (runAll follow os)
  | [] => .pure rfl
  | o :: rest => (run_behind h o).bind fun _ => (runAll_behind h rest).bind fun _ => .pure rfl

theorem runFields_behind
    (h : ∀ ref path, Behind base base.shift (follow ref path) (follow ref path)) :
    ∀ fields : List (String × Outline), Behind base (List.map fun p => (p.1, p.2.map base.shift))
      (runFields follow fields) (runFields follow fields)
  | [] => .pure rfl
  | (_, o) :: rest =>
    (run_behind h o).bind fun _ => (runFields_behind h rest).bind fun _ => .pure rfl

theorem runParts_behind
    (h : ∀ ref path, Behind base base.shift (follow ref path) (follow ref path))
    (path : String) (index : Nat) (fields : Entries String Ref) : ∀ parts : List Outline,
      Behind base (fun p => (p.1.mapValues (Option.map base.shift), p.2.map base.shift))
        (runParts follow path index fields parts)
        (runParts follow path index (fields.mapValues (Option.map base.shift)) parts)
  | [] => .pure rfl
  | o :: rest => by
    refine (run_behind h o).bind fun id => .get fun s => ?_
    have hs := Graph.shape?_behind base s.graph (some id)
    have hk := Graph.kindName_behind base s.graph (some id)
    rw [Option.map_some] at hs hk
    dsimp only [Session.behind]
    rw [hs, hk]
    cases s.graph.shape? (some id) with
    | none => exact .throw _
    | some shape =>
      cases shape with
      | object more =>
        have hfields : (fields.mapValues (Option.map base.shift)).putAll
            (more.mapValues (Option.map base.shift)).toList =
              (fields.putAll more.toList).mapValues (Option.map base.shift) :=
          (Entries.mapValues_putAll _ more.toList fields).symm
        dsimp only [Option.map_some, Shape.rename]
        rw [hfields]
        exact (runParts_behind h path _ _ rest).bind fun _ => .pure rfl
      | _ => exact .throw _

end

end Outline

section
variable {base : Graph} {definitions : Definitions} {follow : Json → String → Reading NodeId}

theorem readSchema_behind
    (h : ∀ ref path, Behind base base.shift (follow ref path) (follow ref path))
    (schema : Json) (path : String) :
    Behind base base.shift (readSchema follow schema path) (readSchema follow schema path) := by
  rw [readSchema_eq_run]
  exact Outline.run_behind h _

theorem readFields_behind
    (h : ∀ ref path, Behind base base.shift (follow ref path) (follow ref path))
    (schema : Json) (path : String) : Behind base (Entries.mapValues (Option.map base.shift))
      (readFields follow schema path) (readFields follow schema path) := by
  rw [readFields_eq_run]
  refine (Behind.lift _).bind fun fields => (Outline.runFields_behind h fields).bind fun refs => ?_
  exact .pure (Entries.mapValues_ofList _ refs)

theorem followReference_behind {read : String → Reading NodeId}
    (h : ∀ name, Behind base base.shift (read name) (read name)) (ref : Json) (path : String) :
    Behind base base.shift (followReference definitions read ref path)
      (followReference definitions read ref path) := by
  unfold followReference
  split
  · split
    · dsimp only
      split
      · exact h _
      · exact .throw _
    · exact .throw _
  · exact .throw _

theorem readBody_behind
    (h : ∀ ref path, Behind base base.shift (follow ref path) (follow ref path))
    (name : String) (body : Json) :
    Behind base base.shift (readBody follow name body) (readBody follow name body) := by
  refine (Behind.enter name).bind fun _ => (Behind.lift _).bind fun plain => ?_
  cases plain with
  | true =>
    refine (Behind.lift _).bind fun entries => (Behind.openObject _ _ _).bind fun id => ?_
    refine (readFields_behind h body _).bind fun fields => ?_
    exact (Behind.closeObject id fields).bind fun _ => .pure rfl
  | false =>
    refine (readSchema_behind h body _).bind fun id => ?_
    exact (Behind.remember name id).bind fun _ => .pure rfl

theorem readDefinition_behind (base : Graph) (definitions free : Definitions) (name : String) :
    Behind base base.shift (readDefinition definitions free name)
      (readDefinition definitions free name) := by
  rw [readDefinition_eq]
  refine .get fun s => ?_
  have hk : (s.behind base).known.get? name = (s.known.get? name).map base.shift :=
    Entries.get?_mapValues ..
  rw [hk]
  cases s.known.get? name with
  | some id => exact .pure rfl
  | none =>
    dsimp only [Option.map_none]
    cases hl : free.lookup name with
    | none => exact .throw _
    | some body =>
      refine readBody_behind (fun ref path => ?_) name body
      refine followReference_behind (fun other => ?_) ref path
      exact readDefinition_behind base definitions (free.without name) other
termination_by free.length
decreasing_by exact Definitions.length_without_lt hl

end

theorem readDefinitions_behind (base : Graph) (definitions : Definitions) :
    Behind base (List.map fun d => (d.1, base.shift d.2)) (readDefinitions definitions)
      (readDefinitions definitions) :=
  .mapM (fun (name, _) =>
    (readDefinition_behind base definitions definitions name).bind fun _ => .pure rfl) definitions

/-- Reading a document is the same behind other nodes, however it ends. -/
theorem readDocument_behind (base : Graph) (schema : Json) (root : String) :
    Behind base (Entries.mapValues (Option.map base.shift)) (readDocument schema root)
      (readDocument schema root) := by
  refine (Behind.modifyGet (f := id) fun s => rfl).bind fun _ => ?_
  refine (Behind.lift _).bind fun definitions => ?_
  refine (readDefinitions_behind base definitions).bind fun nodes => .get fun s => ?_
  dsimp only [Session.behind]
  rw [Graph.declared_behind]
  split
  · refine (readSchema_behind (fun ref path => ?_) schema "#").bind fun _ => .pure ?_
    · exact followReference_behind (readDefinition_behind base definitions definitions) ref path
    · rw [Entries.mapValues_put, Entries.mapValues_ofList]
      rfl
  · exact .pure (Entries.mapValues_ofList ..)

end ShapeSdl
