import ShapeSdl.Proofs.Intact
import ShapeSdl.Proofs.Renamed

/-!
# Reading ahead by a node

Two readings that do the same, of which one has a node more: that of a definition whose fields are
still to be read. As long as neither asks for this definition they stay side by side, and all nodes
that come behind the additional one are at the next position.

* `Graph.past first` : the positions when a node is put in at `first`;
* `Session.Ahead name first n s s'` : session `s'` is session `s` with node `n` at `first`, which is
  that of definition `name`;
* `Reading.EndsAhead` : how two readings end that began so;
* `Visit.ComesTo definitions v name` : on the way from `v`, definition `name` is asked for;
* `Outline.run_ahead`, `readDefinition_ahead` : what does not come to `name` ends so.
-/

namespace ShapeSdl

open Reading

/-! ## Positions past a node -/

namespace Graph

variable {first id : Nat}

/-- The position of a node when another one has been put in at position `first`. -/
def past (first id : Nat) : Nat := if id < first then id else id + 1

theorem past_of_lt (h : id < first) : past first id = id := if_pos h

theorem past_of_le (h : first ≤ id) : past first id = id + 1 := if_neg (Nat.not_lt_of_le h)

theorem past_ne (first id : Nat) : past first id ≠ first := by
  unfold past
  split <;> omega

theorem past_injective (first : Nat) : Function.Injective (past first) := by
  intro i j h
  unfold past at h
  split at h <;> split at h <;> omega

end Graph

/-! ## Names that agree on links -/

theorem Entries.mapValues_congr {α : Type} {β γ : Type} {f g : β → γ} {e : Entries α β}
    (h : ∀ v ∈ e.values, f v = g v) : e.mapValues f = e.mapValues g :=
  ext_toList (List.map_congr_left fun p hp => by rw [h p.2 (List.mem_map_of_mem hp)])

theorem Shape.rename_congr {ρ σ : NodeId → NodeId} {shape : Shape}
    (h : ∀ next, some next ∈ shape.links → ρ next = σ next) : shape.rename ρ = shape.rename σ := by
  have href : ∀ r ∈ shape.links, Option.map ρ r = Option.map σ r :=
    fun r hr => Option.map_congr fun next he => h next (he ▸ hr)
  cases shape with
  | wrapper kind inner value =>
    exact congrArg (wrapper kind · value) (href inner (List.mem_singleton_self _))
  | list element => exact congrArg list (href element (List.mem_singleton_self _))
  | object fields => exact congrArg object (Entries.mapValues_congr href)
  | union variants => exact congrArg union (List.map_congr_left href)
  | _ => rfl

theorem Shape.rename_id (shape : Shape) : shape.rename id = shape := by
  cases shape with
  | object fields =>
    refine congrArg object (Entries.ext_toList ?_)
    simp
  | _ => simp [rename]

theorem Node.rename_congr {ρ σ : NodeId → NodeId} {n : Node}
    (h : ∀ next, some next ∈ n.shape.links → ρ next = σ next) : n.rename ρ = n.rename σ :=
  congrArg (Node.mk n.path n.metadata) (Shape.rename_congr h)

theorem Node.rename_eq_self {ρ : NodeId → NodeId} {n : Node}
    (h : ∀ next, some next ∈ n.shape.links → ρ next = next) : n.rename ρ = n :=
  (Node.rename_congr h).trans (congrArg (Node.mk n.path n.metadata) n.shape.rename_id)

/-! ## Sessions that are ahead -/

/-- Session `s'` is ahead of session `s` by node `n` at position `first`, which is that of
definition `name`. Whatever comes behind it is at the next position. What else a session has noted,
reading does not ask for. -/
structure Session.Ahead (name : String) (first : NodeId) (n : Node) (s s' : Session) : Prop where
  first_le : first ≤ s.graph.size
  size : s'.graph.size = s.graph.size + 1
  own : s'.graph.node? (some first) = some n
  node? : ∀ id, s'.graph.node? (some (Graph.past first id)) =
    (s.graph.node? (some id)).map (Node.rename (Graph.past first))
  known : ∀ other, other ≠ name →
    s'.known.get? other = (s.known.get? other).map (Graph.past first)

namespace Session.Ahead

variable {name : String} {first : NodeId} {n : Node} {s s' : Session}

theorem past_size (h : s.Ahead name first n s') : Graph.past first s.graph.size = s'.graph.size :=
  (Graph.past_of_le h.first_le).trans h.size.symm

theorem shape? (h : s.Ahead name first n s') (id : NodeId) :
    s'.graph.shape? (some (Graph.past first id)) =
      (s.graph.shape? (some id)).map (Shape.rename (Graph.past first)) := by
  rw [Graph.shape?, h.node?, Graph.shape?, Option.map_map, Option.map_map]
  rfl

theorem kindName (h : s.Ahead name first n s') (id : NodeId) :
    s'.graph.kindName (some (Graph.past first id)) = s.graph.kindName (some id) := by
  rw [Graph.kindName, h.shape?, Graph.kindName, Option.map_map]
  congr 2
  funext shape
  exact shape.kindName_rename _

/-- An intact session gets ahead when a definition gets its node and its fields are still to be
read. -/
theorem openObject (hs : s.Intact) (name path : String) (metadata : List (String × Json)) :
    s.Ahead name s.graph.size ⟨path, metadata, .object ∅⟩
      ((s.enter name).openObject name path metadata) where
  first_le := Nat.le_refl _
  size := size_openObject ..
  own := s.node?_add_self ⟨path, metadata, .object ∅⟩
  node? id := by
    change (s.graph.add _).node? _ = _
    rw [Graph.node?_add, if_neg (Graph.past_ne _ id)]
    rcases Nat.lt_or_ge id s.graph.size with hid | hid
    · rw [Graph.past_of_lt hid]
      cases hn : s.graph.node? (some id) with
      | none => rfl
      | some node =>
        -- What is there refers to nodes that are there, and these stay where they are.
        have hself : node.rename (Graph.past s.graph.size) = node :=
          Node.rename_eq_self fun next hnext => Graph.past_of_lt (hs.links_of_node? hn next hnext)
        rw [Option.map_some, hself]
    · rw [Graph.past_of_le hid, Graph.node?, Graph.node?, Array.getElem?_eq_none hid,
        Array.getElem?_eq_none (Nat.le_succ_of_le hid)]
      rfl
  known other hne := by
    change (s.known.put name _).get? other = _
    rw [Entries.get?_put_of_ne _ _ hne]
    cases hk : s.known.get? other with
    | none => rfl
    | some id => rw [Option.map_some, Graph.past_of_lt (hs.sane other id hk)]

theorem enter (h : s.Ahead name first n s') (other : String) :
    (s.enter other).Ahead name first n (s'.enter other) :=
  ⟨h.first_le, h.size, h.own, h.node?, h.known⟩

theorem add (h : s.Ahead name first n s') (m : Node) :
    (s.add m).Ahead name first n (s'.add (m.rename (Graph.past first))) where
  first_le := Nat.le_trans h.first_le (s.grows_add m).size_le
  size := by rw [size_add, size_add, h.size]
  own := by
    have hne : first ≠ s'.graph.size := fun he => Graph.past_ne first _ (h.past_size.trans he.symm)
    rw [Session.add, Graph.node?_add, if_neg hne, h.own]
  node? id := by
    by_cases hid : id = s.graph.size
    · subst hid
      rw [h.past_size, node?_add_self, node?_add_self]
      rfl
    · have hne := (Graph.past_injective first).ne hid
      rw [h.past_size] at hne
      rw [Session.add, Session.add, Graph.node?_add, Graph.node?_add, if_neg hid, if_neg hne,
        h.node?]
  known := h.known

theorem remember (h : s.Ahead name first n s') (other : String) (id : NodeId) :
    (s.remember other id).Ahead name first n (s'.remember other (Graph.past first id)) where
  first_le := h.first_le
  size := h.size
  own := h.own
  node? := h.node?
  known another hother := by
    rw [Session.remember, Session.remember, Entries.get?_put, Entries.get?_put]
    split
    · rfl
    · exact h.known another hother

theorem openOther (h : s.Ahead name first n s') (other path : String)
    (metadata : List (String × Json)) :
    (s.openObject other path metadata).Ahead name first n (s'.openObject other path metadata) := by
  have ha := (h.add ⟨path, metadata, .object ∅⟩).remember other s.graph.size
  rw [h.past_size] at ha
  exact ⟨ha.first_le, ha.size, ha.own, ha.node?, ha.known⟩

theorem closeObject (h : s.Ahead name first n s') (id : NodeId) (fields : Entries String Ref) :
    (s.closeObject id fields).Ahead name first n (s'.closeObject (Graph.past first id)
      (fields.mapValues (Option.map (Graph.past first)))) where
  first_le := by rw [size_closeObject]; exact h.first_le
  size := by rw [size_closeObject, size_closeObject, h.size]
  own := by rw [node?_closeObject_of_ne _ _ (Graph.past_ne first id).symm, h.own]
  node? j := by
    by_cases hj : j = id
    · subst hj
      rw [Session.closeObject, Session.closeObject, Graph.node?_setShape_self,
        Graph.node?_setShape_self, h.node?, Option.map_map, Option.map_map]
      rfl
    · rw [node?_closeObject_of_ne _ _ hj,
        node?_closeObject_of_ne _ _ ((Graph.past_injective first).ne hj), h.node?]
  known := h.known

end Session.Ahead

/-! ## Readings that end ahead -/

namespace Reading

section
variable {name : String} {first : NodeId} {n : Node} {α β : Type} {f : α → α} {g : β → β}
  {x y : Reading α} {s s' : Session}

/-- Two readings fail with one fault, or they end with the second one ahead of the first, and with
the value that `f` makes of the first one's. -/
inductive EndsAhead (name : String) (first : NodeId) (n : Node) (f : α → α) :
    EStateM.Result Fault Session α → EStateM.Result Fault Session α → Prop
  | ok {a t t'} (ahead : t.Ahead name first n t') :
      EndsAhead name first n f (.ok a t) (.ok (f a) t')
  | error {e t t'} : EndsAhead name first n f (.error e t) (.error e t')

namespace EndsAhead

theorem pure (h : s.Ahead name first n s') {a b : α} (hab : f a = b) :
    EndsAhead name first n f ((Pure.pure a : Reading α) s) ((Pure.pure b : Reading α) s') := by
  subst hab
  exact .ok h

theorem bind {k l : α → Reading β} (h : EndsAhead name first n f (x s) (y s'))
    (hk : ∀ a t t', x s = .ok a t → t.Ahead name first n t' →
      EndsAhead name first n g (k a t) (l (f a) t')) :
    EndsAhead name first n g ((x >>= k) s) ((y >>= l) s') := by
  change EndsAhead name first n g (EStateM.bind x k s) (EStateM.bind y l s')
  unfold EStateM.bind
  generalize hx : x s = end₁ at h
  generalize y s' = end₂ at h
  cases h with
  | ok ahead => exact hk _ _ _ hx ahead
  | error => exact .error

theorem addNode (h : s.Ahead name first n s') (path : String) (metadata : List (String × Json))
    {shape shape' : Shape} (hshape : shape.rename (Graph.past first) = shape') :
    EndsAhead name first n (Graph.past first) (addNode path metadata shape s)
      (Reading.addNode path metadata shape' s') := by
  have ha := h.add ⟨path, metadata, shape⟩
  subst hshape
  have hend := EndsAhead.ok (f := Graph.past first) (a := s.graph.size) ha
  rwa [h.past_size] at hend

theorem addMerged (h : s.Ahead name first n s') (path : String) (metadata : List (String × Json))
    (fields : Entries String Ref) (parts parts' : List NodeId) :
    EndsAhead name first n (Graph.past first) (addMerged path metadata fields parts s)
      (Reading.addMerged path metadata (fields.mapValues (Option.map (Graph.past first))) parts'
        s') := by
  have ha : (s.addMerged path metadata fields parts).Ahead name first n (s'.addMerged path metadata
      (fields.mapValues (Option.map (Graph.past first))) parts') :=
    have hadd := h.add ⟨path, metadata, .object fields⟩
    ⟨hadd.first_le, hadd.size, hadd.own, hadd.node?, hadd.known⟩
  have hend := EndsAhead.ok (f := Graph.past first) (a := s.graph.size) ha
  rwa [h.past_size] at hend

end EndsAhead

end

end Reading

/-! ## What is come to -/

/-- On the way from a visit, definition `name` is asked for. -/
def Visit.ComesTo (definitions : Definitions) (v : Visit) (name : String) : Prop :=
  ∃ stack s, Relation.ReflTransGen (Goes definitions) v ⟨stack, .one (.definition name), s⟩

theorem Goes.not_comesTo {definitions : Definitions} {v w : Visit} {name : String}
    (h : Goes definitions v w) (hv : ¬ v.ComesTo definitions name) : ¬ w.ComesTo definitions name :=
  fun ⟨stack, s, hw⟩ => hv ⟨stack, s, .head h hw⟩

/-! ## Reading by an outline -/

namespace Outline

variable {definitions : Definitions} {stack : List String} {name : String} {first : NodeId}
  {n : Node} {follow follow' : Json → String → Reading NodeId}

/-- References that do not come to definition `name` are followed ahead. -/
def FollowsAhead (definitions : Definitions) (stack : List String) (name : String) (first : NodeId)
    (n : Node) (follow follow' : Json → String → Reading NodeId) : Prop :=
  ∀ ref path s s', s.Sane → s.Ahead name first n s' →
    ¬ Visit.ComesTo definitions ⟨stack, .one (.outline (.reference ref path)), s⟩ name →
      EndsAhead name first n (Graph.past first) (follow ref path s) (follow' ref path s')

mutual

/-- Reading by an outline that does not come to definition `name` is the same ahead. -/
theorem run_ahead (hf : Follows definitions stack follow)
    (hr : FollowsAhead definitions stack name first n follow follow') :
    ∀ (o : Outline) {s s' : Session}, s.Sane → s.Ahead name first n s' →
      ¬ Visit.ComesTo definitions ⟨stack, .one (.outline o), s⟩ name →
        EndsAhead name first n (Graph.past first) (o.run follow s) (o.run follow' s')
  | .fault _, _, _, _, _, _ => .error
  | .refused inner _, _, _, hs, h, hn =>
    (run_ahead hf hr inner hs h (Goes.refused.not_comesTo hn)).bind fun _ _ _ _ _ => .error
  | .reference ref path, s, s', hs, h, hn => hr ref path s s' hs h hn
  | .leaf _ isLeaf, _, _, _, h, _ => .addNode h _ _ (Shape.rename_of_isLeaf _ isLeaf)
  | .wrapper _ _ _ inner, _, _, hs, h, hn =>
    (run_ahead hf hr inner hs h (Goes.wrapper.not_comesTo hn)).bind fun _ _ _ _ ht =>
      .addNode ht _ _ rfl
  | .list _ _ element, _, _, hs, h, hn =>
    (run_ahead hf hr element hs h (Goes.list.not_comesTo hn)).bind fun _ _ _ _ ht =>
      .addNode ht _ _ rfl
  | .union _ _ variants, _, _, hs, h, hn =>
    (runAll_ahead hf hr variants hs h (Goes.union.not_comesTo hn)).bind fun ids _ _ _ ht =>
      .addNode ht _ _ (Shape.rename_union _ ids)
  | .object _ _ fields, _, _, hs, h, hn =>
    (runFields_ahead hf hr fields hs h (Goes.object.not_comesTo hn)).bind fun refs _ _ _ ht =>
      .addNode ht _ _ (Shape.rename_object _ refs)
  | .merge path metadata parts, _, _, hs, h, hn =>
    (runParts_ahead hf hr path metadata 0 ∅ [] parts .nil (List.forall_mem_nil _) hs h hn).bind
      fun (fields, ids) _ _ _ ht => .addMerged ht _ _ fields ids _

theorem runAll_ahead (hf : Follows definitions stack follow)
    (hr : FollowsAhead definitions stack name first n follow follow') :
    ∀ (os : List Outline) {s s' : Session}, s.Sane → s.Ahead name first n s' →
      ¬ Visit.ComesTo definitions ⟨stack, .all (os.map .outline), s⟩ name →
        EndsAhead name first n (List.map (Graph.past first)) (runAll follow os s)
          (runAll follow' os s')
  | [], _, _, _, h, _ => .pure h rfl
  | o :: rest, _, _, hs, h, hn => by
    refine (run_ahead hf hr o hs h (Goes.first.not_comesTo hn)).bind fun id t t' hrun ht => ?_
    have hread := (run_eq_ok_iff hf o hs).1 hrun
    have hrest := (Goes.rest hread).not_comesTo hn
    exact (runAll_ahead hf hr rest (hread.sane hs) ht hrest).bind fun _ _ _ _ hu => .pure hu rfl

theorem runFields_ahead (hf : Follows definitions stack follow)
    (hr : FollowsAhead definitions stack name first n follow follow') :
    ∀ (fields : List (String × Outline)) {s s' : Session}, s.Sane → s.Ahead name first n s' →
      ¬ Visit.ComesTo definitions ⟨stack, .all (fieldJobs fields), s⟩ name →
        EndsAhead name first n (List.map fun p => (p.1, p.2.map (Graph.past first)))
          (runFields follow fields s) (runFields follow' fields s')
  | [], _, _, _, h, _ => .pure h rfl
  | (key, o) :: rest, _, _, hs, h, hn => by
    refine (run_ahead hf hr o hs h (Goes.first.not_comesTo hn)).bind fun id t t' hrun ht => ?_
    have hread := (run_eq_ok_iff hf o hs).1 hrun
    have hrest := (Goes.rest hread).not_comesTo hn
    exact (runFields_ahead hf hr rest (hread.sane hs) ht hrest).bind fun _ _ _ _ hu => .pure hu rfl

/-- Reading the last parts of a merged object is the same ahead if all of it does not come to
definition `name`. -/
theorem runParts_ahead (hf : Follows definitions stack follow)
    (hr : FollowsAhead definitions stack name first n follow follow') (path : String)
    (metadata : List (String × Json)) (index : Nat) (fields : Entries String Ref) :
    ∀ (before parts : List Outline) {r s s' : Session} {ids : List NodeId},
      Reads definitions stack (.all (before.map .outline)) r ids s →
      (∀ id ∈ ids, s.graph.isObject (some id) = true) → r.Sane → s.Ahead name first n s' →
      ¬ Visit.ComesTo definitions
        ⟨stack, .one (.outline (.merge path metadata (before ++ parts))), r⟩ name →
        EndsAhead name first n
          (fun p => (p.1.mapValues (Option.map (Graph.past first)), p.2.map (Graph.past first)))
          (runParts follow path index fields parts s)
          (runParts follow' path index (fields.mapValues (Option.map (Graph.past first))) parts s')
  | _, [], _, _, _, _, _, _, _, h, _ => .pure h rfl
  | before, o :: rest, r, s, s', ids, hb, ho, hs, h, hn => by
    have hsane := hb.sane hs
    have hpart := (Goes.merge hb ho).not_comesTo hn
    refine (run_ahead hf hr o hsane h hpart).bind fun id t t' hrun ht => ?_
    have hread := (run_eq_ok_iff hf o hsane).1 hrun
    rw [get_bind, get_bind]
    dsimp only
    rw [ht.shape?, ht.kindName]
    cases hshape : t.graph.shape? (some id) with
    | none => exact .error
    | some shape =>
      cases shape with
      | object more =>
        have hfields : (fields.mapValues (Option.map (Graph.past first))).putAll
            (more.mapValues (Option.map (Graph.past first))).toList =
              (fields.putAll more.toList).mapValues (Option.map (Graph.past first)) :=
          (Entries.mapValues_putAll _ more.toList fields).symm
        have hall : ∀ i ∈ ids ++ [id], t.graph.isObject (some i) = true := by
          refine List.forall_mem_append.2 ⟨fun i hi => ?_, List.forall_mem_singleton.2 ?_⟩
          · exact ((hread.grows hsane).1.isObject ((hb.grows hs).2.2 i hi)).trans (ho i hi)
          · exact Graph.isObject_iff.2 ⟨more, hshape⟩
        have hb' : Reads definitions stack (.all ((before ++ [o]).map .outline)) r (ids ++ [id])
            t := by
          rw [List.map_append]
          exact hb.append (.cons hread .nil)
        rw [List.append_cons] at hn
        dsimp only [Option.map_some, Shape.rename]
        rw [hfields]
        exact (runParts_ahead hf hr path metadata (index + 1) _ (before ++ [o]) rest hb' hall hs ht
          hn).bind fun _ _ _ _ hu => .pure hu rfl
      | _ => exact .error

end

theorem readFields_ahead (hf : Follows definitions stack follow)
    (hr : FollowsAhead definitions stack name first n follow follow') {schema : Json}
    {path : String} {s s' : Session} (hs : s.Sane) (h : s.Ahead name first n s')
    (hn : ∀ fields, schema.fieldsOutline path = .ok fields →
      ¬ Visit.ComesTo definitions ⟨stack, .all (fieldJobs fields), s⟩ name) :
    EndsAhead name first n (Entries.mapValues (Option.map (Graph.past first)))
      (readFields follow schema path s) (readFields follow' schema path s') := by
  rw [readFields_eq_run, readFields_eq_run]
  cases hfields : schema.fieldsOutline path with
  | error f => exact .error
  | ok fields =>
    rw [liftM_ok, pure_bind, pure_bind]
    refine (runFields_ahead hf hr fields hs h (hn fields hfields)).bind fun refs _ _ _ ht => ?_
    exact .pure ht (Entries.mapValues_ofList _ refs)

theorem followReference_ahead {read read' : String → Reading NodeId}
    (h : ∀ other s s', s.Sane → s.Ahead name first n s' →
      ¬ Visit.ComesTo definitions ⟨stack, .one (.definition other), s⟩ name →
        EndsAhead name first n (Graph.past first) (read other s) (read' other s')) :
    FollowsAhead definitions stack name first n (followReference definitions read)
      (followReference definitions read') := by
  intro ref path s s' hs ha hn
  cases ref with
  | str text =>
    unfold followReference
    dsimp only
    split
    · rename_i hp
      have hm : (Json.str text).referred? = some (Reference.definitionName text) := if_pos hp
      cases hd : definitions.lookup (Reference.definitionName text) with
      | none => exact .error
      | some body =>
        exact h _ s s' hs ha ((Goes.reference hm (Option.isSome_of_eq_some hd)).not_comesTo hn)
    · exact .error
  | _ => exact .error

end Outline

/-! ## Reading definitions -/

section
variable {definitions : Definitions} {stack : List String} {name : String} {first : NodeId}
  {n : Node}

theorem readBody_ahead {follow follow' : Json → String → Reading NodeId} {other : String}
    {body : Json} {s s' : Session} (hf : Outline.Follows definitions (other :: stack) follow)
    (hr : Outline.FollowsAhead definitions (other :: stack) name first n follow follow')
    (hs : s.Sane) (h : s.Ahead name first n s') (unknown : s.known.get? other = none)
    (free : other ∉ stack) (defined : definitions.lookup other = some body)
    (hn : ¬ Visit.ComesTo definitions ⟨stack, .one (.definition other), s⟩ name) :
    EndsAhead name first n (Graph.past first) (readBody follow other body s)
      (readBody follow' other body s') := by
  have he := h.enter other
  unfold readBody
  rw [enter_bind, enter_bind]
  cases hp : body.isPlainObject with
  | error f => exact .error
  | ok plain =>
    rw [liftM_ok, pure_bind, pure_bind]
    cases plain with
    | true =>
      obtain ⟨entries, hentries, ho⟩ := Json.outline_of_isPlainObject hp
      rw [if_pos rfl, if_pos rfl, hentries, liftM_ok, pure_bind, pure_bind, openObject_bind,
        openObject_bind]
      have hso := Session.sane_openObject (s := s.enter other) hs other (Definitions.path other)
        (Json.metadata entries)
      have hopen := he.openOther other (Definitions.path other) (Json.metadata entries)
      refine (Outline.readFields_ahead hf hr hso hopen fun fields hfields => ?_).bind
        fun fields t t' _ ht => ?_
      · have hout : body.outline (Definitions.path other) =
            .object (Definitions.path other) (Json.metadata entries) fields := by
          rw [ho, hfields]
          rfl
        exact (Goes.plain unknown free defined hp hout).not_comesTo hn
      · rw [closeObject_bind, closeObject_bind, ← he.past_size]
        exact .pure (ht.closeObject _ fields) rfl
    | false =>
      rw [if_neg nofun, if_neg nofun, readSchema_eq_run, readSchema_eq_run]
      have hse : (s.enter other).Sane := hs
      have hbody := (Goes.other unknown free defined hp).not_comesTo hn
      refine (Outline.run_ahead hf hr _ hse he hbody).bind fun id t t' _ ht => ?_
      rw [remember_bind, remember_bind]
      exact .pure (ht.remember other id) rfl

/-- Reading a definition that does not come to definition `name` is the same ahead, whether `name`
is being read or not. -/
theorem readDefinition_ahead {stack stack' : List String}
    (hstack : ∀ other, other ≠ name → (other ∈ stack' ↔ other ∈ stack)) (other : String)
    {s s' : Session} (hs : s.Sane) (h : s.Ahead name first n s')
    (hn : ¬ Visit.ComesTo definitions ⟨stack, .one (.definition other), s⟩ name) :
    EndsAhead name first n (Graph.past first)
      (readDefinition definitions (definitions.free stack) other s)
      (readDefinition definitions (definitions.free stack') other s') := by
  have hne : other ≠ name := by
    rintro rfl
    exact hn ⟨stack, s, .refl⟩
  rw [readDefinition_eq, readDefinition_eq, get_bind, get_bind, h.known other hne]
  cases hk : s.known.get? other with
  | some id => exact .pure h rfl
  | none =>
    dsimp only [Option.map_none]
    simp only [Definitions.lookup_free, Definitions.without_free, hstack other hne]
    by_cases hfree : other ∈ stack
    · simp only [if_pos hfree]
      exact .error
    · simp only [if_neg hfree]
      cases hd : definitions.lookup other with
      | none => exact .error
      | some body =>
        have hlt := Definitions.length_free_cons_lt hd hfree
        refine readBody_ahead (readDefinition_follows definitions (other :: stack)) ?_ hs h hk hfree
          hd hn
        refine Outline.followReference_ahead fun another s s' hs h hn => ?_
        refine readDefinition_ahead (fun third hthird => ?_) another hs h hn
        rw [List.mem_cons, List.mem_cons, hstack third hthird]
termination_by (definitions.free stack).length

end

end ShapeSdl
