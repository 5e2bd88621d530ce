import ShapeSdl.Proofs.Descent
import ShapeSdl.Proofs.Steady

/-!
# What the guards against circles refuse

Resolving types and the check of strict mode refuse what they meet twice, and they count wrappers
and lists. Where no walk through wrappers and lists comes back to where it was, only the counts
refuse anything.

* `Graph.Reaches`, `Graph.Straight g r` : ways along links; no walk that can be reached from `r`
  comes back to where it was;
* `Fault.GuardedBy P f` : if `f` comes from a guard, its cause is as `P` says;
* `Graph.Overruns`, `Graph.Exceeds` : what lies behind too many others, in a field and in a batch;
* `Context.fieldType_guardedBy`, `Context.checkReferences_guardedBy` : a field is refused for a count;
* `compileBatch_exceeds` : so is a batch.
-/

namespace ShapeSdl

open Fault (bind_eq_ok bind_eq_error pure_eq_ok)

/-! ## Walks that fail -/

namespace Compiling

variable {α β : Type} {w w' : Walk} {f : Fault}

/-- Of several computations that leave all lists that they enter, one has failed, inside the same
lists. -/
theorem mapM_eq_error {k : α → Compiling β} (hk : ∀ a, Steady (k a)) : ∀ {l : List α} {w : Walk},
    l.mapM k w = .error f w' → ∃ a ∈ l, ∃ u, u.active = w.active ∧ k a u = .error f w'
  | [], _, h => by cases h
  | a :: rest, w, h => by
    rw [List.mapM_cons, bind_eq_error] at h
    rcases h with h | ⟨b, u, hb, h⟩
    · exact ⟨a, List.mem_cons_self, w, rfl, h⟩
    · rcases bind_eq_error.1 h with h | ⟨bs, v, -, h⟩
      · obtain ⟨c, hc, v, hv, hfail⟩ := mapM_eq_error hk h
        exact ⟨c, List.mem_cons_of_mem _ hc, v, hv.trans ((hk a).active_eq hb), hfail⟩
      · cases h

end Compiling

theorem Except.exists_of_mapM_eq_error {α β ε : Type} {f : α → Except ε β} {e : ε} {l : List α}
    (h : l.mapM f = .error e) : ∃ a ∈ l, f a = .error e := by
  obtain ⟨before, a, after, rfl, -, ha⟩ := mapM_eq_error_iff.1 h
  exact ⟨a, List.mem_append_right _ List.mem_cons_self, ha⟩

theorem Except.exists_of_forM_eq_error {α ε : Type} {f : α → Except ε Unit} {e : ε} :
    ∀ {l : List α}, l.forM f = .error e → ∃ a ∈ l, f a = .error e
  | [], h => by cases h
  | a :: rest, h => by
    rw [List.forM_eq_forM, List.forM_cons] at h
    cases ha : f a with
    | error e' =>
      rw [ha] at h
      cases h
      exact ⟨a, List.mem_cons_self, ha⟩
    | ok u =>
      rw [ha] at h
      obtain ⟨c, hc, hfail⟩ := exists_of_forM_eq_error (l := rest) h
      exact ⟨c, List.mem_cons_of_mem _ hc, hfail⟩

/-! ## Straight walks -/

theorem Steps.mono {next next' : Ref → Option Ref} (hn : ∀ r m, next r = some m → next' r = some m)
    {n : Nat} {r e : Ref} (h : Steps next n r e) : Steps next' n r e := by
  induction h with
  | here => exact .here
  | step goes _ ih => exact .step (hn _ _ goes) ih

namespace Graph

variable {g : Graph} {r m e : Ref} {n : Nat}

def Reaches (g : Graph) : Ref → Ref → Prop := Relation.ReflTransGen fun r next => next ∈ g.links r

/-- No walk that can be reached from `r` comes back to where it was. -/
def Straight (g : Graph) (r : Ref) : Prop :=
  ∀ x k, g.Reaches r x → ¬ Steps (g.next? noneNamed) (k + 1) x x

theorem Straight.of_reaches (h : g.Straight r) (hm : g.Reaches r m) : g.Straight m :=
  fun x k hx => h x k (hm.trans hx)

theorem reaches_of_steps (h : Steps (g.next? noneNamed) n r e) : g.Reaches r e := by
  induction h with
  | here => exact .refl
  | step goes _ ih => exact .head (mem_links_of_next? goes) ih

theorem steps_of_unwraps {nullable : Bool} (h : g.Unwraps r e nullable) :
    ∃ n, Steps (g.next? noneNamed) n r e := by
  induction h with
  | here => exact ⟨0, .here⟩
  | wrapper node _ ih =>
    obtain ⟨n, hn⟩ := ih
    exact ⟨n + 1, .step (by rw [next?, node]) hn⟩

end Graph

/-! ## What the guards tell -/

def Cause.isGuard : Cause → Bool
  | wrapperCycle _ | listCycle _ | listTooDeep _ | fieldTooDeep .. => true
  | inField _ _ cause => cause.isGuard
  | _ => false

def Fault.isGuard : Fault → Bool
  | structural cause => cause.isGuard
  | unregisteredReference .. | misuse _ => false

def Fault.GuardedBy (P : Cause → Prop) : Fault → Prop
  | structural cause => cause.isGuard = true → P cause
  | unregisteredReference .. | misuse _ => True

theorem Fault.GuardedBy.imp {P Q : Cause → Prop} {f : Fault} (h : f.GuardedBy P)
    (hpq : ∀ cause, P cause → Q cause) : f.GuardedBy Q := by
  cases f with
  | structural cause => exact fun hg => hpq cause (h hg)
  | _ => exact trivial

theorem Fault.guardedBy_of_not_isGuard {P : Cause → Prop} {cause : Cause}
    (h : cause.isGuard = false) : (Fault.structural cause).GuardedBy P :=
  fun hg => absurd hg (Bool.eq_false_iff.1 h)

/-- What a guard refuses on the way from a reference: a wrapper after `maxDepth` others, and a list
after at least `room` wrappers and lists. Nothing is refused for being met twice. -/
inductive Graph.Overruns (g : Graph) (room : Nat) (r : Ref) : Cause → Prop
  | wrapper {start e path metadata kind inner value} (reached : g.Reaches r start)
      (deep : Steps g.inner? maxDepth start e)
      (node : g.node? e = some ⟨path, metadata, .wrapper kind inner value⟩) :
      Overruns g room r (.wrapperCycle path)
  | list {n e path metadata element} (deep : room ≤ n) (walk : Steps (g.next? noneNamed) n r e)
      (node : g.node? e = some ⟨path, metadata, .list element⟩) :
      Overruns g room r (.listTooDeep path)

/-- What a guard refuses in a batch: what a field overruns, and in strict mode a field that leads
through more than `maxDepth` wrappers and lists. -/
inductive Graph.Exceeds (g : Graph) (batch : Batch) : Cause → Prop
  | resolved {type field r ref cause} (declared : batch.get? type = some r)
      (fields : (g.fields r).get? field = some ref) (overrun : g.Overruns maxDepth ref cause) :
      Exceeds g batch (.inField field type cause)
  | strict {type field r ref e} (declared : batch.get? type = some r)
      (fields : (g.fields r).get? field = some ref)
      (deep : Steps (g.next? noneNamed) (maxDepth + 1) ref e) :
      Exceeds g batch (.fieldTooDeep field type)

namespace Graph

variable {g : Graph} {room : Nat} {r : Ref} {f : Fault}

theorem Overruns.of_steps {room' n : Nat} {m : Ref} {cause : Cause} (h : g.Overruns room m cause)
    (hs : Steps (g.next? noneNamed) n r m) (hroom : room' ≤ room + n) :
    g.Overruns room' r cause := by
  cases h with
  | wrapper reached deep node => exact .wrapper ((reaches_of_steps hs).trans reached) deep node
  | list deep walk node =>
    exact .list (Nat.le_trans hroom (Nat.add_le_add_right deep n)) (hs.trans walk) node

/-- Taking wrappers off fails at a wrapper after `maxDepth` others, or for another reason. -/
theorem unwrap_guardedBy {start : Ref} (hr : g.Straight r) (hm : g.Reaches r start)
    (h : g.unwrap start = .error f) : f.GuardedBy (g.Overruns room r) := by
  have hno : ∀ n x k, Steps g.inner? n start x → ¬ Steps g.inner? (k + 1) x x := by
    intro n x k hx hc
    have hnext : ∀ r m, g.inner? r = some m → g.next? noneNamed r = some m :=
      fun _ _ => next?_of_inner?
    exact hr x k (hm.trans (reaches_of_steps (hx.mono hnext))) (hc.mono hnext)
  rcases unwrap_error hno h with ⟨path, rfl⟩ | ⟨e, path, metadata, kind, inner, value, rfl, hs, he⟩
  · exact Fault.guardedBy_of_not_isGuard rfl
  · exact fun _ => .wrapper hm hs he

end Graph

theorem Options.scalarName_error {o : Options} {key : String} {f : Fault}
    (h : o.scalarName key = .error f) : f = .misuse .scalarsNotObject := by
  unfold scalarName at h
  cases hs : o.scalars with
  | obj overrides =>
    rw [resolvedScalars, hs] at h
    cases h
  | _ =>
    rw [resolvedScalars, hs] at h
    cases h
    rfl

namespace Context

variable {cx : Context} {r : Ref} {w w' : Walk} {f : Fault} {room : Nat} {P : Cause → Prop}

/-- Classifying fails because of what the variants of a union have in common, because one of them
cannot be unwrapped, because a name cannot be looked up, or because there is no union. -/
theorem classify_error (h : cx.classify r = .error f) :
    (∃ cause, f = .structural cause ∧ cause.isGuard = false) ∨
      (∃ v ∈ cx.graph.links r, cx.graph.unwrap v = .error f) ∨
      (∃ key, cx.options.scalarName key = .error f) ∨
      f = .misuse .notUnion ∧ ∀ variants, cx.graph.shape? r ≠ some (.union variants) := by
  unfold classify at h
  split at h
  · cases h
  · split at h
    · rename_i path metadata variants hn
      split at h
      · cases h
        exact .inl ⟨_, rfl, rfl⟩
      · cases ht : variants.mapM cx.graph.unwrap with
        | error f' =>
          rw [ht] at h
          cases h
          obtain ⟨v, hv, hfail⟩ := Except.exists_of_mapM_eq_error ht
          refine .inr (.inl ⟨v, ?_, hfail⟩)
          rw [Graph.links_of_shape? (Graph.shape?_of_node? hn)]
          exact hv
        | ok targets =>
          rw [ht] at h
          dsimp only [bind, Except.bind] at h
          split at h
          · exact .inr (.inr (.inl ⟨_, h⟩))
          · split at h
            · cases h
              exact .inl ⟨_, rfl, rfl⟩
            · cases h
              exact .inl ⟨_, rfl, rfl⟩
    · rename_i hnot
      cases h
      refine .inr (.inr (.inr ⟨rfl, fun variants hs => ?_⟩))
      obtain ⟨⟨path, metadata, _⟩, hn, rfl⟩ := Option.map_eq_some_iff.1 hs
      exact hnot path metadata variants hn

/-- Classifying a union fails at a guard only behind one of its variants. -/
theorem classify_guardedBy (hr : cx.graph.Straight r) (h : cx.classify r = .error f) :
    f.GuardedBy (cx.graph.Overruns room r) := by
  rcases classify_error h with ⟨cause, rfl, hcause⟩ | ⟨v, hv, hfail⟩ | ⟨key, hname⟩ | ⟨rfl, -⟩
  · exact Fault.guardedBy_of_not_isGuard hcause
  · exact Graph.unwrap_guardedBy hr (.single hv) hfail
  · rw [Options.scalarName_error hname]
    exact trivial
  · exact trivial

theorem endName_guardedBy (hr : cx.graph.Straight r) (h : cx.endName r = .error f) :
    f.GuardedBy (cx.graph.Overruns room r) := by
  rcases cx.endName_cases r with ⟨name, -, he⟩ |
    ⟨-, ⟨-, he⟩ | ⟨shape, key, -, -, he⟩ | ⟨variants, -, he⟩⟩
  · cases he.symm.trans h
  · cases he.symm.trans h
    exact trivial
  · rw [Options.scalarName_error (he.symm.trans h)]
    exact trivial
  · exact classify_guardedBy hr (he.symm.trans h)

/-- Resolving a node fails at a guard only for its count. The lists around lead here, and so none of
them is met again. -/
theorem baseTypeWithin_guardedBy (cx : Context) : ∀ {room : Nat} {r : Ref} {w w' : Walk} {f : Fault},
    cx.graph.Straight r →
    (∀ x ∈ w.active, ∃ k, Steps (cx.graph.next? Graph.noneNamed) (k + 1) x r) →
    cx.baseTypeWithin room r w = .error f w' → f.GuardedBy (cx.graph.Overruns room r) := by
  intro room r w w' f hr hseen h
  rcases baseTypeWithin_error_cases h with ⟨-, hname⟩ | ⟨path, element, hl, h⟩
  · exact endName_guardedBy hr hname
  obtain ⟨-, metadata, hn⟩ := openList?_eq_some_iff.1 hl
  have hgoes : cx.graph.next? Graph.noneNamed r = some element := by
    rw [Graph.next?, Graph.shape?_of_node? hn]
    rfl
  rcases h with ⟨hactive, -⟩ | ⟨rfl, rfl⟩ | rfl | ⟨-, hu | ⟨rest, inner, nullable, u, rfl, hu, h⟩⟩
  · obtain ⟨k, hk⟩ := hseen r hactive
    exact absurd hk (hr r k .refl)
  · exact fun _ => .list (Nat.le_refl 0) .here hn
  · exact Fault.guardedBy_of_not_isGuard rfl
  · exact Graph.unwrap_guardedBy hr (Graph.reaches_of_steps (.single hgoes)) hu
  · obtain ⟨n, hin⟩ := Graph.steps_of_unwraps (Graph.unwraps_of_unwrap hu)
    have hwalk := Steps.step hgoes hin
    have hinner := hr.of_reaches (Graph.reaches_of_steps hwalk)
    have hseen' : ∀ x ∈ r :: w.active,
        ∃ k, Steps (cx.graph.next? Graph.noneNamed) (k + 1) x inner := by
      refine List.forall_mem_cons.2 ⟨⟨n, hwalk⟩, fun x hx => ?_⟩
      obtain ⟨k, hk⟩ := hseen x hx
      exact ⟨_, hk.trans hwalk⟩
    refine (baseTypeWithin_guardedBy cx hinner hseen' h).imp fun cause hover => ?_
    exact hover.of_steps hwalk (Nat.add_le_add_left (Nat.le_add_left 1 n) rest)

theorem fieldType_guardedBy (hr : cx.graph.Straight r) (hw : w.active = [])
    (h : cx.fieldType r w = .error f w') : f.GuardedBy (cx.graph.Overruns maxDepth r) := by
  rcases bind_eq_error.1 h with h | ⟨⟨inner, nullable⟩, u, hlift, h⟩
  · exact Graph.unwrap_guardedBy hr .refl (Compiling.lift_eq_error.1 h).1
  · obtain ⟨hu, rfl⟩ := Compiling.lift_eq_ok.1 hlift
    obtain ⟨n, hin⟩ := Graph.steps_of_unwraps (Graph.unwraps_of_unwrap hu)
    have hinner := hr.of_reaches (Graph.reaches_of_steps hin)
    rcases bind_eq_error.1 h with h | ⟨_, _, -, h⟩
    · refine (baseTypeWithin_guardedBy cx hinner (by rw [hw]; nofun) h).imp fun cause hover => ?_
      exact hover.of_steps hin (Nat.le_add_right _ n)
    · cases h

theorem declareFields_guardedBy {type : String} {fields : List (String × Ref)}
    (hr : ∀ entry ∈ fields, cx.graph.Straight entry.2) (hw : w.active = [])
    (h : cx.declareFields type fields w = .error f w') :
    f.GuardedBy fun cause => ∃ field ref inner, (field, ref) ∈ fields ∧
      cause = .inField field type inner ∧ cx.graph.Overruns maxDepth ref inner := by
  have hsteady : ∀ field : String × Ref, Compiling.Steady (do
      let t ← Compiling.mapFault (·.inField field.1 type) (cx.fieldType field.2)
      return (field.1, t)) := fun field =>
    (Compiling.Agree.mapFault _ (cx.fieldType_steady field.2)).bind fun _ => .pure _
  obtain ⟨⟨field, ref⟩, hmem, u, hu, hfail⟩ := Compiling.mapM_eq_error hsteady h
  rcases bind_eq_error.1 hfail with hfail | ⟨_, _, -, hfail⟩
  · obtain ⟨f', hinner, rfl⟩ := Compiling.mapFault_eq_error hfail
    have hover := fieldType_guardedBy (hr _ hmem) (hu.trans hw) hinner
    cases f' with
    | structural cause => exact fun hg => ⟨field, ref, cause, hmem, rfl, hover hg⟩
    | _ => exact trivial
  · cases hfail

theorem unionMembers_error {name : String} : ∀ {index : Nat} {variants : List Ref},
    cx.unionMembers name index variants = .error f → ∃ index isRegistered kind,
      f = .structural (.badUnionMember name index isRegistered kind)
  | _, [], h => by cases h
  | index, v :: rest, h => by
    unfold unionMembers at h
    split at h
    · cases hrest : cx.unionMembers name (index + 1) rest with
      | error f' =>
        rw [hrest] at h
        cases h
        exact unionMembers_error hrest
      | ok members => rw [hrest] at h; cases h
    · cases h
      exact ⟨_, _, _, rfl⟩

variable {batch : Batch} {type : String}

theorem declare_guardedBy (hget : batch.get? type = some r) (hr : cx.graph.Straight r)
    (hw : w.active = []) (h : cx.declare type r w = .error f w') :
    f.GuardedBy (cx.graph.Exceeds batch) := by
  unfold declare at h
  cases hs : cx.graph.shape? r with
  | none => rw [hs] at h; cases h; exact Fault.guardedBy_of_not_isGuard rfl
  | some shape =>
    rw [hs] at h
    cases shape with
    | object fields =>
      rcases bind_eq_error.1 h with h | ⟨_, _, -, h⟩
      · have hentry : ∀ field ref, (field, ref) ∈ fields.toList →
            (cx.graph.fields r).get? field = some ref := by
          intro field ref hmem
          rw [Graph.fields, hs]
          exact Entries.mem_toList_iff.1 hmem
        refine (declareFields_guardedBy ?_ hw h).imp ?_
        · intro entry hmem
          refine hr.of_reaches (.single (cx.graph.values_fields_subset r ?_))
          exact List.mem_map_of_mem (Entries.mem_toList_iff.2 (hentry _ _ hmem))
        · rintro _ ⟨field, ref, cause, hmem, rfl, hover⟩
          exact .resolved hget (hentry field ref hmem) hover
      · cases h
    | union variants =>
      dsimp only at h
      split at h
      · cases h
        exact Fault.guardedBy_of_not_isGuard rfl
      · rcases bind_eq_error.1 h with h | ⟨_, _, -, h⟩
        · obtain ⟨_, _, _, rfl⟩ := unionMembers_error (Compiling.lift_eq_error.1 h).1
          exact Fault.guardedBy_of_not_isGuard rfl
        · cases h
    | enumeration => cases h
    | _ => cases h; exact Fault.guardedBy_of_not_isGuard rfl

theorem checkReferences_error (h : cx.checkReferences batch = .error f) : ∃ type r field ref,
    batch.get? type = some r ∧ (cx.graph.fields r).get? field = some ref ∧
      ((f = .structural (.fieldTooDeep field type) ∧
          ∃ e, Steps (cx.graph.next? Graph.noneNamed) (maxDepth + 1) ref e) ∨
        f = .unregisteredReference type field) := by
  obtain ⟨⟨type, r⟩, hmem, h⟩ := Except.exists_of_forM_eq_error h
  dsimp only at h
  split at h
  · rename_i fields hs
    obtain ⟨⟨field, ref⟩, hfield, h⟩ := Except.exists_of_forM_eq_error h
    have hget : (cx.graph.fields r).get? field = some ref := by
      rw [Graph.fields, hs]
      exact Entries.mem_toList_iff.1 hfield
    refine ⟨type, r, field, ref, Entries.mem_toList_iff.1 hmem, hget, ?_⟩
    unfold checkField at h
    cases ht : cx.graph.referenced type field ref with
    | error f' =>
      rw [ht] at h
      cases h
      exact .inl (Graph.referenced_error ht)
    | ok target =>
      rw [ht] at h
      dsimp only [bind, Except.bind] at h
      split at h
      · cases h
        exact .inr rfl
      · cases h
  · cases h

theorem checkReferences_guardedBy (h : cx.checkReferences batch = .error f) :
    f.GuardedBy (cx.graph.Exceeds batch) := by
  obtain ⟨type, r, field, ref, hget, hfield, ⟨rfl, e, hdeep⟩ | rfl⟩ := checkReferences_error h
  · exact fun _ => .strict hget hfield hdeep
  · exact trivial

end Context

theorem Options.twoOf_error {v : Json} {f : Fault} (h : twoOf v = .error f) :
    ∃ what, f = .misuse what := by
  unfold twoOf at h
  split at h
  case h_3 => split at h <;> cases h; exact ⟨_, rfl⟩
  all_goals first | (cases h; done) | (cases h; exact ⟨_, rfl⟩)

theorem Options.dataSeedCount_error {v : Json} {f : Fault} (h : dataSeedCount v = .error f) :
    ∃ what, f = .misuse what := by
  unfold dataSeedCount at h
  split at h
  · cases h
  · rename_i items
    cases hi : items.mapM twoOf with
    | ok pairs => rw [hi] at h; cases h
    | error f' =>
      rw [hi] at h
      cases h
      obtain ⟨item, -, hfail⟩ := Except.exists_of_mapM_eq_error hi
      exact twoOf_error hfail
  · split at h
    · cases h
    · cases h
      exact ⟨_, rfl⟩
  · cases h
    exact ⟨_, rfl⟩

theorem Options.batchRegistry_error {o : Options} {batch : Batch} {f : Fault}
    (h : o.batchRegistry batch = .error f) : ∃ what, f = .misuse what := by
  unfold batchRegistry at h
  cases hr : o.registry with
  | ok seed => rw [hr] at h; cases h
  | error f' =>
    rw [hr] at h
    cases h
    unfold Options.registry at hr
    split at hr
    · cases hr
    · cases hr
    · rename_i value _
      cases hc : dataSeedCount value with
      | ok n => rw [hc] at hr; cases hr
      | error f' => rw [hc] at hr; cases hr; exact dataSeedCount_error hc
    · cases hr
      exact ⟨_, rfl⟩

theorem Context.mapM_declare_guardedBy (cx : Context) {batch : Batch} {w w' : Walk} {f : Fault}
    (hg : ∀ r ∈ batch.values, cx.graph.Straight r)
    (h : (batch.toList.mapM fun entry => cx.declare entry.1 entry.2) w = .error f w')
    (hw : w.active = []) : f.GuardedBy (cx.graph.Exceeds batch) := by
  obtain ⟨⟨type, r⟩, hmem, v, hv, hfail⟩ :=
    Compiling.mapM_eq_error (fun _ => declare_steady _ _ _) h
  exact declare_guardedBy (Entries.mem_toList_iff.1 hmem) (hg r (List.mem_map_of_mem hmem))
    (hv.trans hw) hfail

/-- A batch fails at its registry, in the check of strict mode, or at one of its declarations. -/
theorem compileBatch_error_cases {g : Graph} {o : Options} {batch : Batch} {w w' : Walk} {f : Fault}
    (h : compileBatch g o batch w = .error f w') :
    o.batchRegistry batch = .error f ∨ ∃ registry, o.batchRegistry batch = .ok registry ∧
      ((o.strict.isTruthy = true ∧ Context.checkReferences ⟨g, registry, o⟩ batch = .error f) ∨
      ∃ u, u.active = w.active ∧ (batch.toList.mapM fun entry =>
        Context.declare ⟨g, registry, o⟩ entry.1 entry.2) u = .error f w') := by
  rcases bind_eq_error.1 h with h | ⟨registry, u, hlift, h⟩
  · exact .inl (Compiling.lift_eq_error.1 h).1
  obtain ⟨hreg, rfl⟩ := Compiling.lift_eq_ok.1 hlift
  refine .inr ⟨registry, hreg, ?_⟩
  rcases bind_eq_error.1 h with he | ⟨_, u, he, h⟩
  · cases he
  cases he
  dsimp only at h
  split at h
  · rename_i hstrict
    rcases bind_eq_error.1 h with h | ⟨_, v, hlift, h⟩
    · exact .inl ⟨hstrict, (Compiling.lift_eq_error.1 h).1⟩
    · obtain ⟨-, rfl⟩ := Compiling.lift_eq_ok.1 hlift
      refine .inr ⟨_, ?_, h⟩
      rfl
  · refine .inr ⟨_, ?_, h⟩
    rfl

/-- Where all is straight, the guards refuse a batch for their counts only, in strict mode or not. -/
theorem compileBatch_exceeds {g : Graph} {o : Options} {batch : Batch} {w w' : Walk} {f : Fault}
    (hg : ∀ r ∈ batch.values, g.Straight r) (hw : w.active = [])
    (h : compileBatch g o batch w = .error f w') : f.GuardedBy (g.Exceeds batch) := by
  rcases compileBatch_error_cases h with h | ⟨registry, -, ⟨-, h⟩ | ⟨u, hu, h⟩⟩
  · obtain ⟨what, rfl⟩ := Options.batchRegistry_error h
    exact trivial
  · have hrefused := Context.checkReferences_guardedBy h
    exact hrefused
  · exact Context.mapM_declare_guardedBy ⟨g, registry, o⟩ hg h (hu.trans hw)

end ShapeSdl
