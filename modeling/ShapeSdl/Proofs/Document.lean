import ShapeSdl.Batch
import ShapeSdl.Proofs.Typing

/-!
# Documents by rules

* `Context.Declared` : what an entry of a batch is declared as, one rule for each kind of node;
* `Context.map_name_of_declared` : declarations have the names of their entries;
* `Context.declare_sound` : the declaration that comes out is one by the rules;
* `compileBatch_eq_ok_iff` : the steps in which a batch compiles;
* `compileBatch_sound` : a document follows the rules, entry by entry, and a fallback is logged only
  for a field of a declared object.
-/

namespace ShapeSdl

open Fault (bind_eq_ok pure_eq_ok)

section
variable {α β : Type} {R S : α → β → Prop} {l : List α} {l' : List β}

theorem exists_mem_right (h : List.Forall₂ R l l') {a : α} (ha : a ∈ l) : ∃ b ∈ l', R a b := by
  induction h with
  | nil => cases ha
  | cons hab _ ih =>
    rcases List.mem_cons.1 ha with rfl | ha
    · exact ⟨_, List.mem_cons_self, hab⟩
    · obtain ⟨b, hb, hr⟩ := ih ha
      exact ⟨b, List.mem_cons_of_mem _ hb, hr⟩

theorem exists_mem_left (h : List.Forall₂ R l l') {b : β} (hb : b ∈ l') : ∃ a ∈ l, R a b :=
  exists_mem_right h.flip hb

theorem forall₂_imp_of_mem (h : List.Forall₂ R l l') (hrs : ∀ a ∈ l, ∀ b, R a b → S a b) :
    List.Forall₂ S l l' := by
  induction h with
  | nil => exact .nil
  | cons hab _ ih =>
    obtain ⟨hfirst, hrest⟩ := List.forall_mem_cons.1 hrs
    exact .cons (hfirst _ hab) (ih hrest)

theorem forall₂_comp {γ : Type} {S : β → γ → Prop} {T : α → γ → Prop} {l'' : List γ}
    (hr : List.Forall₂ R l l') (hs : List.Forall₂ S l' l'')
    (ht : ∀ a b c, R a b → S b c → T a c) : List.Forall₂ T l l'' := by
  induction hr generalizing l'' with
  | nil =>
    cases hs
    exact .nil
  | cons hab _ ih =>
    cases hs with
    | cons hbc hrest => exact .cons (ht _ _ _ hab hbc) (ih hrest)

end

namespace Context

def MayLogFields (cx : Context) (fields : List (String × Ref)) (e : Event) : Prop :=
  e.isFallback = true → ∃ field ∈ fields, cx.FallsBack field.2

def MayLogBatch (cx : Context) (batch : Batch) (e : Event) : Prop :=
  e.isFallback = true → ∃ entry ∈ batch.toList, ∃ field ∈ (cx.graph.fields entry.2).toList,
    cx.FallsBack field.2

def HasFieldType (cx : Context) (field : String × Ref) (typed : String × TypeExpr) : Prop :=
  typed.1 = field.1 ∧ cx.HasType field.2 typed.2

/-- A member of a union with its name. -/
def IsMember (cx : Context) (variant : Ref) (member : String) : Prop :=
  cx.registry.get? variant = some member ∧ cx.graph.isObject variant = true

/-- What a node under a name is declared as. -/
inductive Declared (cx : Context) : String × Ref → Declaration → Prop
  | type {name r fields typed} (node : cx.graph.shape? r = some (.object fields))
      (types : List.Forall₂ cx.HasFieldType fields.toList typed) :
      Declared cx (name, r) (.type name typed)
  | enumeration {name r values} (node : cx.graph.shape? r = some (.enumeration values)) :
      Declared cx (name, r) (.enumeration name (values.map cx.enumValue))
  | union {name r variants members} (node : cx.graph.shape? r = some (.union variants))
      (named : List.Forall₂ cx.IsMember variants members) :
      Declared cx (name, r) (.union name members)

variable {cx : Context} {name : String} {r : Ref} {d : Declaration} {w w' : Walk}

theorem Declared.name_eq {entry : String × Ref} (h : cx.Declared entry d) : d.name = entry.1 := by
  cases h <;> rfl

theorem map_name_of_declared {entries : List (String × Ref)} {document : Document}
    (h : List.Forall₂ cx.Declared entries document) :
    document.map Declaration.name = entries.map Prod.fst := by
  rw [← List.forall₂_eq_eq_eq, List.forall₂_map_left_iff, List.forall₂_map_right_iff]
  exact h.flip.imp fun _ _ hd => hd.name_eq

theorem Declared.not_list {entry : String × Ref} (h : cx.Declared entry d) (element : Ref) :
    cx.graph.shape? entry.2 ≠ some (.list element) := by
  intro hs
  cases h with
  | type node | enumeration node | union node => cases node.symm.trans hs

theorem declareFields_sound {fields : List (String × Ref)} {typed : List (String × TypeExpr)}
    (h : cx.declareFields name fields w = .ok typed w') :
    List.Forall₂ cx.HasFieldType fields typed ∧ w.Logs (cx.MayLogFields fields) w' := by
  have hfield : ∀ field ∈ fields, ∀ b u u', (do
      let t ← Compiling.mapFault (·.inField field.1 name) (cx.fieldType field.2)
      return (field.1, t) : Compiling (String × TypeExpr)) u = .ok b u' →
        cx.HasFieldType field b ∧ u.Logs (cx.MayLog field.2) u' := by
    intro field _ b u u' hb
    obtain ⟨t, v, ht, hpure⟩ := bind_eq_ok.1 hb
    obtain ⟨rfl, rfl⟩ := pure_eq_ok.1 hpure
    obtain ⟨htype, hlog⟩ := fieldType_sound (Compiling.mapFault_eq_ok.1 ht)
    exact ⟨⟨rfl, htype⟩, hlog⟩
  obtain ⟨htypes, hlog⟩ := Compiling.mapM_ok hfield h
  exact ⟨htypes, hlog.imp fun e ⟨field, hmem, he⟩ hf => ⟨field, hmem, he hf⟩⟩

theorem unionMembers_sound : ∀ {index : Nat} {variants : List Ref} {members : List String},
    cx.unionMembers name index variants = .ok members → List.Forall₂ cx.IsMember variants members
  | _, [], _, h => by cases h; exact .nil
  | index, r :: rest, members, h => by
    unfold unionMembers at h
    cases hreg : cx.registry.get? r with
    | none => rw [hreg] at h; cases h
    | some member =>
      rw [hreg] at h
      cases hobj : cx.graph.isObject r with
      | false => rw [hobj] at h; cases h
      | true =>
        rw [hobj] at h
        dsimp only at h
        cases hrest : cx.unionMembers name (index + 1) rest with
        | error f => rw [hrest] at h; cases h
        | ok members' =>
          rw [hrest] at h
          cases h
          exact .cons ⟨hreg, hobj⟩ (unionMembers_sound hrest)

/-- The declaration of a node follows the rules, and a fallback is logged for the fields of an
object only. -/
theorem declare_sound (h : cx.declare name r w = .ok d w') :
    cx.Declared (name, r) d ∧ w.Logs (cx.MayLogFields (cx.graph.fields r).toList) w' := by
  unfold declare at h
  cases hs : cx.graph.shape? r with
  | none => rw [hs] at h; cases h
  | some shape =>
    rw [hs] at h
    cases shape with
    | object fields =>
      obtain ⟨typed, u, htyped, hpure⟩ := bind_eq_ok.1 h
      obtain ⟨rfl, rfl⟩ := pure_eq_ok.1 hpure
      obtain ⟨htypes, hlog⟩ := declareFields_sound htyped
      rw [Graph.fields, hs]
      exact ⟨.type hs htypes, hlog⟩
    | enumeration values =>
      obtain ⟨rfl, rfl⟩ := pure_eq_ok.1 h
      exact ⟨.enumeration hs, .refl _ _⟩
    | union variants =>
      dsimp only at h
      split at h
      · cases h
      · obtain ⟨members, u, hlift, hpure⟩ := bind_eq_ok.1 h
        obtain ⟨hmembers, rfl⟩ := Compiling.lift_eq_ok.1 hlift
        obtain ⟨rfl, rfl⟩ := pure_eq_ok.1 hpure
        exact ⟨.union hs (unionMembers_sound hmembers), .refl _ _⟩
    | _ => cases h

/-- The declarations of a batch follow the rules, entry by entry. -/
theorem mapM_declare_sound {batch : Batch} {document : Document}
    (h : (batch.toList.mapM fun entry => cx.declare entry.1 entry.2) w = .ok document w') :
    List.Forall₂ cx.Declared batch.toList document ∧ w.Logs (cx.MayLogBatch batch) w' := by
  have hentry : ∀ entry ∈ batch.toList, ∀ d u u', cx.declare entry.1 entry.2 u = .ok d u' →
      cx.Declared entry d ∧ u.Logs (cx.MayLogFields (cx.graph.fields entry.2).toList) u' :=
    fun _ _ _ _ _ hd => declare_sound hd
  obtain ⟨hdeclared, hlog⟩ := Compiling.mapM_ok hentry h
  exact ⟨hdeclared, hlog.imp fun e ⟨entry, hmem, he⟩ hf => ⟨entry, hmem, he hf⟩⟩

end Context

/-- A batch compiles exactly if its registry can be made, strict mode has nothing against it, and its
entries can be declared. -/
theorem compileBatch_eq_ok_iff {g : Graph} {o : Options} {batch : Batch} {document : Document}
    {w w' : Walk} : compileBatch g o batch w = .ok document w' ↔
      ∃ registry, o.batchRegistry batch = .ok registry ∧
        (o.strict.isTruthy = true → Context.checkReferences ⟨g, registry, o⟩ batch = .ok ()) ∧
        (batch.toList.mapM fun entry => Context.declare ⟨g, registry, o⟩ entry.1 entry.2)
          { w with log := w.log ++ [.batch batch.size registry.size o.strict] } =
            .ok document w' := by
  constructor
  · intro h
    obtain ⟨registry, u, hlift, h⟩ := bind_eq_ok.1 h
    obtain ⟨hreg, rfl⟩ := Compiling.lift_eq_ok.1 hlift
    obtain ⟨_, v, hemit, h⟩ := bind_eq_ok.1 h
    cases hemit
    refine ⟨registry, hreg, ?_⟩
    dsimp only at h
    split at h
    · obtain ⟨_, x, hlift, h⟩ := bind_eq_ok.1 h
      obtain ⟨hcheck, rfl⟩ := Compiling.lift_eq_ok.1 hlift
      exact ⟨fun _ => hcheck, h⟩
    · exact ⟨fun hs => absurd hs ‹_›, h⟩
  · rintro ⟨registry, hreg, hcheck, h⟩
    refine bind_eq_ok.2 ⟨registry, w, Compiling.lift_eq_ok.2 ⟨hreg, rfl⟩, ?_⟩
    refine bind_eq_ok.2 ⟨(), _, rfl, ?_⟩
    dsimp only
    split
    · exact bind_eq_ok.2 ⟨(), _, Compiling.lift_eq_ok.2 ⟨hcheck ‹_›, rfl⟩, h⟩
    · exact h

/-- A document follows the rules, entry by entry. In strict mode all references have been checked
before. -/
theorem compileBatch_sound {g : Graph} {o : Options} {batch : Batch} {document : Document}
    {w w' : Walk} (h : compileBatch g o batch w = .ok document w') :
    ∃ registry, o.batchRegistry batch = .ok registry ∧
      (o.strict.isTruthy = true → Context.checkReferences ⟨g, registry, o⟩ batch = .ok ()) ∧
      List.Forall₂ (Context.Declared ⟨g, registry, o⟩) batch.toList document ∧
      w.Logs (Context.MayLogBatch ⟨g, registry, o⟩ batch) w' := by
  obtain ⟨registry, hreg, hcheck, h⟩ := compileBatch_eq_ok_iff.1 h
  obtain ⟨hdeclared, hlog⟩ := Context.mapM_declare_sound h
  exact ⟨registry, hreg, hcheck, hdeclared, (Walk.Logs.emit (fun he => nomatch he) rfl).trans hlog⟩

end ShapeSdl
