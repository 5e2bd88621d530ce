import ShapeSdl.Proofs.Document

/-!
# Strict mode

Strict mode looks for the object that each field refers to before anything is declared. It goes
through all wrappers and lists; resolving a type does not enter a list that has a name, so it ends
at an object only if strict mode has come to the same one.

* `Graph.endsAt_of_referencedWithin` : what strict mode finds is at the end of the walk;
* `Context.contains_of_checkReferences` : what strict mode has accepted;
* `Options.SeedsNamed` : every node that has been registered beforehand has a name;
* `strict_names_objects` : in strict mode no object is rendered under the name of any value.
-/

namespace ShapeSdl

/-! ## What strict mode looks at -/

namespace Graph

/-- No list is passed by. -/
def noneNamed (_ : Ref) : Bool := false

theorem referencedWithin_eq (g : Graph) (type field : String) (room : Nat) (seen : List Ref)
    (r : Ref) : g.referencedWithin type field room seen r = match g.next? noneNamed r with
      | none => .ok r
      | some next =>
        if r ∈ seen then .error (.structural (.fieldTooDeep field type))
        else match room with
          | 0 => .error (.structural (.fieldTooDeep field type))
          | room + 1 => g.referencedWithin type field room (r :: seen) next := by
  rw [referencedWithin.eq_def, next?]
  cases g.shape? r with
  | none => rfl
  | some shape => cases shape <;> rfl

/-- What strict mode finds is at the end of the walk through all wrappers and lists. -/
theorem endsAt_of_referencedWithin {g : Graph} {type field : String} : ∀ {room : Nat}
    {seen : List Ref} {r e : Ref}, g.referencedWithin type field room seen r = .ok e →
      g.EndsAt noneNamed r e := by
  intro room seen r e h
  rw [referencedWithin_eq] at h
  split at h
  · cases h
    exact .here ‹_›
  · split at h
    · cases h
    · cases room with
      | zero => cases h
      | succ room => exact .step ‹_› (endsAt_of_referencedWithin h)

end Graph

theorem Except.forM_eq_ok_iff {α ε : Type} {f : α → Except ε Unit} {l : List α} :
    l.forM f = .ok () ↔ ∀ a ∈ l, f a = .ok () := by
  induction l with
  | nil => exact ⟨fun _ => by simp, fun _ => rfl⟩
  | cons a rest ih =>
    rw [List.forM_eq_forM] at ih ⊢
    rw [List.forM_cons, List.forall_mem_cons, ← ih]
    cases ha : f a with
    | error e => exact ⟨nofun, fun h => nomatch h.1⟩
    | ok u => exact ⟨fun h => ⟨rfl, h⟩, And.right⟩

/-- Several computations fail as the first of them that fails. -/
theorem Except.mapM_eq_error_iff {α β ε : Type} {f : α → Except ε β} {e : ε} : ∀ {l : List α},
    l.mapM f = .error e ↔ ∃ before a after, l = before ++ a :: after ∧
      (∀ x ∈ before, ∃ b, f x = .ok b) ∧ f a = .error e
  | [] => by
    refine ⟨nofun, ?_⟩
    rintro ⟨before, a, after, hl, -⟩
    simp at hl
  | a :: rest => by
    rw [List.mapM_cons]
    constructor
    · intro h
      cases ha : f a with
      | error e' =>
        rw [ha] at h
        cases h
        exact ⟨[], a, rest, rfl, nofun, ha⟩
      | ok b =>
        rw [ha] at h
        cases hrest : rest.mapM f with
        | ok bs => rw [hrest] at h; cases h
        | error e' =>
          rw [hrest] at h
          cases h
          obtain ⟨before, c, after, rfl, hbefore, hc⟩ := mapM_eq_error_iff.1 hrest
          exact ⟨a :: before, c, after, rfl, List.forall_mem_cons.2 ⟨⟨b, ha⟩, hbefore⟩, hc⟩
    · rintro ⟨_ | ⟨b, before⟩, c, after, hl, hbefore, hc⟩
      · cases hl
        rw [hc]
        rfl
      · cases hl
        obtain ⟨⟨d, hd⟩, hbefore⟩ := List.forall_mem_cons.1 hbefore
        rw [hd, mapM_eq_error_iff.2 ⟨before, c, after, List.append_eq, hbefore, hc⟩]
        rfl

namespace Context

variable {cx : Context} {batch : Batch}

theorem contains_of_checkField {type : String} {field : String × Ref}
    (h : cx.checkField type field = .ok ()) : ∃ e, cx.graph.EndsAt Graph.noneNamed field.2 e ∧
      (cx.graph.isObject e = true → cx.registry.contains e = true) := by
  unfold checkField at h
  cases hr : cx.graph.referenced type field.1 field.2 with
  | error f => rw [hr] at h; cases h
  | ok e =>
    refine ⟨e, Graph.endsAt_of_referencedWithin hr, fun ho => ?_⟩
    rw [hr] at h
    cases hc : cx.registry.contains e with
    | true => rfl
    | false =>
      dsimp only [bind, Except.bind] at h
      rw [ho, hc] at h
      cases h

/-- What strict mode has accepted: every object that a field of a declared object leads to is
registered. -/
theorem contains_of_checkReferences (h : cx.checkReferences batch = .ok ()) {entry : String × Ref}
    (hmem : entry ∈ batch.toList) {field : String × Ref}
    (hfield : field ∈ (cx.graph.fields entry.2).toList) {e : Ref}
    (he : cx.graph.EndsAt cx.isNamed field.2 e) (ho : cx.graph.isObject e = true) :
    cx.registry.contains e = true := by
  have hentry := Except.forM_eq_ok_iff.1 h entry hmem
  dsimp only at hentry
  unfold Graph.fields at hfield
  split at hfield
  · rename_i fields hs
    rw [hs] at hentry
    obtain ⟨e', he', hc⟩ := contains_of_checkField (Except.forM_eq_ok_iff.1 hentry field hfield)
    have hnone : ∀ r, Graph.noneNamed r = true → cx.isNamed r = true := by
      intro r hr
      cases hr
    cases he'.unique (he.of_isObject ho Graph.noneNamed hnone)
    exact hc ho
  · cases hfield

end Context

/-! ## Registered nodes have names -/

/-- Every node that has been registered beforehand has a name. -/
def Options.SeedsNamed (o : Options) : Prop :=
  ∀ pairs, o.seeds = .pairs pairs → ∀ p ∈ pairs, p.2.isSome = true

def Registry.Named (r : Registry) : Prop := ∀ node name, r.entries.get? node = some name → name.isSome = true

namespace Registry

variable {r : Registry} {pairs : List (Ref × Option String)}

theorem Named.update (h : r.Named) (hp : ∀ p ∈ pairs, p.2.isSome = true) : (r.update pairs).Named := by
  intro node name hget
  rcases Entries.mem_of_get?_putAll hget with hmem | hget
  · exact hp _ hmem
  · exact h node name hget

theorem Named.empty : (∅ : Registry).Named := nofun

theorem contains_of_get? {node : Ref} {name : String} (h : r.get? node = some name) :
    r.contains node = true := by
  unfold get? at h
  unfold contains Entries.contains
  cases hn : r.entries.get? node with
  | none => rw [hn] at h; cases h
  | some n => rfl

theorem Named.exists_get? (h : r.Named) {node : Ref} (hc : r.contains node = true) :
    ∃ name, r.get? node = some name := by
  unfold contains Entries.contains at hc
  obtain ⟨name, hname⟩ := Option.isSome_iff_exists.1 hc
  obtain ⟨n, rfl⟩ := Option.isSome_iff_exists.1 (h node name hname)
  exact ⟨n, by rw [get?, hname]; rfl⟩

theorem Named.contains_eq (h : r.Named) (node : Ref) : r.contains node = (r.get? node).isSome := by
  rw [Bool.eq_iff_iff, Option.isSome_iff_exists]
  exact ⟨h.exists_get?, fun ⟨_, hname⟩ => contains_of_get? hname⟩

end Registry

theorem Options.named_batchRegistry {o : Options} {batch : Batch} {registry : Registry}
    (ho : o.SeedsNamed) (h : o.batchRegistry batch = .ok registry) : registry.Named := by
  unfold batchRegistry at h
  cases hseed : o.registry with
  | error f => rw [hseed] at h; cases h
  | ok seed =>
    rw [hseed] at h
    cases h
    have hnamed : seed.Named := by
      unfold Options.registry at hseed
      split at hseed
      · cases hseed; exact .empty
      · cases hseed
        exact .update .empty (ho _ ‹_›)
      · rename_i value _
        cases hc : dataSeedCount value with
        | error f => rw [hc] at hseed; cases hseed
        | ok n => rw [hc] at hseed; cases hseed; exact .empty
      · cases hseed
    refine hnamed.update fun p hp => ?_
    obtain ⟨entry, -, rfl⟩ := List.mem_map.1 hp
    rfl

/-! ## Strict mode is sound -/

/-- In strict mode every object at the end of a field's walk is registered, and the field is
rendered under its name. No fallback is logged. -/
theorem strict_names_objects {g : Graph} {o : Options} {batch : Batch} {document : Document}
    {w w' : Walk} (hstrict : o.strict.isTruthy = true) (hseeds : o.SeedsNamed)
    (h : compileBatch g o batch w = .ok document w') :
    ∃ registry, o.batchRegistry batch = .ok registry ∧
      (∀ name r fields, batch.get? name = some r → g.shape? r = some (.object fields) →
        ∃ typed, .type name typed ∈ document ∧ List.Forall₂ (fun field t => t.1 = field.1 ∧
          ∀ e, g.EndsAt (Context.isNamed ⟨g, registry, o⟩) field.2 e → g.isObject e = true →
            registry.contains e = true ∧
              ∃ n, registry.get? e = some n ∧ t.2.innermost = .str n) fields.toList typed) ∧
      w.Logs (fun e => e.isFallback = false) w' := by
  obtain ⟨registry, hreg, hcheck, hdeclared, hlog⟩ := compileBatch_sound h
  have hnamed := Options.named_batchRegistry hseeds hreg
  -- The resolver's walk stops no earlier than that of strict mode, if it ends at an object.
  have hobject : ∀ entry ∈ batch.toList, ∀ field ∈ (g.fields entry.2).toList, ∀ e,
      g.EndsAt (Context.isNamed ⟨g, registry, o⟩) field.2 e → g.isObject e = true →
        registry.contains e = true ∧ ∃ n, registry.get? e = some n := by
    intro entry hentry field hfield e he ho
    have hc := Context.contains_of_checkReferences (hcheck hstrict) hentry hfield he ho
    exact ⟨hc, hnamed.exists_get? hc⟩
  refine ⟨registry, hreg, fun name r fields hr hs => ?_, hlog.imp fun e he => ?_⟩
  · have hentry := Entries.mem_toList_iff.2 hr
    obtain ⟨d, hd, hdecl⟩ := exists_mem_right hdeclared hentry
    cases hdecl with
    | type node types =>
      cases hs.symm.trans node
      refine ⟨_, hd, forall₂_imp_of_mem types fun field hfield t ⟨hname, htype⟩ => ?_⟩
      refine ⟨hname, fun e he ho => ?_⟩
      have hmem : field ∈ (g.fields r).toList := by rwa [Graph.fields, hs]
      obtain ⟨hc, n, hn⟩ := hobject (name, r) hentry field hmem e he ho
      obtain ⟨e', he', hnames⟩ := htype.endsAt
      cases he.unique he'
      refine ⟨hc, n, hn, hnames.eq_of_registered hn⟩
    | enumeration node | union node => cases hs.symm.trans node
  · rw [← Bool.not_eq_true]
    intro hf
    obtain ⟨entry, hentry, field, hfield, e, hend, hnone, ho⟩ := he hf
    obtain ⟨-, n, hn⟩ := hobject entry hentry field hfield e hend ho
    cases hnone.symm.trans hn

/-- A category with a parent and a list of children, all of them categories. -/
def categoryGraph : Graph := ⟨#[
  ⟨"", [], .object (.ofList [("parent", some 1), ("children", some 2)])⟩,
  ⟨"", [], .optional 0⟩,
  ⟨"", [], .array 0⟩]⟩

theorem strict_names_objects_category : ∃ document w typed,
    compileBatch categoryGraph { strict := .bool true } (.ofList [("Category", some 0)]) {} =
      .ok document w ∧ .type "Category" typed ∈ document ∧
      typed.map (fun t => (t.1, t.2.innermost)) =
        [("parent", .str "Category"), ("children", .str "Category")] := by
  obtain ⟨document, w, h, -⟩ := Reading.exists_ok (p := fun _ _ => true)
    (x := compileBatch categoryGraph { strict := .bool true } (.ofList [("Category", some 0)]) {})
    (by decide +kernel)
  obtain ⟨registry, hreg, hall, -⟩ := strict_names_objects rfl (fun _ hp => by cases hp) h
  cases hreg
  obtain ⟨typed, hmem, htypes⟩ := hall "Category" (some 0) _ rfl rfl
  refine ⟨document, w, typed, h, hmem, ?_⟩
  obtain ⟨parent, _, ⟨hparent, hp⟩, hrest, rfl⟩ := List.forall₂_cons_left_iff.1 htypes
  obtain ⟨children, _, ⟨hchildren, hc⟩, hnil, rfl⟩ := List.forall₂_cons_left_iff.1 hrest
  cases hnil
  obtain ⟨-, n, hn, hpe⟩ := hp (some 0) (.step rfl (.here rfl)) rfl
  obtain ⟨-, m, hm, hce⟩ := hc (some 0) (.step rfl (.here rfl)) rfl
  cases hn
  cases hm
  rw [List.map_cons, List.map_cons, List.map_nil, hparent, hchildren, hpe, hce]

end ShapeSdl
