import ShapeSdl.Proofs.Guards
import ShapeSdl.Proofs.Order
import ShapeSdl.Proofs.Steady
import ShapeSdl.Proofs.Agree

/-!
# What strict mode refuses

Strict mode is there to refuse what would otherwise be rendered under the name of any value. It does
so by a walk of its own, which goes through all lists, those with a name as well, and which counts
wrappers and lists together. Resolving a type does neither.

* `Context.checkField_eq_ok_iff`, `Context.checkReferences_eq_ok_iff` : what strict mode accepts;
* `Context.not_fallsBack` : a field that has logged no fallback does not fall back;
* `Context.WithinReach` : what strict mode asks of a field beyond that;
* `compileBatch_strict_iff` : strict mode gives a document exactly if one comes out without it, with
  no fallback, and all fields are within reach;
* `strict_refuses_more` : fields that are not within reach, and would not fall back.
-/

namespace ShapeSdl

namespace Context

variable {cx : Context} {batch : Batch} {r : Ref}

/-! ## What strict mode accepts -/

/-- Strict mode accepts a field if a walk of at most `maxDepth` steps finds no object that is not
registered. -/
theorem checkField_eq_ok_iff {type : String} {field : String × Ref} :
    cx.checkField type field = .ok () ↔ ∃ n ≤ maxDepth, ∃ e,
      Steps (cx.graph.next? Graph.noneNamed) n field.2 e ∧
        cx.graph.next? Graph.noneNamed e = none ∧
          (cx.graph.isObject e = true → cx.registry.contains e = true) := by
  constructor
  · intro h
    obtain ⟨e', he', hc⟩ := contains_of_checkField h
    unfold checkField at h
    cases hr : cx.graph.referenced type field.1 field.2 with
    | error f => rw [hr] at h; cases h
    | ok e =>
      obtain ⟨n, hn, hs, he⟩ := Graph.referenced_eq_ok_iff.1 hr
      cases (Graph.endsAt_iff.2 ⟨n, hs, he⟩).unique he'
      exact ⟨n, hn, e', hs, he, hc⟩
  · rintro ⟨n, hn, e, hs, he, hc⟩
    unfold checkField
    rw [Graph.referenced_eq_ok_iff.2 ⟨n, hn, hs, he⟩]
    dsimp only [bind, Except.bind]
    cases ho : cx.graph.isObject e with
    | false => rfl
    | true => rw [hc ho]; rfl

theorem checkReferences_eq_ok_iff : cx.checkReferences batch = .ok () ↔
    ∀ entry ∈ batch.toList, ∀ field ∈ (cx.graph.fields entry.2).toList,
      cx.checkField entry.1 field = .ok () := by
  unfold checkReferences
  rw [Except.forM_eq_ok_iff]
  refine forall₂_congr fun entry _ => ?_
  obtain ⟨type, r⟩ := entry
  unfold Graph.fields
  dsimp only
  cases cx.graph.shape? r with
  | none => exact iff_of_true rfl nofun
  | some shape =>
    cases shape with
    | object fields => exact Except.forM_eq_ok_iff
    | _ => exact iff_of_true rfl nofun

/-! ## Fallbacks -/

theorem fallbackAt_ne_nil {t : TypeExpr} (htype : cx.HasType r t) {e : Ref}
    (he : cx.graph.EndsAt cx.isNamed r e) (hnone : cx.registry.get? e = none)
    (ho : cx.graph.isObject e = true) : cx.fallbackAt e ≠ [] := by
  obtain ⟨e', he', hnames⟩ := htype.endsAt
  cases he.unique he'
  generalize t.innermost = name at hnames
  obtain ⟨fields, hs⟩ := Graph.isObject_iff.1 ho
  obtain ⟨⟨path, metadata, shape⟩, hn, rfl⟩ := Option.map_eq_some_iff.1 hs
  cases hnames with
  | registered hreg => cases hnone.symm.trans hreg
  | scalar _ keyed written =>
    rw [Graph.scalarKey?, hs] at keyed
    cases keyed
    rw [fallbackAt, hnone, hn, written]
    exact List.cons_ne_nil _ _

theorem not_fallsBack {t : TypeExpr} (htype : cx.HasType r t) (h : cx.Degrades r []) :
    ¬ cx.FallsBack r := by
  rintro ⟨e, he, hnone, ho⟩
  obtain ⟨e', he', hevents⟩ := h
  cases he.unique he'
  exact fallbackAt_ne_nil htype he hnone ho hevents.symm

/-! ## What is within its reach -/

/-- At most `maxDepth` wrappers and lists are around what a field refers to, those with a name
counted. If the walk of the field ends before, at a list with a name, then what is inside that list
is no object, or a registered one. -/
def WithinReach (cx : Context) (r : Ref) : Prop :=
  ∃ n ≤ maxDepth, ∃ e, Steps (cx.graph.next? Graph.noneNamed) n r e ∧
    cx.graph.next? Graph.noneNamed e = none ∧
      (cx.graph.EndsAt cx.isNamed r e ∨ (cx.graph.isObject e = true → cx.registry.contains e = true))

/-- Of the fields that do not fall back, strict mode accepts those within reach. -/
theorem checkField_iff_withinReach {type : String} {field : String × Ref}
    (hf : ¬ cx.FallsBack field.2) : cx.checkField type field = .ok () ↔ cx.WithinReach field.2 := by
  rw [checkField_eq_ok_iff]
  constructor
  · rintro ⟨n, hn, e, hs, he, hc⟩
    exact ⟨n, hn, e, hs, he, .inr hc⟩
  · rintro ⟨n, hn, e, hs, he, hends | hc⟩
    · refine ⟨n, hn, e, hs, he, fun ho => ?_⟩
      cases hreg : cx.registry.get? e with
      | none => exact absurd ⟨e, hends, hreg, ho⟩ hf
      | some name => exact Registry.contains_of_get? hreg
    · exact ⟨n, hn, e, hs, he, hc⟩

/-- Strict mode accepts no field that falls back. -/
theorem not_fallsBack_of_checkReferences (hnamed : cx.registry.Named)
    (h : cx.checkReferences batch = .ok ()) :
    ∀ field ∈ cx.graph.batchFields batch, ¬ cx.FallsBack field.2 := by
  rintro field hfield ⟨e, he, hnone, ho⟩
  obtain ⟨entry, hentry, hfield⟩ := List.mem_flatMap.1 hfield
  obtain ⟨name, hname⟩ := hnamed.exists_get? (contains_of_checkReferences h hentry hfield he ho)
  cases hnone.symm.trans hname

theorem checkReferences_iff_withinReach
    (hf : ∀ field ∈ cx.graph.batchFields batch, ¬ cx.FallsBack field.2) :
    cx.checkReferences batch = .ok () ↔
      ∀ field ∈ cx.graph.batchFields batch, cx.WithinReach field.2 := by
  rw [checkReferences_eq_ok_iff]
  constructor
  · intro h field hfield
    obtain ⟨entry, hentry, hmem⟩ := List.mem_flatMap.1 hfield
    exact (checkField_iff_withinReach (hf field hfield)).1 (h entry hentry field hmem)
  · intro h entry hentry field hmem
    have hfield : field ∈ cx.graph.batchFields batch := List.mem_flatMap.2 ⟨entry, hentry, hmem⟩
    exact (checkField_iff_withinReach (hf field hfield)).2 (h field hfield)

end Context

/-! ## Declarations do not depend on strict mode -/

/-- With another setting of strict mode, all that changes is whether the fields are checked and what
is logged in the beginning. -/
theorem compileBatch_withStrict_eq_ok_iff {g : Graph} {o : Options} {batch : Batch} {strict : Json}
    {document : Document} {w w' : Walk} :
    compileBatch g { o with strict } batch w = .ok document w' ↔
      ∃ registry, o.batchRegistry batch = .ok registry ∧
        (strict.isTruthy = true → Context.checkReferences ⟨g, registry, o⟩ batch = .ok ()) ∧
        (batch.toList.mapM fun entry => Context.declare ⟨g, registry, o⟩ entry.1 entry.2)
          { w with log := w.log ++ [.batch batch.size registry.size strict] } = .ok document w' := by
  rw [compileBatch_eq_ok_iff]
  refine exists_congr fun registry => and_congr_right fun _ => and_congr_right fun _ => ?_
  have hsame : Context.Same ⟨g, registry, { o with strict }⟩ ⟨g, registry, o⟩ :=
    ⟨rfl, fun _ => rfl, rfl, rfl⟩
  simp only [hsame.declare_eq]

theorem Context.Declared.exists_hasType {cx : Context} {entry : String × Ref} {d : Declaration}
    (h : cx.Declared entry d) {field : String × Ref}
    (hfield : field ∈ (cx.graph.fields entry.2).toList) : ∃ t, cx.HasType field.2 t := by
  obtain ⟨fields, hs⟩ : ∃ fields, cx.graph.shape? entry.2 = some (.object fields) := by
    unfold Graph.fields at hfield
    split at hfield
    · exact ⟨_, ‹_›⟩
    · cases hfield
  rw [Graph.fields, hs] at hfield
  cases h with
  | type node types =>
    cases hs.symm.trans node
    obtain ⟨typed, -, -, ht⟩ := exists_mem_right types hfield
    exact ⟨typed.2, ht⟩
  | enumeration node | union node => cases hs.symm.trans node

theorem Context.exists_hasType_of_mapM {cx : Context} {batch : Batch} {document : Document}
    {w w' : Walk}
    (h : (batch.toList.mapM fun entry => cx.declare entry.1 entry.2) w = .ok document w') :
    ∀ field ∈ cx.graph.batchFields batch, ∃ t, cx.HasType field.2 t := by
  intro field hfield
  obtain ⟨entry, hentry, hfield⟩ := List.mem_flatMap.1 hfield
  obtain ⟨d, -, hd⟩ := exists_mem_right (mapM_declare_sound h).1 hentry
  exact hd.exists_hasType hfield

theorem Context.not_fallsBack_of_fallbacks {cx : Context} {batch : Batch} {document : Document}
    {w w' : Walk}
    (h : (batch.toList.mapM fun entry => cx.declare entry.1 entry.2) w = .ok document w')
    (hlog : w'.fallbacks = w.fallbacks) :
    ∀ field ∈ cx.graph.batchFields batch, ¬ cx.FallsBack field.2 := by
  obtain ⟨eventss, hall, hevents⟩ := mapM_declare_fallbacks h
  rw [hlog, List.self_eq_append_right, List.flatten_eq_nil_iff] at hevents
  intro field hfield
  obtain ⟨events, hmem, hdegrades⟩ := exists_mem_right hall hfield
  obtain ⟨t, htype⟩ := exists_hasType_of_mapM h field hfield
  rw [hevents events hmem] at hdegrades
  exact not_fallsBack htype hdegrades

theorem Context.exists_mapM_declare {cx : Context} {l : List (String × Ref)} {document : Document}
    {v u : Walk} (h : (l.mapM fun entry => cx.declare entry.1 entry.2) v = .ok document u)
    (hv : v.active = []) (v' : Walk) (hv' : v'.active = []) :
    ∃ u', (l.mapM fun entry => cx.declare entry.1 entry.2) v' = .ok document u' := by
  have hsteady : ∀ p q : String × Ref, p = q →
      Compiling.Agree Eq (cx.declare p.1 p.2) (cx.declare q.1 q.2) := by
    rintro p _ rfl
    exact cx.declare_steady p.1 p.2
  exact mapM_declares (declares_of_mapM (List.forall₂_same.2 fun _ _ => rfl) hsteady hv h) hv'

/-- A batch compiles in strict mode exactly if it compiles without, with no fallback, and all fields
of its objects are within reach. The document is the same. -/
theorem compileBatch_strict_iff {g : Graph} {o : Options} {batch : Batch} {document : Document}
    {strict lax : Json} {w : Walk} (hw : w.active = []) (hstrict : strict.isTruthy = true)
    (hlax : lax.isTruthy = false) (hseeds : o.SeedsNamed) :
    (∃ u, compileBatch g { o with strict } batch w = .ok document u) ↔
      (∃ u, compileBatch g { o with strict := lax } batch w = .ok document u ∧
        w.Logs (fun e => e.isFallback = false) u) ∧
      ∀ registry, o.batchRegistry batch = .ok registry →
        ∀ field ∈ g.batchFields batch, Context.WithinReach ⟨g, registry, o⟩ field.2 := by
  constructor
  · rintro ⟨u, h⟩
    obtain ⟨registry, hreg, hcheck, hrun⟩ := compileBatch_withStrict_eq_ok_iff.1 h
    have hchecked := hcheck hstrict
    have hfalls := Context.not_fallsBack_of_checkReferences
      (Options.named_batchRegistry hseeds hreg) hchecked
    obtain ⟨u', hrun'⟩ := Context.exists_mapM_declare hrun hw
      { w with log := w.log ++ [.batch batch.size registry.size lax] } hw
    have hbegin : w.Logs (fun e => e.isFallback = false)
        { w with log := w.log ++ [.batch batch.size registry.size lax] } :=
      ⟨[_], rfl, List.forall_mem_singleton.2 rfl⟩
    have hlog : w.Logs (fun e => e.isFallback = false) u' := by
      refine hbegin.trans ((Context.mapM_declare_sound hrun').2.imp fun e he => ?_)
      refine Bool.eq_false_iff.2 fun hf => ?_
      obtain ⟨entry, hentry, field, hfield, hback⟩ := he hf
      exact hfalls field (List.mem_flatMap.2 ⟨entry, hentry, hfield⟩) hback
    refine ⟨⟨u', compileBatch_withStrict_eq_ok_iff.2 ⟨registry, hreg, ?_, hrun'⟩, hlog⟩, ?_⟩
    · intro hl
      rw [hlax] at hl
      cases hl
    · intro registry' hreg'
      cases hreg.symm.trans hreg'
      exact (Context.checkReferences_iff_withinReach hfalls).1 hchecked
  · rintro ⟨⟨u, h, hlog⟩, hreach⟩
    obtain ⟨registry, hreg, -, hrun⟩ := compileBatch_withStrict_eq_ok_iff.1 h
    have hbegin := Walk.fallbacks_emit_of_not (w := w) (e := .batch batch.size registry.size lax)
      rfl rfl
    have hfalls := Context.not_fallsBack_of_fallbacks hrun
      (((Walk.logs_iff hlog).1 hlog).trans hbegin.symm)
    have hchecked := (Context.checkReferences_iff_withinReach hfalls).2 (hreach registry hreg)
    obtain ⟨u', hrun'⟩ := Context.exists_mapM_declare hrun hw
      { w with log := w.log ++ [.batch batch.size registry.size strict] } hw
    exact ⟨u', compileBatch_withStrict_eq_ok_iff.2 ⟨registry, hreg, fun _ => hchecked, hrun'⟩⟩

def taggedGraph : Graph := ⟨#[
  ⟨"", [], .object (.ofList [("tags", some 1)])⟩,
  ⟨"", [], .array 2⟩,
  ⟨"", [], .object ∅⟩]⟩

/-- The object is declared under this name, the others are not declared. -/
def taggedBatch : Batch := .ofList [("Main", some 0)]

def tagSeeds : Seeds := .pairs [(some 1, some "Tags"), (some 2, some "Tag")]

/-- If the list and its objects have names, the field is within reach. -/
theorem compileBatch_strict_iff_tagged : ∃ document u u',
    compileBatch taggedGraph { seeds := tagSeeds } taggedBatch {} = .ok document u ∧
    compileBatch taggedGraph { seeds := tagSeeds, strict := .bool true } taggedBatch {} =
      .ok document u' := by
  obtain ⟨document, u, h, hlog⟩ := Reading.exists_ok
    (x := compileBatch taggedGraph { seeds := tagSeeds } taggedBatch {})
    (p := fun _ u => u.log.all fun e => !e.isFallback) (by decide +kernel)
  have hseeds : Options.SeedsNamed { seeds := tagSeeds } := by
    rintro pairs ⟨⟩
    decide
  have hreach : ∀ registry, Options.batchRegistry { seeds := tagSeeds } taggedBatch = .ok registry →
      ∀ field ∈ taggedGraph.batchFields taggedBatch,
        Context.WithinReach ⟨taggedGraph, registry, { seeds := tagSeeds }⟩ field.2 := by
    rintro registry ⟨⟩ field hfield
    obtain rfl : field = ("tags", some 1) := List.mem_singleton.1 hfield
    exact ⟨1, by decide, some 2, .single rfl, rfl, .inr fun _ => rfl⟩
  have hquiet : Walk.Logs (fun e => e.isFallback = false) {} u := ⟨u.log, rfl, by simpa using hlog⟩
  obtain ⟨u', h'⟩ := (compileBatch_strict_iff (o := { seeds := tagSeeds }) rfl
    (show (Json.bool true).isTruthy = true from rfl)
    (show (Json.bool false).isTruthy = false from rfl) hseeds).2 ⟨⟨u, h, hquiet⟩, hreach⟩
  exact ⟨document, u, u', h, h'⟩

/-- So many lists of values that may be null inside each other, and a text inside them. The first of
them is node `first`. -/
def nestedNodes (first : NodeId) : Nat → List Node
  | 0 => [⟨"", [], .string⟩]
  | n + 1 => ⟨"", [], .array (first + 1)⟩ :: ⟨"", [], .nullable (first + 2)⟩ ::
    nestedNodes (first + 2) n

def nestedGraph : Graph :=
  ⟨(⟨"", [], .object (.ofList [("deep", some 1)])⟩ :: nestedNodes 1 33).toArray⟩

/-- Strict mode refuses fields that would not fall back. A list with a name whose objects have none
is rendered under its own name, and strict mode asks for theirs. Lists and wrappers that are each
few enough are together too many for it. -/
theorem strict_refuses_more :
    ((∃ u, compileBatch taggedGraph { seeds := .pairs [(some 1, some "Tags")] } taggedBatch {} =
        .ok [.type "Main" [("tags", .required (.named (.str "Tags")))]] u ∧
          ∀ e ∈ u.log, e.isFallback = false) ∧
      ∃ u, compileBatch taggedGraph { seeds := .pairs [(some 1, some "Tags")], strict := .bool true }
        taggedBatch {} = .error (.unregisteredReference "Main" "tags") u) ∧
    (∃ document u, compileBatch nestedGraph {} taggedBatch {} = .ok document u ∧
        ∀ e ∈ u.log, e.isFallback = false) ∧
      ∃ u, compileBatch nestedGraph { strict := .bool true } taggedBatch {} =
        .error (.structural (.fieldTooDeep "deep" "Main")) u := by
  refine ⟨⟨⟨_, rfl, by decide⟩, _, rfl⟩, ?_, ?_⟩
  · obtain ⟨document, u, h, hlog⟩ := Reading.exists_ok
      (x := compileBatch nestedGraph {} taggedBatch {})
      (p := fun _ u => u.log.all fun e => !e.isFallback) (by decide +kernel)
    exact ⟨document, u, h, by simpa using hlog⟩
  · obtain ⟨f, u, h, hf⟩ := Reading.exists_error
      (x := compileBatch nestedGraph { strict := .bool true } taggedBatch {})
      (p := fun f => f = .structural (.fieldTooDeep "deep" "Main")) (by decide +kernel)
    rw [of_decide_eq_true hf] at h
    exact ⟨u, h⟩

end ShapeSdl
