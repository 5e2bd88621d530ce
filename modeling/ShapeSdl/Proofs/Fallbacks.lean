import ShapeSdl.Proofs.Refusals

/-!
# What a compilation reports

A field that comes to an object without a name is rendered under the name of any value, and that is
reported. Nothing else of the kind is.

* `Compiling.Tells P x` : all that `x` logs when it ends well is as `P` says;
* `Event.isOfType` : what may be logged while types are resolved (`Context.declare_tells`);
* `Walk.reports` : the events that report what a compilation does, warnings left out;
* `Context.FallsBackAt cx r path` : the walk of a field ends at an object without a name, which was
  read from `path`;
* `compileBatch_reports` : a compilation reports itself, and then one fallback for each such field,
  in the order of the declarations and of their fields.
-/

namespace ShapeSdl

open Fault (bind_eq_ok pure_eq_ok)

/-! ## What a computation logs -/

def Compiling.Tells (P : Event → Bool) {α : Type} (x : Compiling α) : Prop :=
  ∀ w a w', x w = .ok a w' → w.Logs (fun e => P e = true) w'

namespace Compiling.Tells

variable {P : Event → Bool} {α β : Type} {x : Compiling α}

theorem pure (a : α) : Tells P (pure a : Compiling α) := by
  rintro w _ _ ⟨⟩
  exact .refl _ w

theorem throw (f : Fault) : Tells P (throw f : Compiling α) := nofun

theorem lift (e : Except Fault α) : Tells P (liftM e : Compiling α) := by
  intro w a w' h
  obtain ⟨-, rfl⟩ := lift_eq_ok.1 h
  exact .refl _ w

theorem throw_bind (f : Fault) (k : α → Compiling β) :
    Tells P ((MonadExcept.throw f : Compiling α) >>= k) := nofun

theorem bind {k : α → Compiling β} (hx : Tells P x) (hk : ∀ a, Tells P (k a)) :
    Tells P (x >>= k) := by
  intro w b w' h
  obtain ⟨a, u, ha, hb⟩ := bind_eq_ok.1 h
  exact (hx w a u ha).trans (hk a u b w' hb)

theorem mapFault {f : Fault → Fault} (hx : Tells P x) : Tells P (Compiling.mapFault f x) :=
  fun w a w' h => hx w a w' (mapFault_eq_ok.1 h)

theorem mapM {f : α → Compiling β} (hf : ∀ a, Tells P (f a)) : ∀ l : List α, Tells P (l.mapM f)
  | [] => .pure []
  | a :: rest => by
    rw [List.mapM_cons]
    exact (hf a).bind fun b => (mapM hf rest).bind fun bs => .pure (b :: bs)

end Compiling.Tells

/-! ## Events of types -/

def Event.isOfType : Event → Bool
  | .fallback .. | .unsupportedLiteral .. | .unhandledShape .. => true
  | .single .. | .batch .. => false

namespace Context

variable (cx : Context)

theorem isOfType_of_logged {r : Ref} {e : Event} (h : e ∈ cx.warningsAt r ++ cx.fallbackAt r) :
    e.isOfType = true := by
  rcases List.mem_append.1 h with h | h
  · have hlevel := level_of_mem_warningsAt h
    cases e <;> first | rfl | cases hlevel
  · have hfallback := (of_mem_fallbackAt h).1
    cases e <;> first | rfl | cases hfallback

theorem baseTypeWithin_tells : ∀ (room : Nat) (r : Ref),
    Compiling.Tells Event.isOfType (cx.baseTypeWithin room r) := by
  intro room r w t w' h
  cases hl : cx.openList? r with
  | none =>
    obtain ⟨name, -, -, rfl⟩ := (baseTypeWithin_end_eq_ok_iff hl).1 h
    exact ⟨_, rfl, fun _ => cx.isOfType_of_logged⟩
  | some p =>
    obtain ⟨path, element⟩ := p
    obtain ⟨-, -, rest, inner, nullable, typed, v, rfl, -, ht, -, rfl⟩ :=
      (baseTypeWithin_list_eq_ok_iff hl).1 h
    exact baseTypeWithin_tells rest inner { w with active := r :: w.active } typed v ht

theorem fieldType_tells (r : Ref) :
    Compiling.Tells Event.isOfType (cx.fieldType r) :=
  (Compiling.Tells.lift _).bind fun _ =>
    (cx.baseTypeWithin_tells maxDepth _).bind fun _ => .pure _

theorem declare_tells (name : String) (r : Ref) :
    Compiling.Tells Event.isOfType (cx.declare name r) := by
  unfold declare
  cases cx.graph.shape? r with
  | none => exact .throw _
  | some shape =>
    cases shape with
    | object fields =>
      refine Compiling.Tells.bind (.mapM (fun field => ?_) fields.toList) fun _ => .pure _
      exact (cx.fieldType_tells _).mapFault.bind fun _ => .pure _
    | enumeration => exact .pure _
    | union variants =>
      dsimp only
      split
      · exact .throw_bind _ _
      · exact (Compiling.Tells.lift _).bind fun _ => .pure _
    | _ => exact .throw _

end Context

/-! ## Reports -/

def Walk.reports (w : Walk) : List Event := w.log.filter (·.level = .debug)

/-- While types are resolved nothing is reported but fallbacks. -/
theorem Walk.reports_eq {w w' : Walk} {fallbacks : List Event}
    (h : w.Logs (fun e => e.isOfType = true) w') (hf : w'.fallbacks = w.fallbacks ++ fallbacks) :
    w'.reports = w.reports ++ fallbacks := by
  obtain ⟨events, hlog, hall⟩ := h
  have hsame : events.filter (·.level = .debug) = events.filter Event.isFallback := by
    refine List.filter_congr fun e he => ?_
    have hof := hall e he
    cases e with
    | single | batch => cases hof
    | fallback | unsupportedLiteral | unhandledShape => rfl
  unfold Walk.fallbacks at hf
  rw [hlog, List.filter_append, List.append_cancel_left_eq] at hf
  rw [reports, reports, hlog, List.filter_append, hsame, hf]

namespace Context

variable {cx : Context} {r : Ref}

def FallsBackAt (cx : Context) (r : Ref) (path : String) : Prop :=
  ∃ e metadata fields, cx.graph.EndsAt cx.isNamed r e ∧ cx.registry.get? e = none ∧
    cx.graph.node? e = some ⟨path, metadata, .object fields⟩

/-- The event says that an object read from `path` is rendered under the name of any value. -/
def Reports (cx : Context) (path : String) (event : Event) : Prop :=
  ∃ name, cx.options.scalarName "json" = .ok name ∧ event = .fallback path name

theorem FallsBackAt.fallsBack {path : String} (h : cx.FallsBackAt r path) : cx.FallsBack r := by
  obtain ⟨e, metadata, fields, he, hnone, hn⟩ := h
  exact ⟨e, he, hnone, Graph.isObject_iff.2 ⟨fields, Graph.shape?_of_node? hn⟩⟩

theorem FallsBackAt.unique {path path' : String} (h : cx.FallsBackAt r path)
    (h' : cx.FallsBackAt r path') : path = path' := by
  obtain ⟨e, _, _, he, -, hn⟩ := h
  obtain ⟨e', _, _, he', -, hn'⟩ := h'
  cases he.unique he'
  cases hn.symm.trans hn'
  rfl

theorem fallbackAt_cases (cx : Context) (e : Ref) : cx.fallbackAt e = [] ∨
    ∃ path metadata fields event, cx.registry.get? e = none ∧
      cx.graph.node? e = some ⟨path, metadata, .object fields⟩ ∧
        cx.Reports path event ∧ cx.fallbackAt e = [event] := by
  unfold fallbackAt
  split
  · rename_i hnone hn hname
    exact .inr ⟨_, _, _, _, hnone, hn, ⟨_, hname, rfl⟩, rfl⟩
  · exact .inl rfl

/-- A field with a type logs a fallback exactly if it falls back, with the path of the object. -/
theorem Degrades.exists_path {t : TypeExpr} {events : List Event} (htype : cx.HasType r t)
    (h : cx.Degrades r events) : ∃ path? : Option String,
      (∀ path, path? = some path ↔ cx.FallsBackAt r path) ∧
        List.Forall₂ cx.Reports path?.toList events := by
  have hdegrades := h
  obtain ⟨e, he, rfl⟩ := h
  rcases cx.fallbackAt_cases e with
    hnil | ⟨path, metadata, fields, event, hnone, hn, hreports, hone⟩
  · rw [hnil] at hdegrades ⊢
    exact ⟨none, fun path => ⟨nofun, fun h => absurd h.fallsBack (not_fallsBack htype hdegrades)⟩,
      .nil⟩
  · have hfalls : cx.FallsBackAt r path := ⟨e, metadata, fields, he, hnone, hn⟩
    rw [hone]
    refine ⟨some path, fun path' => ⟨?_, fun h => congrArg some (hfalls.unique h)⟩,
      .cons hreports .nil⟩
    rintro ⟨⟩
    exact hfalls

theorem FieldsDegrade.exists_paths {fields : List (String × Ref)} {eventss : List (List Event)}
    (htypes : ∀ field ∈ fields, ∃ t, cx.HasType field.2 t) (h : cx.FieldsDegrade fields eventss) :
    ∃ paths : List (Option String),
      List.Forall₂ (fun field path? => ∀ path, path? = some path ↔ cx.FallsBackAt field.2 path)
        fields paths ∧ List.Forall₂ cx.Reports paths.reduceOption eventss.flatten := by
  induction h with
  | nil => exact ⟨[], .nil, .nil⟩
  | cons hfirst _ ih =>
    obtain ⟨⟨t, htype⟩, hrest⟩ := List.forall_mem_cons.1 htypes
    obtain ⟨path?, hpath, hevents⟩ := hfirst.exists_path htype
    obtain ⟨paths, hpaths, heventss⟩ := ih hrest
    refine ⟨path? :: paths, .cons hpath hpaths, ?_⟩
    have hreduce : (path? :: paths).reduceOption = path?.toList ++ paths.reduceOption := by
      cases path? <;> rfl
    rw [hreduce, List.flatten_cons]
    exact List.rel_append hevents heventss

end Context

/-- A compilation that ends well reports itself, and then, in the order of the declarations and of
their fields, one fallback for each field of an object whose walk ends at an object without a name,
with the path of that object. It reports nothing else. -/
theorem compileBatch_reports {g : Graph} {o : Options} {batch : Batch} {document : Document}
    {w w' : Walk} (h : compileBatch g o batch w = .ok document w') :
    ∃ registry paths fallbacks, o.batchRegistry batch = .ok registry ∧
      List.Forall₂ (fun field path? => ∀ path,
        path? = some path ↔ Context.FallsBackAt ⟨g, registry, o⟩ field.2 path)
        (g.batchFields batch) paths ∧
      List.Forall₂ (Context.Reports ⟨g, registry, o⟩) paths.reduceOption fallbacks ∧
      w'.reports = w.reports ++ .batch batch.size registry.size o.strict :: fallbacks := by
  obtain ⟨registry, hreg, -, hrun⟩ := compileBatch_eq_ok_iff.1 h
  obtain ⟨eventss, hall, hfallbacks⟩ := Context.mapM_declare_fallbacks hrun
  obtain ⟨paths, hpaths, hreports⟩ := hall.exists_paths (Context.exists_hasType_of_mapM hrun)
  refine ⟨registry, paths, eventss.flatten, hreg, hpaths, hreports, ?_⟩
  have htells := Compiling.Tells.mapM (fun entry : String × Ref =>
    Context.declare_tells ⟨g, registry, o⟩ entry.1 entry.2) batch.toList
  rw [Walk.reports_eq (htells _ _ _ hrun) hfallbacks, Walk.reports, List.filter_append,
    List.append_assoc]
  rfl

/-- A shed with tools, a label, an owner that may be null, and a shed beside it. -/
def shedGraph : Graph := ⟨#[
  ⟨"#/shed", [], .object (.ofList
    [("tools", some 1), ("label", some 3), ("owner", some 4), ("beside", some 0)])⟩,
  ⟨"#/shed/tools", [], .array 2⟩,
  ⟨"#/shed/tools/items", [], .object ∅⟩,
  ⟨"#/shed/label", [], .string⟩,
  ⟨"#/shed/owner", [], .nullable 5⟩,
  ⟨"#/shed/owner", [], .object ∅⟩]⟩

/-- Of the fields of the shed, the tools and the owner fall back. -/
theorem compileBatch_reports_shed : ∃ registry paths,
    Options.batchRegistry {} (.ofList [("Shed", some 0)]) = .ok registry ∧
    List.Forall₂ (fun field path? => ∀ path,
      path? = some path ↔ Context.FallsBackAt ⟨shedGraph, registry, {}⟩ field.2 path)
      [("tools", some 1), ("label", some 3), ("owner", some 4), ("beside", some 0)] paths ∧
    paths.reduceOption = ["#/shed/tools/items", "#/shed/owner"] := by
  obtain ⟨document, u, h, hlog⟩ := Reading.exists_ok
    (x := compileBatch shedGraph {} (.ofList [("Shed", some 0)]) {})
    (p := fun _ u => u.reports = [.batch 1 1 (.bool false),
      .fallback "#/shed/tools/items" (.str "JSON"), .fallback "#/shed/owner" (.str "JSON")])
    (by decide +kernel)
  obtain ⟨registry, paths, fallbacks, hreg, hpaths, hreports, hall⟩ := compileBatch_reports h
  refine ⟨registry, paths, hreg, hpaths, ?_⟩
  rw [of_decide_eq_true hlog] at hall
  obtain rfl := List.tail_eq_of_cons_eq hall
  generalize paths.reduceOption = found at hreports
  obtain _ | ⟨⟨_, -, hfirst⟩, _ | ⟨⟨_, -, hsecond⟩, ⟨⟩⟩⟩ := hreports
  cases hfirst
  cases hsecond
  rfl

end ShapeSdl
