import ShapeSdl.Proofs.Agree
import ShapeSdl.Proofs.Document
import ShapeSdl.Resolver

/-!
# What resolving types leaves behind

Resolving a type leaves the lists that it has entered, and it never looks at the log.

* `Compiling.Steady` : how a computation ends depends on the lists that it is inside of only, and it
  leaves all others (`Context.fieldType_steady`, `Context.declare_steady`);
* `Walk.fallbacks` : the fallbacks that have been logged;
* `Context.Degrades cx r events` : the fallbacks that a field logs, one if its walk ends at an object
  without a name and none otherwise;
* `Context.mapM_declare_fallbacks` : a document logs those of the fields of its objects, in order;
* `Resolver.ask`, `Resolver.askAfresh` : the answers to questions asked one after the other, of one
  resolver and of a new one each time. They are the same (`Resolver.ask_eq_askAfresh`).
-/

namespace ShapeSdl

open Fault (bind_eq_ok pure_eq_ok)

/-! ## The lists that are entered -/

/-- The end depends on the lists that are being walked through only, and no other one is left
entered. -/
def Compiling.Steady {α : Type} (x : Compiling α) : Prop := Compiling.Agree Eq x x

theorem Compiling.Steady.active_eq {α : Type} {x : Compiling α} (h : Steady x) {w w' : Walk} {a : α}
    (hx : x w = .ok a w') : w'.active = w.active := by
  have hend := h w w (List.forall₂_same.2 fun _ _ => rfl)
  rw [hx] at hend
  cases hend with
  | ok left => exact left

theorem Compiling.Steady.mapM {α β : Type} {k : α → Compiling β} (hk : ∀ a, Steady (k a))
    (l : List α) : Steady (l.mapM k) := by
  refine Agree.mapM (List.forall₂_same.2 fun _ _ => rfl) ?_
  rintro a _ rfl
  exact hk a

namespace Context

variable (cx : Context)

theorem baseTypeWithin_steady : ∀ (room : Nat) (r : Ref),
    Compiling.Steady (cx.baseTypeWithin room r) := by
  intro room r
  cases hl : cx.openList? r with
  | none => exact agree_of_end hl hl rfl
  | some p =>
    obtain ⟨path, element⟩ := p
    refine agree_of_list hl hl rfl Iff.rfl (fun hw => ?_) ?_
    · rw [List.forall₂_eq_eq_eq] at hw
      rw [hw]
    · rintro rest rfl
      refine (Compiling.Agree.lift _).bind fun _ => ?_
      exact (baseTypeWithin_steady rest _).bind fun _ => .pure _

theorem fieldType_steady (r : Ref) : Compiling.Steady (cx.fieldType r) :=
  (Compiling.Agree.lift _).bind fun _ => (cx.baseTypeWithin_steady maxDepth _).bind fun _ => .pure _

theorem declareFields_steady (name : String) (fields : List (String × Ref)) :
    Compiling.Steady (cx.declareFields name fields) := by
  refine Compiling.Steady.mapM (fun field => ?_) fields
  exact (Compiling.Agree.mapFault _ (cx.fieldType_steady _)).bind fun _ => .pure _

theorem declare_steady (name : String) (r : Ref) : Compiling.Steady (cx.declare name r) := by
  unfold declare
  cases cx.graph.shape? r with
  | none => exact .throw _
  | some shape =>
    cases shape with
    | object fields => exact (cx.declareFields_steady name _).bind fun _ => .pure _
    | enumeration => exact .pure _
    | union variants =>
      dsimp only
      split
      · exact .throw_bind _ _ _
      · exact (Compiling.Agree.lift _).bind fun _ => .pure _
    | _ => exact .throw _

end Context

/-! ## The fallbacks that are logged -/

def Walk.fallbacks (w : Walk) : List Event := w.log.filter Event.isFallback

theorem Walk.fallbacks_emit {e : Event} {w w' : Walk} (h : Compiling.emit e w = .ok () w') :
    w'.fallbacks = w.fallbacks ++ [e].filter Event.isFallback := by
  cases h
  exact List.filter_append ..

theorem Walk.fallbacks_emit_of_not {e : Event} {w w' : Walk} (he : e.isFallback = false)
    (h : Compiling.emit e w = .ok () w') : w'.fallbacks = w.fallbacks := by
  rw [fallbacks_emit h, List.filter_cons_of_neg (by rw [he]; nofun), List.filter_nil,
    List.append_nil]

theorem Walk.logs_iff {w w' : Walk} {P : Event → Prop} (h : w.Logs P w') :
    w.Logs (fun e => e.isFallback = false) w' ↔ w'.fallbacks = w.fallbacks := by
  obtain ⟨events, hlog, -⟩ := h
  unfold fallbacks
  rw [hlog, List.filter_append, List.append_right_eq_self, List.filter_eq_nil_iff]
  constructor
  · rintro ⟨events', hlog', hall⟩ e he
    cases List.append_cancel_left (hlog.symm.trans hlog')
    rw [hall e he]
    nofun
  · intro hall
    exact ⟨events, hlog, fun e he => Bool.eq_false_iff.2 (hall e he)⟩

theorem Compiling.mapM_fallbacks {α β : Type} {f : α → Compiling β} {P : α → List Event → Prop}
    {l : List α} {bs : List β} {w w' : Walk}
    (hf : ∀ a ∈ l, ∀ b u u', f a u = .ok b u' →
      ∃ events, P a events ∧ u'.fallbacks = u.fallbacks ++ events)
    (h : l.mapM f w = .ok bs w') : ∃ eventss, List.Forall₂ P l eventss ∧
      w'.fallbacks = w.fallbacks ++ eventss.flatten := by
  induction l generalizing bs w with
  | nil =>
    cases h
    exact ⟨[], .nil, (List.append_nil _).symm⟩
  | cons a rest ih =>
    rw [List.mapM_cons, bind_eq_ok] at h
    obtain ⟨b, u, hb, h⟩ := h
    obtain ⟨bs', v, hrest, h⟩ := bind_eq_ok.1 h
    obtain ⟨-, rfl⟩ := pure_eq_ok.1 h
    obtain ⟨events, hp, hu⟩ := hf a List.mem_cons_self b _ _ hb
    obtain ⟨eventss, hps, hv⟩ := ih (fun a ha => hf a (List.mem_cons_of_mem _ ha)) hrest
    refine ⟨events :: eventss, .cons hp hps, ?_⟩
    rw [hv, hu, List.flatten_cons, List.append_assoc]

namespace Context

variable {cx : Context} {r : Ref} {t : TypeExpr} {w w' : Walk}

def Degrades (cx : Context) (r : Ref) (events : List Event) : Prop :=
  ∃ e, cx.graph.EndsAt cx.isNamed r e ∧ events = cx.fallbackAt e

theorem Degrades.step {next : Ref} {events : List Event} (h : cx.Degrades next events)
    (goes : cx.graph.next? cx.isNamed r = some next) : cx.Degrades r events := by
  obtain ⟨e, he, hevents⟩ := h
  exact ⟨e, .step goes he, hevents⟩

theorem Degrades.unwraps {inner : Ref} {nullable : Bool} {events : List Event}
    (h : cx.Degrades inner events) (hu : cx.graph.Unwraps r inner nullable) :
    cx.Degrades r events := by
  obtain ⟨e, he, hevents⟩ := h
  exact ⟨e, hu.endsAt he, hevents⟩

/-- Of what is logged at the end of a walk, the fallback alone counts. -/
theorem filter_logged (cx : Context) (r : Ref) :
    (cx.warningsAt r ++ cx.fallbackAt r).filter Event.isFallback = cx.fallbackAt r := by
  rw [List.filter_append, List.filter_eq_nil_iff.2, List.nil_append, List.filter_eq_self]
  · exact fun e he => (of_mem_fallbackAt he).1
  · intro e he
    rw [Event.isFallback_of_level (level_of_mem_warningsAt he)]
    nofun

/-- Resolving a node without wrappers logs the fallbacks of the end of its walk. -/
theorem baseTypeWithin_fallbacks (cx : Context) : ∀ {room : Nat} {r : Ref} {t : TypeExpr}
    {w w' : Walk}, cx.graph.isWrapper r = false → cx.baseTypeWithin room r w = .ok t w' →
      ∃ events, cx.Degrades r events ∧ w'.fallbacks = w.fallbacks ++ events := by
  intro room r t w w' hr h
  cases hl : cx.openList? r with
  | none =>
    obtain ⟨name, -, -, rfl⟩ := (baseTypeWithin_end_eq_ok_iff hl).1 h
    refine ⟨_, ⟨r, .here (next?_of_openList?_eq_none hr hl), rfl⟩, ?_⟩
    rw [Walk.fallbacks, List.filter_append, filter_logged]
    rfl
  | some p =>
    obtain ⟨path, element⟩ := p
    obtain ⟨-, -, rest, inner, nullable, typed, v, rfl, hu, ht, -, rfl⟩ :=
      (baseTypeWithin_list_eq_ok_iff hl).1 h
    have hin := Graph.unwraps_of_unwrap hu
    obtain ⟨events, hd, hlog⟩ := baseTypeWithin_fallbacks cx hin.isWrapper ht
    exact ⟨events, (hd.unwraps hin).step (next?_of_openList? hl), hlog⟩

theorem fieldType_fallbacks (h : cx.fieldType r w = .ok t w') :
    ∃ events, cx.Degrades r events ∧ w'.fallbacks = w.fallbacks ++ events := by
  obtain ⟨⟨inner, nullable⟩, u, hlift, h⟩ := bind_eq_ok.1 h
  obtain ⟨hu, rfl⟩ := Compiling.lift_eq_ok.1 hlift
  obtain ⟨t', v, ht, h⟩ := bind_eq_ok.1 h
  obtain ⟨-, rfl⟩ := pure_eq_ok.1 h
  have hin := Graph.unwraps_of_unwrap hu
  obtain ⟨events, hd, hlog⟩ := baseTypeWithin_fallbacks cx hin.isWrapper ht
  exact ⟨events, hd.unwraps hin, hlog⟩

def FieldsDegrade (cx : Context) (fields : List (String × Ref)) (eventss : List (List Event)) :
    Prop := List.Forall₂ (fun field => cx.Degrades field.2) fields eventss

theorem declareFields_fallbacks {name : String} {fields : List (String × Ref)}
    {typed : List (String × TypeExpr)} (h : cx.declareFields name fields w = .ok typed w') :
    ∃ eventss, cx.FieldsDegrade fields eventss ∧
      w'.fallbacks = w.fallbacks ++ eventss.flatten := by
  refine Compiling.mapM_fallbacks (fun field _ b u u' hb => ?_) h
  obtain ⟨t, v, ht, hpure⟩ := bind_eq_ok.1 hb
  obtain ⟨-, rfl⟩ := pure_eq_ok.1 hpure
  exact fieldType_fallbacks (Compiling.mapFault_eq_ok.1 ht)

/-- A declaration logs the fallbacks of the fields of its object. -/
theorem declare_fallbacks {name : String} {d : Declaration} (h : cx.declare name r w = .ok d w') :
    ∃ eventss, cx.FieldsDegrade (cx.graph.fields r).toList eventss ∧
      w'.fallbacks = w.fallbacks ++ eventss.flatten := by
  have hnone : w'.fallbacks = w.fallbacks → ∃ eventss, cx.FieldsDegrade [] eventss ∧
      w'.fallbacks = w.fallbacks ++ eventss.flatten := by
    intro hlog
    exact ⟨[], .nil, by rw [hlog, List.flatten_nil, List.append_nil]⟩
  unfold declare at h
  unfold Graph.fields
  cases hs : cx.graph.shape? r with
  | none => rw [hs] at h; cases h
  | some shape =>
    rw [hs] at h
    cases shape with
    | object fields =>
      obtain ⟨typed, u, htyped, hpure⟩ := bind_eq_ok.1 h
      obtain ⟨-, rfl⟩ := pure_eq_ok.1 hpure
      exact declareFields_fallbacks htyped
    | enumeration values =>
      obtain ⟨-, rfl⟩ := pure_eq_ok.1 h
      exact hnone rfl
    | union variants =>
      dsimp only at h
      split at h
      · cases h
      · obtain ⟨members, u, hlift, hpure⟩ := bind_eq_ok.1 h
        obtain ⟨-, rfl⟩ := Compiling.lift_eq_ok.1 hlift
        obtain ⟨-, rfl⟩ := pure_eq_ok.1 hpure
        exact hnone rfl
    | _ => cases h

end Context

/-- The fields of the objects of a batch, in the order in which they are declared. -/
def Graph.batchFields (g : Graph) (batch : Batch) : List (String × Ref) :=
  batch.toList.flatMap fun entry => (g.fields entry.2).toList

theorem forall₂_flatMap {α β γ : Type} {P : β → List γ → Prop} {f : α → List β} {l : List α}
    {eventss : List (List γ)}
    (h : List.Forall₂ (fun a events => ∃ own, List.Forall₂ P (f a) own ∧ events = own.flatten) l
      eventss) : ∃ all, List.Forall₂ P (l.flatMap f) all ∧ all.flatten = eventss.flatten := by
  induction h with
  | nil => exact ⟨[], .nil, rfl⟩
  | cons hfirst _ ih =>
    obtain ⟨own, hown, rfl⟩ := hfirst
    obtain ⟨all, hall, hflat⟩ := ih
    refine ⟨own ++ all, List.rel_append hown hall, ?_⟩
    rw [List.flatten_append, List.flatten_cons, hflat]

theorem Context.mapM_declare_fallbacks {cx : Context} {batch : Batch} {document : Document}
    {w w' : Walk}
    (h : (batch.toList.mapM fun entry => cx.declare entry.1 entry.2) w = .ok document w') :
    ∃ eventss, cx.FieldsDegrade (cx.graph.batchFields batch) eventss ∧
      w'.fallbacks = w.fallbacks ++ eventss.flatten := by
  have hentry : ∀ entry ∈ batch.toList, ∀ d u u', cx.declare entry.1 entry.2 u = .ok d u' →
      ∃ events, (∃ own, cx.FieldsDegrade (cx.graph.fields entry.2).toList own ∧
        events = own.flatten) ∧ u'.fallbacks = u.fallbacks ++ events := by
    intro entry _ d u u' hd
    obtain ⟨own, hown, hlog⟩ := declare_fallbacks hd
    exact ⟨_, ⟨own, hown, rfl⟩, hlog⟩
  obtain ⟨eventss, hall, hlog⟩ := Compiling.mapM_fallbacks hentry h
  obtain ⟨all, hall, hflat⟩ := forall₂_flatMap hall
  exact ⟨all, hall, by rw [hlog, hflat]⟩

/-! ## Questions asked one after the other -/

namespace Resolver

/-- The answers to questions asked one after the other, each with the resolver after it. -/
def ask (s : Resolver) : List Question → List (Except Fault Answer × Resolver)
  | [] => []
  | q :: rest => s.step q :: ask (s.step q).2 rest

/-- The answers to the same questions if a new resolver is asked every time. -/
def askAfresh (cx : Context) : List Question → List (Except Fault Answer)
  | [] => []
  | q :: rest => (Resolver.step ⟨cx, {}⟩ q).1 :: askAfresh (tell cx q) rest

theorem answer_steady (cx : Context) (q : Question) : Compiling.Steady (answer cx q) := by
  cases q with
  | field r => exact (cx.fieldType_steady r).bind fun _ => .pure _
  | base r => exact (cx.baseTypeWithin_steady maxDepth r).bind fun _ => .pure _
  | unwrap r => exact (Compiling.Agree.lift _).bind fun _ => .pure _
  | classify r => exact (Compiling.Agree.lift _).bind fun _ => .pure _
  | declare name r => exact (cx.declare_steady name r).bind fun _ => .pure _
  | register | setScalars => exact .pure _

/-- Outside of all lists, a question is answered as by a new resolver and leaves no list entered,
however it is answered. -/
theorem step_eq_fresh {s : Resolver} (hs : s.walk.active = []) (q : Question) :
    (s.step q).1 = (Resolver.step ⟨s.cx, {}⟩ q).1 ∧ (s.step q).2.cx = tell s.cx q ∧
      (s.step q).2.walk.active = [] := by
  have hsame := answer_steady s.cx q s.walk {} (by rw [hs]; exact .nil)
  unfold step
  generalize answer s.cx q s.walk = x at hsame ⊢
  dsimp only
  generalize answer s.cx q {} = y at hsame ⊢
  cases hsame with
  | ok left => exact ⟨rfl, rfl, left.trans hs⟩
  | error left => exact ⟨rfl, rfl, left.trans hs⟩

/-- A resolver has no memory: after each question it is outside of all lists, and each is answered as
by a new resolver that knows the names as they are by then. -/
theorem ask_eq_askAfresh (cx : Context) (questions : List Question) :
    (∀ answered ∈ ask ⟨cx, {}⟩ questions, answered.2.walk.active = []) ∧
      (ask ⟨cx, {}⟩ questions).map Prod.fst = askAfresh cx questions := by
  -- The log grows, so the induction is over all resolvers that are outside of all lists.
  suffices h : ∀ s : Resolver, s.walk.active = [] →
      (∀ answered ∈ s.ask questions, answered.2.walk.active = []) ∧
        (s.ask questions).map Prod.fst = askAfresh s.cx questions from h ⟨cx, {}⟩ rfl
  intro s hs
  induction questions generalizing s with
  | nil => exact ⟨by simp [ask], rfl⟩
  | cons q rest ih =>
    obtain ⟨hanswer, hcx, hleft⟩ := step_eq_fresh hs q
    obtain ⟨hrest, hanswers⟩ := ih _ hleft
    rw [hcx] at hanswers
    refine ⟨List.forall_mem_cons.2 ⟨hleft, hrest⟩, ?_⟩
    rw [ask, askAfresh, List.map_cons, hanswer, hanswers]

end Resolver

end ShapeSdl
