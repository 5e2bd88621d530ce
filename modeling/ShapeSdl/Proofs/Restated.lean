import ShapeSdl.Proofs.Parallel

/-!
# Documents that say the same

* `Definitions.Related`, `Related.exists_lookup` : definitions under the same names whose bodies are related;
* `Json.exists_definitions` : the definitions of documents that differ in one of them;
* `Definitions.Restated` : every definition is there in other words;
* `Json.Restates` : two documents that say the same;
* `DocumentPosition.restates` : documents that differ in one place, if what stands there can stand in
  one place.
-/

namespace ShapeSdl

/-! ## Related definitions -/

abbrev Definitions.Related (V : Json → Json → Prop) (ds ds' : Definitions) : Prop :=
  List.Forall₂ (fun p q => p.1 = q.1 ∧ V p.2 q.2) ds ds'

section
variable {V : Json → Json → Prop} {ds ds' : Definitions} {name : String} {body : Json}

theorem Definitions.Related.names_eq (h : ds.Related V ds') : ds.map Prod.fst = ds'.map Prod.fst :=
  List.forall₂_eq_eq_eq ▸ List.forall₂_map_left_iff.2 (List.forall₂_map_right_iff.2
    (h.imp fun _ _ h => h.1))

theorem Definitions.Related.exists_lookup (h : ds.Related V ds') (hb : ds.lookup name = some body) :
    ∃ body', ds'.lookup name = some body' ∧ V body body' := by
  induction h with
  | nil => cases hb
  | @cons p q _ _ hfirst _ ih =>
    obtain ⟨k, b⟩ := p
    obtain ⟨k', b'⟩ := q
    obtain ⟨hkey, hsame⟩ := hfirst
    change k = k' at hkey
    subst hkey
    rw [Entries.lookup_cons_ite] at hb ⊢
    by_cases hk : name = k
    · rw [if_pos hk] at hb
      rw [if_pos hk]
      cases hb
      exact ⟨b', rfl, hsame⟩
    · rw [if_neg hk] at hb
      rw [if_neg hk]
      exact ih hb

end

namespace Json

variable {exchange : Exchange} {schema schema' v w : Json} {ds ds' : Definitions}

theorem isTruthy_container (before after : List (String × Json)) (e : String × Json) :
    (obj (before ++ e :: after)).isTruthy = true := by
  cases before <;> rfl

theorem definitionContainer_congr
    (h : ∀ key ∈ Reference.containers, schema.get? key = schema'.get? key) :
    schema.definitionContainer = schema'.definitionContainer := by
  unfold definitionContainer
  rw [h "$defs" (by decide), h "definitions" (by decide)]

/-- Of documents that differ in one container of definitions, the definitions are taken from that one
or from the same. -/
theorem definitionContainer_cases (before after : List (String × Json)) (key : String)
    (hv : v.isTruthy = true) (hw : w.isTruthy = true) :
    (obj (before ++ (key, v) :: after)).definitionContainer =
      (obj (before ++ (key, w) :: after)).definitionContainer ∨
    (obj (before ++ (key, v) :: after)).definitionContainer = v ∧
      (obj (before ++ (key, w) :: after)).definitionContainer = w := by
  have hget : ∀ other, (obj (before ++ (key, v) :: after)).get? other =
      (obj (before ++ (key, w) :: after)).get? other ∨
        (obj (before ++ (key, v) :: after)).get? other = some v ∧
          (obj (before ++ (key, w) :: after)).get? other = some w := by
    intro other
    have hdiffer := differAt before after key v w
    by_cases hother : other = key
    · rw [hother]
      exact hdiffer.cases.imp_left fun hsame => hsame key
    · exact .inl (hdiffer.others other hother)
  unfold definitionContainer
  dsimp only
  rcases hget "$defs" with hdefs | ⟨hdefs, hdefs'⟩
  · rw [hdefs]
    split
    · exact .inl rfl
    · rcases hget "definitions" with hothers | ⟨hothers, hothers'⟩
      · rw [hothers]
        exact .inl rfl
      · rw [hothers, hothers', Option.getD_some, Option.getD_some, if_pos hv, if_pos hw]
        exact .inr ⟨rfl, rfl⟩
  · rw [hdefs, hdefs', Option.getD_some, Option.getD_some, if_pos hv, if_pos hw]
    exact .inr ⟨rfl, rfl⟩

theorem definitions_eq_ok_iff {es : List (String × Json)} : (obj es).definitions = .ok ds ↔
    ∃ container, (obj es).definitionContainer = .obj container ∧
      ds = container.filter fun d => !isComment d := by
  unfold Json.definitions
  show (do
    let container ← (obj es).definitionContainer.entries
    return container.filter fun d => !isComment d : Except Fault Definitions) = .ok ds ↔ _
  cases (obj es).definitionContainer with
  | obj container =>
    constructor
    · rintro ⟨⟩
      exact ⟨container, rfl, rfl⟩
    · rintro ⟨_, ⟨⟩, rfl⟩
      rfl
  | _ => exact ⟨nofun, nofun⟩

theorem definitions_congr {es es' : List (String × Json)}
    (h : ∀ key ∈ Reference.containers, (obj es).get? key = (obj es').get? key)
    (hd : (obj es).definitions = .ok ds) : (obj es').definitions = .ok ds := by
  rw [definitions_eq_ok_iff] at hd ⊢
  rwa [← definitionContainer_congr h]

theorem exists_definitions {V : Json → Json → Prop} (hself : ∀ u, V u u)
    (before after container container' : List (String × Json)) (key name : String)
    {es es' : List (String × Json)} (hvw : V (obj es) (obj es'))
    (hd : (obj (before ++ (key, obj (container ++ (name, obj es) :: container')) ::
      after)).definitions = .ok ds) :
    ∃ ds', (obj (before ++ (key, obj (container ++ (name, obj es') :: container')) ::
      after)).definitions = .ok ds' ∧ ds.Related V ds' := by
  obtain ⟨whole, hwhole, rfl⟩ := definitions_eq_ok_iff.1 hd
  rcases definitionContainer_cases before after key
    (isTruthy_container container container' (name, obj es))
    (isTruthy_container container container' (name, obj es')) with hsame | ⟨hleft, hright⟩
  · exact ⟨_, definitions_eq_ok_iff.2 ⟨whole, hsame ▸ hwhole, rfl⟩,
      List.forall₂_same.2 fun d _ => ⟨rfl, hself d.2⟩⟩
  · cases hwhole.symm.trans hleft
    refine ⟨_, definitions_eq_ok_iff.2 ⟨_, hright, rfl⟩, ?_⟩
    -- What is a comment and what is none is left in its place.
    let same := fun p q : String × Json => (p.1 = q.1 ∧ V p.2 q.2) ∧ isComment p = isComment q
    have hall : ∀ l, List.Forall₂ same l l := fun l =>
      List.forall₂_same.2 fun d _ => ⟨⟨rfl, hself d.2⟩, rfl⟩
    have hplace : same (name, obj es) (name, obj es') := ⟨⟨rfl, hvw⟩, rfl⟩
    have hfilter := List.rel_filter (p := fun d => !isComment d) (q := fun d => !isComment d)
      (fun p q h => by dsimp only; rw [h.2])
      (List.rel_append (hall container) (.cons hplace (hall container')))
    exact hfilter.imp fun _ _ h => h.1

end Json

/-! ## Definitions in other words -/

/-- Every definition is there in other words. -/
def Definitions.Restated (ds ds' : Definitions) (exchange : Exchange) : Prop :=
  ∀ name body, ds.lookup name = some body → ∃ body', ds'.lookup name = some body' ∧
    body.isPlainObject = body'.isPlainObject ∧ body.Matches ds exchange body'

structure Json.Restates (exchange : Exchange) (schema schema' : Json) (ds ds' : Definitions) :
    Prop where
  left : schema.definitions = .ok ds
  right : schema'.definitions = .ok ds'
  each : List.Forall₂ (fun p q => p.1 = q.1 ∧ p.2.isPlainObject = q.2.isPlainObject ∧
    p.2.Matches ds exchange q.2) ds ds'
  root : schema.Matches ds exchange schema'
  applies : (schema.get? "properties").isSome = (schema'.get? "properties").isSome

namespace Json

variable {exchange : Exchange} {schema schema' v w : Json} {ds ds' : Definitions}

theorem Restates.names_eq (H : Restates exchange schema schema' ds ds') :
    ds.map Prod.fst = ds'.map Prod.fst :=
  Definitions.Related.names_eq (V := fun v w => v.isPlainObject = w.isPlainObject ∧
    v.Matches ds exchange w) H.each

theorem Restates.restated (H : Restates exchange schema schema' ds ds') :
    ds.Restated ds' exchange := fun _ _ h =>
  Definitions.Related.exists_lookup (V := fun v w => v.isPlainObject = w.isPlainObject ∧
    v.Matches ds exchange w) H.each h

/-- Documents that differ in one place say the same, if what stands there can stand in one place. -/
theorem DocumentPosition.restates {F : Json → Json} (h : DocumentPosition F)
    (hd : (F v).definitions = .ok ds) (hvw : v.Interchangeable ds exchange w) :
    ∃ ds', Restates exchange (F v) (F w) ds ds' := by
  have hself : ∀ u : Json, u.isPlainObject = u.isPlainObject ∧ u.Matches ds exchange u :=
    fun u => ⟨rfl, matches_self ds exchange u⟩
  cases h with
  | root inside =>
    obtain ⟨es, es', hv, hw, hp⟩ := inside.parallel hvw
    have hget := fun key hkey => inside.get?_container key hkey v w
    rw [hv] at hd ⊢
    rw [hw]
    rw [hv, hw] at hget
    exact ⟨ds, hd, definitions_congr hget hd, List.forall₂_same.2 fun d _ => ⟨rfl, hself d.2⟩,
      hp.matches, isSome_eq (hp "properties")⟩
  | @definition G key before after container container' name mem inside =>
    obtain ⟨es, es', hv, hw, hp⟩ := inside.parallel hvw
    simp only [hv, hw] at hd ⊢
    have hroot : (obj (before ++ (key, obj (container ++ (name, obj es) :: container')) ::
        after)).Parallel ds exchange (obj (before ++ (key, obj (container ++ (name, obj es') ::
          container')) :: after)) := parallel_of_inside before after (.unread mem)
    obtain ⟨ds', hd', hall⟩ := exists_definitions (V := fun v w => v.isPlainObject = w.isPlainObject ∧
      v.Matches ds exchange w) hself before after container container' key name
        ⟨hp.isPlainObject_eq, hp.matches⟩ hd
    exact ⟨ds', hd, hd', hall, hroot.matches, isSome_eq (hroot "properties")⟩

end Json

end ShapeSdl
