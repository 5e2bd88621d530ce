import ShapeSdl.Proofs.Outline
import ShapeSdl.Schema.Document

/-!
# The container of definitions

* `Json.withDefinitions` : a document with other entries in the container of its definitions;
* `Json.outline_withDefinitions` : its root is read as before;
* `Json.definitions_withDefinitions` : its definitions are those entries.
-/

namespace ShapeSdl.Json

def containerKey (schema : Json) : String :=
  if ((schema.get? "$defs").getD .null).isTruthy then "$defs" else "definitions"

/-- The document with other entries in the container of its definitions. -/
def withDefinitions (schema : Json) (container : List (String × Json)) : Json :=
  match schema with
  | obj entries => obj (entries.map fun e =>
      if e.1 = schema.containerKey then (e.1, obj container) else e)
  | other => other

theorem containerKey_eq (schema : Json) :
    schema.containerKey = "$defs" ∨ schema.containerKey = "definitions" := by
  unfold containerKey
  split
  · exact .inl rfl
  · exact .inr rfl

theorem lookup_map_replace (key : String) (v : Json) (entries : List (String × Json)) (k : String) :
    (entries.map fun e => if e.1 = key then (e.1, v) else e).lookup k =
      if k = key then (entries.lookup k).map fun _ => v else entries.lookup k := by
  induction entries with
  | nil => simp
  | cons e rest ih =>
    obtain ⟨k', v'⟩ := e
    rw [List.map_cons, Entries.lookup_cons_ite]
    by_cases hkey : k' = key
    · subst hkey
      rw [if_pos rfl, Entries.lookup_cons_ite, ih]
      split <;> rfl
    · rw [if_neg hkey, Entries.lookup_cons_ite, ih]
      by_cases hk : k = k'
      · subst hk
        rw [if_pos rfl, if_pos rfl, if_neg hkey]
      · rw [if_neg hk, if_neg hk]

section
variable {schema : Json} {container container' : List (String × Json)}

theorem get?_withDefinitions (k : String) : (schema.withDefinitions container).get? k =
    if k = schema.containerKey then (schema.get? k).map fun _ => .obj container
    else schema.get? k := by
  cases schema with
  | obj entries => exact lookup_map_replace _ _ entries k
  | _ => split <;> rfl

theorem get?_withDefinitions_of_ne {k : String} (hd : k ≠ "$defs") (hk : k ≠ "definitions") :
    (schema.withDefinitions container).get? k = schema.get? k := by
  rw [get?_withDefinitions, if_neg]
  rcases schema.containerKey_eq with h | h <;> rw [h] <;> assumption

theorem form_withDefinitions : (schema.withDefinitions container).form = schema.form := by
  unfold form
  simp (disch := decide) only [get?_withDefinitions_of_ne]

theorem metadata_map_replace {key : String} (hkey : Text.startsWith "x-" key = false) (v : Json)
    (entries : List (String × Json)) :
    metadata (entries.map fun e => if e.1 = key then (e.1, v) else e) = metadata entries := by
  unfold metadata
  induction entries with
  | nil => rfl
  | cons e rest ih =>
    rw [List.map_cons, List.filter_cons, List.filter_cons, ih]
    by_cases h : e.1 = key
    · rw [if_pos h, h, hkey]
      rfl
    · rw [if_neg h]

theorem fieldsOutline_withDefinitions (path : String) :
    (schema.withDefinitions container).fieldsOutline path = schema.fieldsOutline path := by
  rw [fieldsOutline_eq, fieldsOutline_eq, get?_withDefinitions_of_ne (by decide) (by decide),
    get?_withDefinitions_of_ne (by decide) (by decide)]

theorem kindOutlines_withDefinitions (entries : List (String × Json)) :
    (schema.withDefinitions container).kindOutlines entries = schema.kindOutlines entries := by
  unfold kindOutlines
  rw [get?_withDefinitions_of_ne (by decide) (by decide),
    get?_withDefinitions_of_ne (by decide) (by decide)]
  simp only [fieldsOutline_withDefinitions]

theorem outline_withDefinitions (path : String) :
    (schema.withDefinitions container).outline path = schema.outline path := by
  cases schema with
  | obj entries =>
    have hx : Text.startsWith "x-" (obj entries).containerKey = false := by
      rcases (obj entries).containerKey_eq with h | h <;> rw [h] <;> rfl
    have he : ((obj entries).withDefinitions container).entries = .ok (entries.map fun e =>
        if e.1 = (obj entries).containerKey then (e.1, obj container) else e) := rfl
    rw [outline_eq he, outline_eq rfl, form_withDefinitions, metadata_map_replace hx,
      kindOutlines_withDefinitions, fieldsOutline_withDefinitions]
  | _ => rfl

theorem getD_withDefinitions (container' : List (String × Json))
    (hc : (schema.get? schema.containerKey).getD .null = obj container) :
    ((schema.withDefinitions container').get? schema.containerKey).getD .null = obj container' := by
  rw [get?_withDefinitions, if_pos rfl]
  cases h : schema.get? schema.containerKey with
  | none => rw [h] at hc; cases hc
  | some v => rfl

theorem definitionContainer_withDefinitions (hc : schema.definitionContainer = .obj container)
    (hempty : container'.isEmpty = container.isEmpty) :
    (schema.withDefinitions container').definitionContainer = .obj container' := by
  have htruthy : (obj container').isTruthy = (obj container).isTruthy := by
    rw [isTruthy, isTruthy, hempty]
  unfold definitionContainer at hc ⊢
  dsimp only at hc ⊢
  by_cases ht : ((schema.get? "$defs").getD .null).isTruthy = true
  · have hkey : schema.containerKey = "$defs" := if_pos ht
    rw [if_pos ht] at hc
    have hget := getD_withDefinitions container' (hkey ▸ hc)
    rw [hkey] at hget
    rw [hc] at ht
    rw [hget, if_pos (htruthy.trans ht)]
  · have hkey : schema.containerKey = "definitions" := if_neg ht
    have hdefs : (schema.withDefinitions container').get? "$defs" = schema.get? "$defs" := by
      rw [get?_withDefinitions, if_neg (by rw [hkey]; decide)]
    rw [if_neg ht] at hc
    rw [hdefs, if_neg ht]
    by_cases ho : ((schema.get? "definitions").getD .null).isTruthy = true
    · rw [if_pos ho] at hc
      have hget := getD_withDefinitions container' (hkey ▸ hc)
      rw [hkey] at hget
      rw [hc] at ho
      rw [hget, if_pos (htruthy.trans ho)]
    · rw [if_neg ho] at hc
      cases hc
      cases List.isEmpty_iff.1 hempty
      rw [get?_withDefinitions, if_pos hkey.symm]
      cases schema.get? "definitions" <;> rfl

theorem definitions_withDefinitions {definitions : Definitions}
    (hd : schema.definitions = .ok definitions) (hc : schema.definitionContainer = .obj container)
    (hempty : container'.isEmpty = container.isEmpty) :
    definitions = container.filter (fun d => !isComment d) ∧
      (schema.withDefinitions container').definitions =
        .ok (container'.filter fun d => !isComment d) := by
  cases schema with
  | obj entries =>
    have hc' := definitionContainer_withDefinitions hc hempty
    unfold Json.definitions at hd ⊢
    rw [hc] at hd
    rw [hc']
    cases hd
    exact ⟨rfl, rfl⟩
  | _ => cases hd

end

end ShapeSdl.Json
