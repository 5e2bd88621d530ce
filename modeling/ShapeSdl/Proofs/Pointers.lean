import ShapeSdl.Schema.Document
import ShapeSdl.Proofs.Batches
import ShapeSdl.Proofs.Container
import Mathlib.Data.List.Forall2
import Mathlib.Data.List.Nodup

/-!
# References as pointers

A reference within a document is a pointer: a fragment of reference tokens, each of which leads from
a value to a part of it. Reading looks at one token only and takes it for the name of a definition.

* `Pointer.tokens?` : the tokens of a pointer, escapes read;
* `Json.at?` : the part of a value that tokens lead to;
* `Json.at?_definition` : where the body of a definition is;
* `Pointer.tokens?_definitionName` : a reference is the pointer to the definition it is taken for
  exactly if it is written plainly;
* `follow_reference` : what becomes of a reference;
* `deepReference_misread` : a pointer into a definition is taken for another one.
-/

namespace ShapeSdl

/-! ## Pointers -/

namespace Pointer

/-- The characters of a token without escapes, `~0` for a tilde and `~1` for a slash. -/
def unescapeChars : List Char → Option (List Char)
  | [] => some []
  | c :: rest =>
    if c = '~' then match rest with
      | '0' :: rest => (unescapeChars rest).map ('~' :: ·)
      | '1' :: rest => (unescapeChars rest).map ('/' :: ·)
      | _ => none
    else (unescapeChars rest).map (c :: ·)

def unescape? (token : String) : Option String := (unescapeChars token.toList).map String.ofList

/-- The reference tokens of a pointer, which is written as a fragment. -/
def tokens? (text : String) : Option (List String) :=
  match Text.split '/' text with
  | "#" :: tokens => tokens.mapM unescape?
  | _ => none

end Pointer

namespace Json

/-- The part of a value under a token: an entry by its key, an item by its place. -/
def child? (token : String) : Json → Option Json
  | obj entries => entries.lookup token
  | arr items => (token.toNat?.filter fun n => toString n = token).bind (items[·]?)
  | _ => none

/-- The part of a value that tokens lead to. -/
def at? (v : Json) : List String → Option Json
  | [] => some v
  | token :: rest => (v.child? token).bind fun part => part.at? rest

end Json

theorem mapM_eq_some_iff {α β : Type} {f : α → Option β} {l : List α} {bs : List β} :
    l.mapM f = some bs ↔ List.Forall₂ (fun a b => f a = some b) l bs := by
  induction l generalizing bs with
  | nil =>
    rw [List.mapM_nil, List.forall₂_nil_left_iff]
    exact Option.some_inj.trans eq_comm
  | cons a rest ih =>
    rw [List.mapM_cons, List.forall₂_cons_left_iff]
    simp only [Option.bind_eq_bind, Option.bind_eq_some_iff, ih]
    constructor
    · rintro ⟨b, hb, bs', hrest, ⟨⟩⟩
      exact ⟨b, bs', hb, hrest, rfl⟩
    · rintro ⟨b, bs', hb, hrest, rfl⟩
      exact ⟨b, hb, bs', hrest, rfl⟩

/-! ## Plain tokens -/

namespace Pointer

theorem length_le_of_eq_or_lt {s u : List Char} {p q : Prop}
    (h : s = u ∧ p ∨ u.length < s.length ∧ q) : u.length ≤ s.length := by
  rcases h with ⟨rfl, -⟩ | ⟨hlt, -⟩
  · exact Nat.le_refl _
  · exact Nat.le_of_lt hlt

/-- A token has no tilde and means itself, or it is longer than what it means, and that has a
character that had to be escaped. -/
theorem unescapeChars_eq_some {s u : List Char} (h : unescapeChars s = some u) :
    s = u ∧ '~' ∉ s ∨ u.length < s.length ∧ ('~' ∈ u ∨ '/' ∈ u) := by
  fun_induction unescapeChars s generalizing u with
  | case1 =>
    cases h
    exact .inl ⟨rfl, List.not_mem_nil⟩
  | case2 rest ih =>
    obtain ⟨u', hu', rfl⟩ := Option.map_eq_some_iff.1 h
    have hle := length_le_of_eq_or_lt (ih hu')
    refine .inr ⟨?_, .inl List.mem_cons_self⟩
    simp only [List.length_cons]
    omega
  | case3 rest ih =>
    obtain ⟨u', hu', rfl⟩ := Option.map_eq_some_iff.1 h
    have hle := length_le_of_eq_or_lt (ih hu')
    refine .inr ⟨?_, .inr List.mem_cons_self⟩
    simp only [List.length_cons]
    omega
  | case4 => cases h
  | case5 c rest hc ih =>
    obtain ⟨u', hu', rfl⟩ := Option.map_eq_some_iff.1 h
    rcases ih hu' with ⟨rfl, hrest⟩ | ⟨hlt, hmem⟩
    · exact .inl ⟨rfl, List.not_mem_cons_of_ne_of_not_mem (Ne.symm hc) hrest⟩
    · refine .inr ⟨Nat.succ_lt_succ hlt, ?_⟩
      exact hmem.imp (List.mem_cons_of_mem _) (List.mem_cons_of_mem _)

theorem unescapeChars_of_notMem {s : List Char} (h : '~' ∉ s) : unescapeChars s = some s := by
  induction s with
  | nil => rfl
  | cons c rest ih =>
    obtain ⟨hc, hrest⟩ := List.ne_and_not_mem_of_not_mem_cons h
    unfold unescapeChars
    rw [if_neg hc.symm, ih hrest]
    rfl

theorem unescape?_of_notMem {token : String} (h : '~' ∉ token.toList) :
    unescape? token = some token := by
  rw [unescape?, unescapeChars_of_notMem h, Option.map_some, String.ofList_toList]

theorem unescapeChars_of_unescape? {token key : String} (h : unescape? token = some key) :
    unescapeChars token.toList = some key.toList := by
  obtain ⟨u, hu, rfl⟩ := Option.map_eq_some_iff.1 h
  rw [hu, String.toList_ofList]

/-- A token that means itself has no tilde. -/
theorem notMem_of_unescape?_self {token : String} (h : unescape? token = some token) :
    '~' ∉ token.toList := by
  rcases unescapeChars_eq_some (unescapeChars_of_unescape? h) with ⟨-, hn⟩ | ⟨hlt, -⟩
  · exact hn
  · exact absurd hlt (Nat.lt_irrefl _)

/-- A key without characters to be escaped is written in one way only. -/
theorem eq_of_unescape? {token key : String} (h : unescape? token = some key)
    (htilde : '~' ∉ key.toList) (hslash : '/' ∉ key.toList) : token = key := by
  rcases unescapeChars_eq_some (unescapeChars_of_unescape? h) with ⟨he, -⟩ | ⟨-, hmem⟩
  · exact String.toList_inj.1 he
  · exact absurd hmem (not_or.2 ⟨htilde, hslash⟩)

/-! ## The pointer to a definition -/

theorem split_eq_triple {text a b c : String} : Text.split '/' text = [a, b, c] ↔
    text = a ++ "/" ++ b ++ "/" ++ c ∧
      '/' ∉ a.toList ∧ '/' ∉ b.toList ∧ '/' ∉ c.toList := by
  rw [Text.split_eq_iff, ← String.toList_inj]
  simp only [List.map_cons, List.map_nil, List.intercalate_cons_cons, List.intercalate_singleton,
    String.toList_append]
  constructor
  · rintro ⟨-, hall, he⟩
    obtain ⟨ha, hb, hc⟩ : '/' ∉ a.toList ∧ '/' ∉ b.toList ∧ '/' ∉ c.toList := by simpa using hall
    exact ⟨by rw [← he]; simp, ha, hb, hc⟩
  · rintro ⟨he, ha, hb, hc⟩
    exact ⟨List.cons_ne_nil _ _, by simp [ha, hb, hc], by rw [he]; simp⟩

theorem definitionName_of_split {text a b c : String} (h : Text.split '/' text = [a, b, c]) :
    Reference.definitionName text = c := by
  unfold Reference.definitionName
  rw [h]
  dsimp only
  split <;> rfl

/-- A reference is the pointer to the definition it is taken for exactly if it is written plainly:
the container, and a name without slash and tilde. -/
theorem tokens?_definitionName {text key : String} (hslash : '/' ∉ key.toList)
    (htilde : '~' ∉ key.toList) :
    tokens? text = some [key, Reference.definitionName text] ↔
      text = "#/" ++ key ++ "/" ++ Reference.definitionName text ∧
        '/' ∉ (Reference.definitionName text).toList ∧
        '~' ∉ (Reference.definitionName text).toList := by
  constructor
  · intro h
    unfold tokens? at h
    split at h
    · rename_i tokens hsplit
      obtain ⟨k, _, hk, hrest, rfl⟩ := List.forall₂_cons_right_iff.1 (mapM_eq_some_iff.1 h)
      obtain ⟨d, _, hd, hnil, rfl⟩ := List.forall₂_cons_right_iff.1 hrest
      cases hnil
      rw [eq_of_unescape? hk htilde hslash] at hsplit
      rw [definitionName_of_split hsplit] at hd ⊢
      obtain ⟨he, -, -, hname⟩ := split_eq_triple.1 hsplit
      exact ⟨he, hname, notMem_of_unescape?_self hd⟩
    · cases h
  · rintro ⟨he, hname, hplain⟩
    have hsplit : Text.split '/' text = ["#", key, Reference.definitionName text] :=
      split_eq_triple.2 ⟨he, by decide, hslash, hname⟩
    unfold tokens?
    rw [hsplit]
    exact mapM_eq_some_iff.2
      (.cons (unescape?_of_notMem htilde) (.cons (unescape?_of_notMem hplain) .nil))

end Pointer

namespace Json

variable {schema : Json} {container : List (String × Json)} {definitions : Definitions}

theorem get?_containerKey (hc : schema.definitionContainer = .obj container) (hne : container ≠ []) :
    schema.get? schema.containerKey = some (.obj container) := by
  unfold definitionContainer at hc
  dsimp only at hc
  unfold containerKey
  split at hc <;> rename_i ht
  · rw [if_pos ht]
    cases hv : schema.get? "$defs" with
    | none => rw [hv] at hc; cases hc
    | some v => rw [hv] at hc; exact congrArg some hc
  · rw [if_neg ht]
    split at hc
    · cases hv : schema.get? "definitions" with
      | none => rw [hv] at hc; cases hc
      | some v => rw [hv] at hc; exact congrArg some hc
    · cases hc
      exact absurd rfl hne

theorem at?_definition (hd : schema.definitions = .ok definitions)
    (hc : schema.definitionContainer = .obj container) (hkeys : (container.map Prod.fst).Nodup)
    {name : String} {body : Json} (h : definitions.lookup name = some body) :
    schema.at? [schema.containerKey, name] = some body := by
  obtain ⟨rfl, -⟩ := definitions_withDefinitions hd hc rfl
  have hmem : (name, body) ∈ container :=
    (List.mem_filter.1 (Definitions.mem_of_lookup h)).1
  have hget := get?_containerKey hc (List.ne_nil_of_mem hmem)
  have hchild : schema.child? schema.containerKey = some (.obj container) := by
    cases schema with
    | obj entries => exact hget
    | _ => cases hget
  have hentry : (Json.obj container).child? name = some body := Entries.lookup_of_mem hkeys hmem
  rw [at?, hchild, Option.bind_some, at?, hentry, Option.bind_some, at?]

end Json

/-- A reference to no definition is refused. Any other gets the node of a definition, which is what
the reference designates as a pointer exactly if it is written plainly. -/
theorem follow_reference {schema : Json} {container : List (String × Json)}
    {definitions : Definitions} (hd : schema.definitions = .ok definitions)
    (hc : schema.definitionContainer = .obj container) (hkeys : (container.map Prod.fst).Nodup)
    {stack : List String} {text path : String} (hlocal : Text.startsWith "#" text = true)
    {s : Session} (hs : s.Sane) :
    (definitions.lookup (Reference.definitionName text) = none →
      followReference definitions (readDefinition definitions (definitions.free stack)) (.str text)
        path s = .error (.structural (.unresolvedReference text path)) s) ∧
    ∀ id t, followReference definitions (readDefinition definitions (definitions.free stack))
        (.str text) path s = .ok id t →
      t.known.get? (Reference.definitionName text) = some id ∧
      (∃ body, definitions.lookup (Reference.definitionName text) = some body ∧
        schema.at? [schema.containerKey, Reference.definitionName text] = some body) ∧
      (Pointer.tokens? text = some [schema.containerKey, Reference.definitionName text] ↔
        text = "#/" ++ schema.containerKey ++ "/" ++ Reference.definitionName text ∧
          '/' ∉ (Reference.definitionName text).toList ∧
          '~' ∉ (Reference.definitionName text).toList) := by
  constructor
  · intro hnone
    unfold followReference
    dsimp only
    rw [if_pos hlocal, hnone]
    rfl
  · intro id t h
    have hfollow : Outline.Follows definitions stack
        (followReference definitions (readDefinition definitions (definitions.free stack))) :=
      Outline.followReference_follows _ fun _ _ _ _ => readDefinition_eq_ok_iff
    cases (hfollow (.str text) path s id t hs).1 h with
    | @reference _ _ _ _ _ name _ means defined inside =>
      have hname : Reference.definitionName text = name := by
        rw [Json.referred?, if_pos hlocal] at means
        exact Option.some.inj means
      rw [hname]
      obtain ⟨body, hbody⟩ := Option.isSome_iff_exists.1 defined
      refine ⟨inside.known_of_definition hs, ⟨body, hbody, Json.at?_definition hd hc hkeys hbody⟩, ?_⟩
      have hkey : '/' ∉ schema.containerKey.toList ∧ '~' ∉ schema.containerKey.toList := by
        rcases schema.containerKey_eq with h | h <;> rw [h] <;> decide
      exact hname ▸ Pointer.tokens?_definitionName hkey.1 hkey.2

/-- A person, and a name for the same. -/
def personAlias : Json := .obj [("$defs", .obj [
  ("person", .obj [("type", .str "object"), ("properties", .obj [
    ("name", .obj [("type", .str "string")])])]),
  ("owner", .obj [("$ref", .str "#/$defs/person")])])]

theorem follow_reference_personAlias : ∃ definitions t body,
    personAlias.definitions = .ok definitions ∧
    followReference definitions (readDefinition definitions (definitions.free ["owner"]))
      (.str "#/$defs/person") "#/$defs/owner" ({} : Session).begin = .ok 0 t ∧
    t.known.get? "person" = some 0 ∧
    (Pointer.tokens? "#/$defs/person").bind personAlias.at? = some body ∧
      definitions.lookup "person" = some body := by
  obtain ⟨definitions, container, hd, hc, hkeys, id, t, h, hid⟩ : ∃ definitions container,
      personAlias.definitions = .ok definitions ∧
      personAlias.definitionContainer = .obj container ∧ (container.map Prod.fst).Nodup ∧
      ∃ id t, followReference definitions (readDefinition definitions (definitions.free ["owner"]))
        (.str "#/$defs/person") "#/$defs/owner" ({} : Session).begin = .ok id t ∧
          decide (id = 0) = true :=
    ⟨_, _, rfl, rfl, by decide, Reading.exists_ok (by decide +kernel)⟩
  cases of_decide_eq_true hid
  obtain ⟨-, hresolved⟩ := @follow_reference _ _ _ hd hc hkeys ["owner"] "#/$defs/person"
    "#/$defs/owner" (by decide +kernel) _ ({} : Session).sane_begin
  obtain ⟨hk, ⟨body, hbody, hat⟩, hpointer⟩ := hresolved 0 t h
  refine ⟨definitions, t, body, hd, h, hk, ?_, hbody⟩
  have htokens := hpointer.2 (by decide +kernel)
  exact (congrArg (·.bind personAlias.at?) htokens).trans hat

def deepReference : Json := .obj [("$defs", .obj [
  ("a", .obj [("type", .str "object"), ("properties", .obj [
    ("x", .obj [("type", .str "string")]),
    ("y", .obj [("$ref", .str "#/$defs/a/properties/x")])])])])]

/-- The field `y` designates a text, and gets the node of the definition `a`. -/
theorem deepReference_misread :
    (Pointer.tokens? "#/$defs/a/properties/x").bind deepReference.at? =
      some (.obj [("type", .str "string")]) ∧
    (∃ batch t, readDocument deepReference "" {} = .ok batch t ∧ t.known.get? "a" = some 0 ∧
      (t.graph.fields (some 0)).get? "y" = some (some 3) ∧
      t.graph.shape? (some 3) = some (.optional 0)) ∧
    (Compilation.ofSchema deepReference "" {}).result =
      .ok [.type "A" [("x", .named (.str "String")), ("y", .named (.str "A"))]] := by
  refine ⟨by decide +kernel, ?_, by decide +kernel⟩
  obtain ⟨batch, t, h, ht⟩ := Reading.exists_ok (x := readDocument deepReference "" {})
    (p := fun _ t => decide (t.known.get? "a" = some 0 ∧
      (t.graph.fields (some 0)).get? "y" = some (some 3) ∧
      t.graph.shape? (some 3) = some (.optional 0))) (by decide +kernel)
  exact ⟨batch, t, h, of_decide_eq_true ht⟩

end ShapeSdl
