import ShapeSdl.Text.Symbol

/-!
# Parts of texts

* `splitChars`, `split` : the pieces of a text between the separators, so that `n` separators give
  `n + 1` pieces, empty ones included (`length_splitChars`);
* `splitChars_eq_iff`, `split_eq_iff` : they are the pieces without a separator that give the text
  when the separators are put between them;
* `hasPart`, `contains` : whether a sequence has another one in it, and whether a text has another
  one in it, symbol by symbol. What is empty is in all;
* `startsWith` : whether a text begins with another one.
-/

namespace ShapeSdl.Text

/-! ## Splitting at a character -/

def splitChars (sep : Char) : List Char → List (List Char)
  | [] => [[]]
  | c :: rest =>
    if c = sep then [] :: splitChars sep rest
    else match splitChars sep rest with
      | [] => [[c]]
      | piece :: pieces => (c :: piece) :: pieces

theorem splitChars_ne_nil (sep : Char) : ∀ (s : List Char), splitChars sep s ≠ []
  | [] => nofun
  | c :: rest => by
    simp only [splitChars]
    split
    · nofun
    · split <;> nofun

theorem length_splitChars (sep : Char) : ∀ (s : List Char),
    (splitChars sep s).length = s.count sep + 1
  | [] => rfl
  | c :: rest => by
    have ih := length_splitChars sep rest
    simp only [splitChars]
    split
    · next h => simp [h, ih]
    · next h =>
      split
      · next e => exact absurd e (splitChars_ne_nil sep rest)
      · next p ps e => rw [e] at ih; simpa [h] using ih

theorem splitChars_of_notMem {sep : Char} : ∀ {s : List Char}, sep ∉ s → splitChars sep s = [s]
  | [], _ => rfl
  | c :: rest, h => by
    obtain ⟨hc, hrest⟩ := List.ne_and_not_mem_of_not_mem_cons h
    rw [splitChars, if_neg (Ne.symm hc), splitChars_of_notMem hrest]

theorem splitChars_append_cons {sep : Char} {rest : List Char} : ∀ {s : List Char}, sep ∉ s →
    splitChars sep (s ++ sep :: rest) = s :: splitChars sep rest
  | [], _ => by rw [List.nil_append, splitChars, if_pos rfl]
  | c :: s, h => by
    obtain ⟨hc, hs⟩ := List.ne_and_not_mem_of_not_mem_cons h
    rw [List.cons_append, splitChars, if_neg (Ne.symm hc), splitChars_append_cons hs]

theorem notMem_of_mem_splitChars {sep : Char} : ∀ {s piece : List Char},
    piece ∈ splitChars sep s → sep ∉ piece
  | [], piece, h => by
    rw [splitChars, List.mem_singleton] at h
    rw [h]
    exact List.not_mem_nil
  | c :: rest, piece, h => by
    rw [splitChars] at h
    split at h
    · rcases List.mem_cons.1 h with rfl | h
      · exact List.not_mem_nil
      · exact notMem_of_mem_splitChars h
    · rename_i hc
      split at h
      · rename_i e
        exact absurd e (splitChars_ne_nil sep rest)
      · rename_i first pieces e
        have hrest : ∀ p ∈ first :: pieces, sep ∉ p :=
          fun p hp => notMem_of_mem_splitChars (e ▸ hp)
        rcases List.mem_cons.1 h with rfl | h
        · exact List.not_mem_cons_of_ne_of_not_mem (Ne.symm hc) (hrest first List.mem_cons_self)
        · exact hrest piece (List.mem_cons_of_mem _ h)

theorem intercalate_splitChars (sep : Char) : ∀ (s : List Char),
    [sep].intercalate (splitChars sep s) = s
  | [] => rfl
  | c :: rest => by
    have ih := intercalate_splitChars sep rest
    rw [splitChars]
    split
    · rename_i hc
      rw [List.intercalate_cons_of_ne_nil (splitChars_ne_nil sep rest), ih, hc]
      rfl
    · split
      · rename_i e
        exact absurd e (splitChars_ne_nil sep rest)
      · rename_i first pieces e
        rw [e] at ih
        cases pieces with
        | nil => rw [← ih]; rfl
        | cons second pieces =>
          rw [List.intercalate_cons_cons] at ih ⊢
          rw [← ih]
          rfl

/-- The pieces are the texts without a separator that give the text with separators between them. -/
theorem splitChars_eq_iff {sep : Char} {s : List Char} {pieces : List (List Char)} :
    splitChars sep s = pieces ↔
      pieces ≠ [] ∧ (∀ p ∈ pieces, sep ∉ p) ∧ [sep].intercalate pieces = s := by
  constructor
  · rintro rfl
    exact ⟨splitChars_ne_nil sep s, fun p => notMem_of_mem_splitChars, intercalate_splitChars sep s⟩
  · rintro ⟨hne, hpieces, rfl⟩
    induction pieces with
    | nil => exact absurd rfl hne
    | cons first rest ih =>
      obtain ⟨hfirst, hrest⟩ := List.forall_mem_cons.1 hpieces
      cases rest with
      | nil => rw [List.intercalate_singleton, splitChars_of_notMem hfirst]
      | cons second rest =>
        rw [List.intercalate_cons_cons, List.append_assoc, List.singleton_append,
          splitChars_append_cons hfirst, ih (List.cons_ne_nil _ _) hrest]

def split (sep : Char) (s : String) : List String :=
  (splitChars sep s.toList).map String.ofList

theorem split_eq_iff {sep : Char} {s : String} {pieces : List String} :
    split sep s = pieces ↔ pieces ≠ [] ∧ (∀ p ∈ pieces, sep ∉ p.toList) ∧
      [sep].intercalate (pieces.map String.toList) = s.toList := by
  have hmap : split sep s = pieces ↔ splitChars sep s.toList = pieces.map String.toList := by
    constructor
    · rintro rfl
      have hid : String.toList ∘ String.ofList = id := funext fun _ => String.toList_ofList
      rw [split, List.map_map, hid, List.map_id]
    · intro h
      have hid : String.ofList ∘ String.toList = id := funext fun _ => String.ofList_toList
      rw [split, h, List.map_map, hid, List.map_id]
  rw [hmap, splitChars_eq_iff, List.forall_mem_map]
  simp only [ne_eq, List.map_eq_nil_iff]

/-! ## Searching -/

def hasPart {α : Type} [BEq α] (part : List α) : List α → Bool
  | [] => part.isEmpty
  | x :: rest => part.isPrefixOf (x :: rest) || hasPart part rest

def contains (part s : String) : Bool := hasPart (symbols part.toList) (symbols s.toList)

def startsWith (start s : String) : Bool := start.toList.isPrefixOf s.toList

end ShapeSdl.Text
