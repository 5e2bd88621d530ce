import ShapeSdl.Proofs.Declared
import ShapeSdl.Proofs.Legible
import ShapeSdl.Proofs.TypeNames

/-!
# How declarations get their names

* `TypeName.kept`, `TypeName.neighbours` : what becomes of a character of a text, by the character
  right before it;
* `pascal_letter_by_letter` : a type name is what becomes of the characters of a text, and a text
  that has been made a type name stays as it is, also where a document is read under it;
* `TypeName.beginsWithLetter` : whether the first letter or digit of a text is a letter;
* `declared_names_iff` : all names of a document are names of the output language exactly if the
  definitions and the root that they are made of begin with a letter;
* `unnameable_declared` : two definitions of which no such name is made.
-/

namespace ShapeSdl

open Text (isName isNameChar)

namespace TypeName

/-! ## Letter by letter -/

/-- What becomes of a character with the one right before it, if there is one. Letters and digits
are kept, and a small letter is raised unless it stands behind a letter. -/
def kept (before : Option Char) (c : Char) : Option Char :=
  if c.isAlphanum then some (if c.isLower ∧ ¬ before.any Char.isAlpha then c.toUpper else c)
  else none

def neighbours (cs : List Char) : List (Option Char × Char) := (none :: cs.map some).zip cs

theorem recase_any (before : Option Char) (cs : List Char) :
    recase (before.any Char.isAlpha) cs =
      ((before :: cs.map some).zip cs).filterMap fun p => kept p.1 p.2 := by
  induction cs generalizing before with
  | nil => rfl
  | cons c rest ih =>
    rw [List.map_cons, List.zip_cons_cons, List.filterMap_cons, recase, kept]
    have hnext : recase c.isAlpha rest =
        ((some c :: rest.map some).zip rest).filterMap fun p => kept p.1 p.2 := ih (some c)
    cases hc : c.isAlphanum with
    | true =>
      have hraised : (if before.any Char.isAlpha = true then c else c.toUpper) =
          if c.isLower = true ∧ ¬ before.any Char.isAlpha = true then c.toUpper else c := by
        cases before.any Char.isAlpha with
        | true => simp
        | false =>
          cases hl : c.isLower with
          | true => simp
          | false => simp [toUpper_of_not_isLower (by simp [hl] : ¬ c.isLower = true)]
      simp only [if_true, hraised, hnext]
    | false =>
      -- What is left out is no letter either.
      have halpha : c.isAlpha = false := by
        rw [← Bool.not_eq_true] at hc ⊢
        exact mt (fun h => isAlphanum_iff.2 (.inl h)) hc
      rw [halpha] at hnext
      simp only [Bool.false_eq_true, if_false, hnext]

/-- A document is read under a type name as under what it has been made of, as long as anything is
left of that. -/
theorem readDocument_pascal (schema : Json) (root : String) : readDocument schema (pascal root) =
    if pascal root = "" then readDocument schema "" else readDocument schema root := by
  split
  · rw [‹pascal root = ""›]
  · rename_i hne
    have hroot : root ≠ "" := by
      rintro rfl
      exact hne (by decide +kernel)
    unfold readDocument
    simp only [pascal_pascal, hne, hroot, ne_eq, not_false_eq_true, and_true]

/-- A type name is what becomes of the characters of a text, each by the one right before it. It is
its own type name, so that the name that a file gives to a root is the name that the root has. -/
theorem pascal_letter_by_letter (s path : String) (schema : Json) :
    pascal s = String.ofList ((neighbours s.toList).filterMap fun p => kept p.1 p.2) ∧
    pascal (pascal s) = pascal s ∧ pascal (ofFile path) = ofFile path ∧
    readDocument schema (pascal s) =
      if pascal s = "" then readDocument schema "" else readDocument schema s :=
  ⟨(pascal_eq s).trans (congrArg String.ofList (recase_any none s.toList)), pascal_pascal s,
    pascal_pascal _, readDocument_pascal schema s⟩

example : pascal "first 3-rowsOf_aB" = "First3RowsOfAB" := by decide +kernel

/-! ## Names that begin with a letter -/

/-- Whether the first letter or digit of a text is there and is a letter. -/
def beginsWithLetter (s : String) : Bool := (s.toList.find? Char.isAlphanum).any Char.isAlpha

theorem head?_recase (cs : List Char) :
    (recase false cs).head? = (cs.find? Char.isAlphanum).map Char.toUpper := by
  induction cs with
  | nil => rfl
  | cons c rest ih =>
    rw [recase, List.find?_cons]
    cases c.isAlphanum with
    | true => rfl
    | false => exact ih

theorem isName_iff_head? {s : String} (h : ∀ c ∈ s.toList, c.isAlphanum = true) :
    isName s = true ↔ ∃ c, s.toList.head? = some c ∧ c.isAlpha = true := by
  have hchar : ∀ c ∈ s.toList, isNameChar c = true := fun c hc => by
    rw [isNameChar, h c hc, Bool.true_or]
  rw [Text.isName_iff]
  cases hs : s.toList with
  | nil => simp
  | cons first rest =>
    rw [hs] at h hchar
    have hfirst := isAlpha_eq_not_isDigit (h first List.mem_cons_self)
    constructor
    · rintro ⟨_, _, ⟨⟩, -, hdigit, -⟩
      exact ⟨first, rfl, by rw [hfirst, hdigit]; rfl⟩
    · rintro ⟨_, ⟨⟩, halpha⟩
      rw [halpha] at hfirst
      exact ⟨first, rest, rfl, hchar first List.mem_cons_self, by simpa using hfirst.symm,
        fun c hc => hchar c (List.mem_cons_of_mem _ hc)⟩

/-- What a text is made into is a name exactly if its first letter or digit is a letter. -/
theorem isName_pascal_iff (s : String) : isName (pascal s) = true ↔ beginsWithLetter s = true := by
  rw [isName_iff_head? fun c => isAlphanum_of_mem_pascal, pascal_eq, String.toList_ofList,
    head?_recase, beginsWithLetter]
  cases s.toList.find? Char.isAlphanum with
  | none => simp
  | some c =>
    rw [Option.map_some, Option.any_some, ← isAlpha_toUpper c]
    simp

end TypeName

open ShapeSdl.TypeName (pascal beginsWithLetter)

/-! ## The names of a document -/

variable {schema : Json} {root : String} {s t : Session} {batch : Batch}
  {definitions : Definitions}

/-- The names in a batch are put together from letters and digits, so that one that is no name of
the output language is empty or begins with a digit. All of them are such names exactly if in what
they are made from a letter comes before all digits. -/
theorem declared_names_iff (hd : schema.definitions = .ok definitions)
    (h : readDocument schema root s = .ok batch t) :
    (∀ key, key ∈ batch.keys ↔
      ∃ name, t.Naming schema definitions root name ∧ pascal name = key) ∧
    (∀ key ∈ batch.keys, (∀ c ∈ key.toList, c.isAlphanum = true) ∧
      (isName key = false ↔ key = "" ∨ ∃ c rest, key.toList = c :: rest ∧ c.isDigit = true)) ∧
    ((∀ key ∈ batch.keys, isName key = true) ↔
      ∀ name, t.Naming schema definitions root name → beginsWithLetter name = true) := by
  have hkeys : ∀ key, key ∈ batch.keys ↔
      ∃ name, t.Naming schema definitions root name ∧ pascal name = key :=
    fun _ => mem_keys_readDocument hd h
  refine ⟨hkeys, fun key hkey => ?_, fun hall name hname => ?_, fun hall key hkey => ?_⟩
  · obtain ⟨name, -, rfl⟩ := (hkeys key).1 hkey
    have hchars : ∀ c ∈ (pascal name).toList, c.isAlphanum = true :=
      fun c => TypeName.isAlphanum_of_mem_pascal
    refine ⟨hchars, ?_⟩
    rw [← Bool.not_eq_true, TypeName.isName_iff_head? hchars, ← String.toList_inj]
    cases hs : (pascal name).toList with
    | nil => simp
    | cons first rest =>
      rw [hs] at hchars
      simp [TypeName.isAlpha_eq_not_isDigit (hchars first List.mem_cons_self)]
  · rw [← TypeName.isName_pascal_iff]
    exact hall _ ((hkeys _).2 ⟨name, hname, rfl⟩)
  · obtain ⟨name, hname, rfl⟩ := (hkeys key).1 hkey
    rw [TypeName.isName_pascal_iff]
    exact hall name hname

/-- A shop with a definition that is not declared, whose name begins with a digit. -/
def shop : Json := .obj [
  ("$defs", .obj [("pet_store", .obj [("type", .str "object")]),
    ("-kind", .obj [("enum", .arr [.str "cat"])]), ("9", .obj [("type", .str "string")])]),
  ("properties", .obj [("nine", .obj [("$ref", .str "#/$defs/9")])])]

theorem declared_names_iff_shop : ∃ batch t definitions,
    readDocument shop "shop 24" {} = .ok batch t ∧ shop.definitions = .ok definitions ∧
    batch.keys = ["PetStore", "Kind", "Shop24"] ∧ (∀ key ∈ batch.keys, isName key = true) ∧
    ∀ name, t.Naming shop definitions "shop 24" name → beginsWithLetter name = true := by
  obtain ⟨batch, t, h, ht⟩ := Reading.exists_ok (x := readDocument shop "shop 24" {})
    (p := fun batch _ => decide (batch.keys = ["PetStore", "Kind", "Shop24"])) (by decide +kernel)
  obtain ⟨definitions, hd⟩ : ∃ definitions, shop.definitions = .ok definitions := ⟨_, rfl⟩
  have hkeys : batch.keys = ["PetStore", "Kind", "Shop24"] := of_decide_eq_true ht
  have hnames : ∀ key ∈ batch.keys, isName key = true := by
    rw [hkeys]
    decide +kernel
  exact ⟨batch, t, definitions, h, hd, hkeys, hnames, (declared_names_iff hd h).2.2.1 hnames⟩

/-- The name of one definition begins with a digit, that of the other has no letter or digit. -/
def unnameable : Json := .obj [("$defs", .obj [("3d", .obj [("type", .str "object")]),
  ("_", .obj [("type", .str "object")])])]

/-- Definitions are declared under names that begin with a digit or are empty. -/
theorem unnameable_declared : ∃ batch t, readDocument unnameable "" {} = .ok batch t ∧
    batch.keys = ["3D", ""] ∧ isName "3D" = false ∧ isName "" = false := by
  obtain ⟨batch, t, h, ht⟩ := Reading.exists_ok (x := readDocument unnameable "" {})
    (p := fun batch _ => decide (batch.keys = ["3D", ""])) (by decide +kernel)
  exact ⟨batch, t, h, of_decide_eq_true ht, by decide, by decide⟩

end ShapeSdl
