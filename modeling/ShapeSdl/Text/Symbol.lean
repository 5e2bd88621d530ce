/-!
# The symbols of a text

A text may hold half of a surrogate pair, for which there is no character. It is held as a mark and
a private character behind it, and the mark itself is held twice, so that every sequence of symbols
is held by one text.

* `Symbol` : a character, or half of a surrogate pair;
* `Symbol.spell`, `symbols` : how a symbol is held, and the symbols that characters hold. The second
  undoes the first (`symbols_flatMap_spell`);
* `characters` : the texts of the single symbols of a text;
* `hasHalf`, `ofPlain`, `toPlain` : whether a text holds halves, a text that holds given characters
  alone, and the characters of a text without halves (`toPlain_ofPlain`).
-/

namespace ShapeSdl.Text

/-- What a text is made of. -/
inductive Symbol where
  | char (c : Char)
  /-- Half of a surrogate pair, counted from U+D800. -/
  | half (n : Fin 2048)
deriving DecidableEq

namespace Symbol

/-- The character in front of a half, U+10FFFF. -/
def mark : Char := Char.ofNat 0x10FFFF

/-- The private character behind the mark of a half. -/
def ofHalf (n : Fin 2048) : Char :=
  have h : 0xE000 + n.1 < UInt32.size := Nat.lt_of_lt_of_le (Nat.add_lt_add_left n.2 _) (by decide)
  ⟨.ofNatLT (0xE000 + n) h, by
    show (UInt32.ofNatLT _ h).toNat.isValidChar
    rw [UInt32.toNat_ofNatLT]
    exact Or.inr ⟨by omega, by omega⟩⟩

/-- The half that a character behind a mark stands for. -/
def half? (c : Char) : Option (Fin 2048) :=
  if h : 0xE000 ≤ c.toNat ∧ c.toNat < 0xE800 then some ⟨c.toNat - 0xE000, by omega⟩ else none

/-- The characters that hold a symbol. -/
def spell : Symbol → List Char
  | char c => if c = mark then [mark, mark] else [c]
  | half n => [mark, ofHalf n]

def code : Symbol → Nat
  | char c => c.toNat
  | half n => 0xD800 + n

theorem toNat_ofHalf (n : Fin 2048) : (ofHalf n).toNat = 0xE000 + n := UInt32.toNat_ofNatLT

theorem half?_ofHalf (n : Fin 2048) : half? (ofHalf n) = some n := by
  have e := toNat_ofHalf n
  have h : 0xE000 ≤ (ofHalf n).toNat ∧ (ofHalf n).toNat < 0xE800 := by omega
  rw [half?, dif_pos h]
  exact congrArg some (Fin.ext (by simp only [e, Nat.add_sub_cancel_left]))

theorem ofHalf_ne_mark (n : Fin 2048) : ofHalf n ≠ mark := by
  intro h
  have hn := toNat_ofHalf n
  rw [h] at hn
  have : mark.toNat = 0x10FFFF := rfl
  omega

end Symbol

/-- The symbols that characters hold. A mark that stands in front of neither a mark nor a half is
a character. -/
def symbols : List Char → List Symbol
  | [] => []
  | [c] => [.char c]
  | c :: d :: rest =>
    if c = Symbol.mark then
      if d = Symbol.mark then .char Symbol.mark :: symbols rest
      else match Symbol.half? d with
        | some n => .half n :: symbols rest
        | none => .char c :: symbols (d :: rest)
    else .char c :: symbols (d :: rest)

theorem symbols_cons_of_ne {c : Char} (h : c ≠ Symbol.mark) (rest : List Char) :
    symbols (c :: rest) = .char c :: symbols rest := by
  cases rest with
  | nil => rfl
  | cons d rest => simp only [symbols, if_neg h]

theorem symbols_spell_append (x : Symbol) (rest : List Char) :
    symbols (x.spell ++ rest) = x :: symbols rest := by
  cases x with
  | char c =>
    by_cases h : c = Symbol.mark
    · subst h
      simp only [Symbol.spell, if_true, List.cons_append, List.nil_append, symbols]
    · simp only [Symbol.spell, if_neg h, List.cons_append, List.nil_append, symbols_cons_of_ne h]
  | half n =>
    simp only [Symbol.spell, List.cons_append, List.nil_append, symbols, if_true,
      if_neg (Symbol.ofHalf_ne_mark n), Symbol.half?_ofHalf]

theorem symbols_flatMap_spell : ∀ (xs : List Symbol), symbols (xs.flatMap Symbol.spell) = xs
  | [] => rfl
  | x :: xs => by rw [List.flatMap_cons, symbols_spell_append, symbols_flatMap_spell xs]

def characters (s : String) : List String :=
  (symbols s.toList).map fun x => String.ofList x.spell

/-! ## Texts of characters alone -/

def Symbol.char? : Symbol → Option Char
  | char c => some c
  | half _ => none

/-- Whether a text holds half of a surrogate pair. -/
def hasHalf (s : String) : Bool := (symbols s.toList).any fun x => x.char?.isNone

/-- The text that holds the characters of `s`. -/
def ofPlain (s : String) : String := String.ofList ((s.toList.map Symbol.char).flatMap Symbol.spell)

/-- The characters of a text, halves left out. -/
def toPlain (s : String) : String := String.ofList ((symbols s.toList).filterMap Symbol.char?)

theorem filterMap_char? : ∀ (cs : List Char), (cs.map Symbol.char).filterMap Symbol.char? = cs
  | [] => rfl
  | c :: cs => by
    simp only [List.map_cons, List.filterMap_cons, Symbol.char?, filterMap_char? cs]

theorem toPlain_ofPlain (s : String) : toPlain (ofPlain s) = s := by
  rw [toPlain, ofPlain, String.toList_ofList, symbols_flatMap_spell, filterMap_char?,
    String.ofList_toList]

end ShapeSdl.Text
