import ShapeSdl.Declaration
import ShapeSdl.Text.Split
import Mathlib.Data.List.Nodup

/-!
# The lines of an enum

* `Text.split_append` : a text with an end of line in it has the lines before it and those after it;
* `Text.newline_mem_upper_iff` : upper case neither makes nor takes away an end of line;
* `Declaration.valueLines` : the lines of a block between its heading and its last line;
* `enumeration_lines` : an enum of different texts has a line for each unless one has an end of line,
  and these lines differ exactly if the case is kept or no two texts have one upper case;
* `enumLines_merged` : lines that are equal, and lines that are too many.
-/

namespace ShapeSdl

/-! ## Lines -/

namespace Text

theorem splitChars_append (sep : Char) (s rest : List Char) :
    splitChars sep (s ++ sep :: rest) = splitChars sep s ++ splitChars sep rest := by
  induction s with
  | nil => simp [splitChars]
  | cons c s ih =>
    rw [List.cons_append, splitChars, splitChars, ih]
    split
    · rfl
    · cases h : splitChars sep s with
      | nil => exact absurd h (splitChars_ne_nil sep s)
      | cons first pieces => rfl

theorem split_append {sep : Char} {between : String} (h : between.toList = [sep])
    (s rest : String) : split sep (s ++ between ++ rest) = split sep s ++ split sep rest := by
  have htext : (s ++ between ++ rest).toList = s.toList ++ sep :: rest.toList := by
    rw [String.toList_append, String.toList_append, h, List.append_assoc]
    rfl
  rw [split, htext, splitChars_append, List.map_append, split, split]

theorem length_split (sep : Char) (s : String) : (split sep s).length = s.toList.count sep + 1 := by
  rw [split, List.length_map, length_splitChars]

theorem split_of_notMem {sep : Char} {s : String} (h : sep ∉ s.toList) : split sep s = [s] := by
  rw [split, splitChars_of_notMem h, List.map_singleton, String.ofList_toList]

/-! ## Upper case -/

theorem Upper.newline_notMem_expansions :
    ∀ e ∈ expansions, '\n' ∉ e.2.map Char.ofNat := by decide +kernel

theorem Upper.lt_shifted : ∀ run ∈ runs, (32 : Int) < run.first + run.shift := by decide +kernel

theorem ofNat_ne_newline {n : Nat} (h : 32 < n) : Char.ofNat n ≠ '\n' := by
  intro he
  have hten : (Char.ofNat n).toNat = 10 := congrArg Char.toNat he
  by_cases hv : n.isValidChar
  · have hn : (Char.ofNat n).toNat = n := by
      rw [Char.ofNat, dif_pos hv]
      rfl
    omega
  · rw [Char.ofNat, dif_neg hv] at hten
    cases hten

theorem toUpper_eq_newline_iff (c : Char) : c.toUpper = '\n' ↔ c = '\n' := by
  unfold Char.toUpper
  split
  · rename_i hl
    constructor
    · intro h
      have hn := congrArg UInt32.toNat (congrArg Char.val h)
      simp [UInt32.toNat_add, UInt32.le_iff_toNat_le] at hn hl
      omega
    · rintro rfl
      revert hl
      decide
  · rfl

theorem newline_mem_upperChar_iff (c : Char) : '\n' ∈ upperChar c ↔ c = '\n' := by
  unfold upperChar
  split
  · rw [List.mem_singleton, eq_comm, toUpper_eq_newline_iff]
  · rename_i hlarge
    have hne : c ≠ '\n' := by
      rintro rfl
      exact hlarge (by decide)
    refine iff_of_false ?_ hne
    cases he : Upper.expansions.lookup c.toNat with
    | some points =>
      obtain ⟨before, after, hmem, -⟩ := List.lookup_eq_some_iff.1 he
      exact Upper.newline_notMem_expansions (c.toNat, points) (by rw [hmem]; simp)
    | none =>
      cases hr : Upper.runs.find? (·.contains c.toNat) with
      | some run =>
        have hlow := Upper.lt_shifted run (List.mem_of_find?_eq_some hr)
        have hfirst : run.first ≤ c.toNat := by
          have hin : run.contains c.toNat = true :=
            List.find?_some (p := fun run : CaseRun => run.contains c.toNat) hr
          simp only [CaseRun.contains, Bool.and_eq_true, decide_eq_true_eq] at hin
          exact hin.1.1
        have hshifted : 32 < (c.toNat + run.shift).toNat := by omega
        exact fun h => ofNat_ne_newline hshifted (List.mem_singleton.1 h).symm
      | none => simpa using Ne.symm hne

theorem newline_mem_upper_iff (s : String) : '\n' ∈ (upper s).toList ↔ '\n' ∈ s.toList := by
  rw [upper, String.toList_ofList, List.mem_flatMap]
  constructor
  · rintro ⟨c, hc, h⟩
    rwa [(newline_mem_upperChar_iff c).1 h] at hc
  · intro h
    exact ⟨'\n', h, (newline_mem_upperChar_iff '\n').2 rfl⟩

end Text

open Text (split)

/-! ## Blocks -/

namespace Declaration

/-- The lines of a block between its heading, which holds its name, and its last line. -/
def valueLines (d : Declaration) : List String :=
  ((split '\n' d.text).drop (split '\n' d.name).length).dropLast

theorem split_entries (entries : List String) :
    split '\n' (String.join (entries.map fun line => "  " ++ line ++ "\n") ++ "\x7d") =
      entries.flatMap (fun line => split '\n' ("  " ++ line)) ++ ["\x7d"] := by
  induction entries with
  | nil => rfl
  | cons line rest ih =>
    rw [List.map_cons, String.join_cons, String.append_assoc, Text.split_append rfl, ih,
      List.flatMap_cons, List.append_assoc]

theorem split_block (heading : String) (entries : List String) :
    split '\n' (block heading entries) = split '\n' (heading ++ " \x7b") ++
      (entries.flatMap (fun line => split '\n' ("  " ++ line)) ++ ["\x7d"]) := by
  have htext : block heading entries = heading ++ " \x7b" ++ "\n" ++
      (String.join (entries.map fun line => "  " ++ line ++ "\n") ++ "\x7d") := by
    simp only [block, String.append_assoc]
    rfl
  rw [htext, Text.split_append rfl, split_entries]

/-- The lines of an enum are those of its values, each behind an indent. -/
theorem valueLines_enumeration (name : String) (values : List String) :
    (enumeration name values).valueLines = values.flatMap fun v => split '\n' ("  " ++ v) := by
  have hheading : (split '\n' ("enum " ++ name ++ " \x7b")).length = (split '\n' name).length := by
    simp [Text.length_split]
  rw [valueLines, text, Declaration.name, split_block, ← hheading, List.drop_left',
    List.dropLast_concat]
  rfl

theorem length_valueLines (name : String) (values : List String) :
    (enumeration name values).valueLines.length =
      values.length + (values.flatMap String.toList).count '\n' := by
  rw [valueLines_enumeration]
  induction values with
  | nil => rfl
  | cons v rest ih =>
    rw [List.flatMap_cons, List.length_append, ih, Text.length_split, List.flatMap_cons,
      List.count_append, List.length_cons]
    simp
    omega

theorem length_valueLines_eq_iff (name : String) (values : List String) :
    (enumeration name values).valueLines.length = values.length ↔
      ∀ v ∈ values, '\n' ∉ v.toList := by
  rw [length_valueLines, Nat.add_eq_left, List.count_eq_zero]
  simp only [List.mem_flatMap, not_exists, not_and]

theorem valueLines_of_notMem (name : String) {values : List String}
    (h : ∀ v ∈ values, '\n' ∉ v.toList) :
    (enumeration name values).valueLines = values.map ("  " ++ ·) := by
  have hline : ∀ v ∈ values, split '\n' ("  " ++ v) = ["  " ++ v] := by
    intro v hv
    refine Text.split_of_notMem ?_
    simpa using h v hv
  rw [valueLines_enumeration, List.flatMap_congr hline, List.map_eq_flatMap]

end Declaration

/-! ## Enums of texts -/

section
variable {cx : Context} {r : Ref} {values : List String}

/-- A text among the values of an enum as it is written. -/
def Context.enumText (cx : Context) (v : String) : String := cx.enumValue (.str v)

theorem Context.newline_mem_enumText_iff (cx : Context) (v : String) :
    '\n' ∈ (cx.enumText v).toList ↔ '\n' ∈ v.toList := by
  unfold enumText enumValue
  split
  · rfl
  · exact Text.newline_mem_upper_iff v

theorem Context.nodup_enumTexts_iff (cx : Context) (hn : values.Nodup) :
    (values.map cx.enumText).Nodup ↔
      cx.options.preserveEnumCase.isTruthy = true ∨ (values.map Text.upper).Nodup := by
  cases hcase : cx.options.preserveEnumCase.isTruthy with
  | true =>
    have hsame : cx.enumText = id := by
      funext v
      simp [enumText, enumValue, hcase]
    simpa [hsame] using hn
  | false =>
    have hupper : cx.enumText = Text.upper := by
      funext v
      simp [enumText, enumValue, hcase]
    simp [hupper]

/-- An enum of different texts is always declared. Its block has as many lines for them as there are
texts exactly if none has an end of line. Then the lines are the texts in order, behind an indent,
in upper case unless the case is kept; and they differ exactly if it is kept or no two of the texts
have one upper case. -/
theorem enumeration_lines (h : cx.graph.shape? r = some (.enumeration (values.map .str)))
    (hn : values.Nodup) (name : String) (w : Walk) :
    ∃ d, cx.declare name r w = .ok d w ∧ d.name = name ∧
      (d.valueLines.length = values.length ↔ ∀ v ∈ values, '\n' ∉ v.toList) ∧
      ((∀ v ∈ values, '\n' ∉ v.toList) →
        d.valueLines = values.map (fun v => "  " ++ cx.enumText v) ∧
        (d.valueLines.Nodup ↔
          cx.options.preserveEnumCase.isTruthy = true ∨ (values.map Text.upper).Nodup)) := by
  have htexts : (values.map Json.str).map cx.enumValue = values.map cx.enumText := by
    rw [List.map_map]
    rfl
  have hbreaks : (∀ v ∈ values.map cx.enumText, '\n' ∉ v.toList) ↔
      ∀ v ∈ values, '\n' ∉ v.toList := by
    rw [List.forall_mem_map]
    exact forall₂_congr fun v _ => not_congr (cx.newline_mem_enumText_iff v)
  refine ⟨.enumeration name (values.map cx.enumText), ?_, rfl, ?_, fun hnone => ?_⟩
  · unfold Context.declare
    rw [h]
    dsimp only
    rw [htexts]
    rfl
  · rw [← hbreaks, ← Declaration.length_valueLines_eq_iff name, List.length_map]
  · have hlines := Declaration.valueLines_of_notMem name (hbreaks.2 hnone)
    refine ⟨by rw [hlines, List.map_map]; rfl, ?_⟩
    have hindent : Function.Injective ("  " ++ · : String → String) :=
      fun a b hab => (String.append_right_inj _).1 hab
    rw [hlines, List.nodup_map_iff hindent, cx.nodup_enumTexts_iff hn]

end

def enumContext (values : List String) (preserveEnumCase : Bool) : Context :=
  ⟨⟨#[⟨"", [], .enumeration (values.map .str)⟩]⟩, ∅, { preserveEnumCase := .bool preserveEnumCase }⟩

theorem enumeration_lines_street : ∃ d,
    (enumContext ["Straße", "weg", "Weg 2"] false).declare "Way" (some 0) {} = .ok d {} ∧
    d.valueLines = ["  STRASSE", "  WEG", "  WEG 2"] ∧ d.valueLines.Nodup := by
  have hshape : (enumContext ["Straße", "weg", "Weg 2"] false).graph.shape? (some 0) =
      some (.enumeration (["Straße", "weg", "Weg 2"].map .str)) := rfl
  obtain ⟨d, hd, -, -, hlines⟩ := enumeration_lines hshape (by decide) "Way" {}
  obtain ⟨hlines, hnodup⟩ := hlines (by decide +kernel)
  refine ⟨d, hd, hlines.trans ?_, hnodup.2 (.inr (by decide +kernel))⟩
  decide +kernel

/-- Two texts with one upper case have the same line, and a text with an end of line has several, one
of which may be that of another text. -/
theorem enumLines_merged :
    (∃ d, (enumContext ["a", "A"] false).declare "E" (some 0) {} = .ok d {} ∧
      d.valueLines = ["  A", "  A"]) ∧
    ∃ d, (enumContext ["a", "b\n  a"] true).declare "E" (some 0) {} = .ok d {} ∧
      d.valueLines = ["  a", "  b", "  a"] :=
  ⟨⟨.enumeration "E" (["a", "A"].map (enumContext ["a", "A"] false).enumText), rfl,
      by decide +kernel⟩,
    ⟨.enumeration "E" (["a", "b\n  a"].map (enumContext ["a", "b\n  a"] true).enumText), rfl,
      by decide +kernel⟩⟩

end ShapeSdl
