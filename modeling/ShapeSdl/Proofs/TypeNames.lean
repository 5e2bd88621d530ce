import ShapeSdl.TypeName

/-!
# Type names in one pass

* `TypeName.recase` : the letters and digits of a text, read once from the left. A small letter is
  raised unless a letter stands right before it;
* `TypeName.pascal_eq` : the words of a text, put together, are these letters and digits;
* `TypeName.pascal_pascal` : a type name is its own type name;
* `TypeName.isAlphanum_of_mem_pascal` : it has no characters but letters and digits;
* `TypeName.pascal_ne_empty_iff` : only a text without a letter or a digit gives no name.
-/

namespace ShapeSdl.TypeName

variable {c : Char} {cs : List Char}

/-! ## Raised letters -/

theorem isLower_iff : c.isLower = true ↔ 97 ≤ c.toNat ∧ c.toNat ≤ 122 := by
  unfold Char.isLower
  simp [UInt32.le_iff_toNat_le]

theorem isUpper_iff : c.isUpper = true ↔ 65 ≤ c.toNat ∧ c.toNat ≤ 90 := by
  unfold Char.isUpper
  simp [UInt32.le_iff_toNat_le]

theorem isDigit_iff : c.isDigit = true ↔ 48 ≤ c.toNat ∧ c.toNat ≤ 57 := by
  unfold Char.isDigit
  simp [UInt32.le_iff_toNat_le]

theorem isAlpha_iff : c.isAlpha = true ↔
    65 ≤ c.toNat ∧ c.toNat ≤ 90 ∨ 97 ≤ c.toNat ∧ c.toNat ≤ 122 := by
  rw [← isUpper_iff, ← isLower_iff]
  exact Bool.or_eq_true_iff

theorem isAlphanum_iff : c.isAlphanum = true ↔ c.isAlpha = true ∨ c.isDigit = true :=
  Bool.or_eq_true_iff

theorem toUpper_of_not_isLower (h : ¬ c.isLower = true) : c.toUpper = c := by
  have hrange : ¬ ('a'.val ≤ c.val ∧ c.val ≤ 'z'.val) := by
    rw [isLower_iff] at h
    exact h
  unfold Char.toUpper
  exact dif_neg hrange

theorem toNat_toUpper (h : c.isLower = true) : c.toUpper.toNat + 32 = c.toNat := by
  rw [isLower_iff] at h
  have hrange : 'a'.val ≤ c.val ∧ c.val ≤ 'z'.val := h
  unfold Char.toUpper
  rw [dif_pos hrange]
  show (c.val + ('A'.val - 'a'.val)).toNat + 32 = c.val.toNat
  have hval : 97 ≤ c.val.toNat ∧ c.val.toNat ≤ 122 := h
  rw [UInt32.toNat_add]
  simp
  omega

theorem not_isLower_toUpper (c : Char) : ¬ c.toUpper.isLower = true := by
  by_cases h : c.isLower = true
  · have hupper := toNat_toUpper h
    rw [isLower_iff] at h ⊢
    omega
  · rwa [toUpper_of_not_isLower h]

theorem isAlpha_toUpper (c : Char) : c.toUpper.isAlpha = c.isAlpha := by
  by_cases h : c.isLower = true
  · have hupper := toNat_toUpper h
    rw [isLower_iff] at h
    rw [Bool.eq_iff_iff, isAlpha_iff, isAlpha_iff]
    omega
  · rw [toUpper_of_not_isLower h]

theorem isAlphanum_toUpper (h : c.isAlphanum = true) : c.toUpper.isAlphanum = true := by
  by_cases hl : c.isLower = true
  · have halpha : c.isAlpha = true := isAlpha_iff.2 (.inr (isLower_iff.1 hl))
    exact isAlphanum_iff.2 (.inl ((isAlpha_toUpper c).trans halpha))
  · rwa [toUpper_of_not_isLower hl]

theorem isAlpha_eq_not_isDigit (h : c.isAlphanum = true) : c.isAlpha = !c.isDigit := by
  rw [isAlphanum_iff, isAlpha_iff, isDigit_iff] at h
  rw [Bool.eq_iff_iff, Bool.not_eq_true', ← Bool.not_eq_true, isAlpha_iff, isDigit_iff]
  omega

/-- What goes on with a word is a letter behind a letter and a digit behind a digit, and it is no
capital. -/
theorem of_continues {d : Char} (hc : c.isAlphanum = true) (h : continues c d = true) :
    d.isAlphanum = true ∧ d.isAlpha = c.isAlpha ∧ (c.isAlpha = false → d.toUpper = d) := by
  rw [isAlpha_eq_not_isDigit hc]
  unfold continues at h
  split at h
  · rename_i hdigit
    have hd : d.isAlphanum = true := isAlphanum_iff.2 (.inr h)
    refine ⟨hd, by rw [isAlpha_eq_not_isDigit hd, h, hdigit], fun _ => ?_⟩
    rw [isDigit_iff] at h
    refine toUpper_of_not_isLower fun hl => ?_
    rw [isLower_iff] at hl
    omega
  · rename_i hletter
    have halpha : d.isAlpha = true := isAlpha_iff.2 (.inr (isLower_iff.1 h))
    simp [isAlphanum_iff, halpha, hletter]

/-! ## One pass -/

/-- The letters and digits, with those small letters raised that stand right behind no letter.
`afterLetter` says whether a letter stands before the first character. -/
def recase (afterLetter : Bool) : List Char → List Char
  | [] => []
  | c :: rest =>
    if c.isAlphanum then (if afterLetter then c else c.toUpper) :: recase c.isAlpha rest
    else recase false rest

/-- Behind a character of a word the word goes on as it is. -/
theorem recase_isAlpha (hc : c.isAlphanum = true) (rest : List Char) :
    recase c.isAlpha rest =
      rest.takeWhile (continues c) ++ recase false (rest.dropWhile (continues c)) := by
  induction rest with
  | nil => rfl
  | cons d rest ih =>
    cases hd : continues c d with
    | true =>
      obtain ⟨hword, halpha, hupper⟩ := of_continues hc hd
      have hkept : (if c.isAlpha = true then d else d.toUpper) = d := by
        split
        · rfl
        · exact hupper (by simp_all)
      rw [List.takeWhile_cons_of_pos hd, List.dropWhile_cons_of_pos hd, recase, if_pos hword, hkept,
        halpha, ih, List.cons_append]
    | false =>
      -- A new word begins, and its first letter is raised, or it is none that could be.
      have hraised : c.isAlpha = true → d.toUpper = d := by
        intro halpha
        have hdigit : c.isDigit = false := by simpa [isAlpha_eq_not_isDigit hc] using halpha
        exact toUpper_of_not_isLower (by simpa [continues, hdigit] using hd)
      rw [List.takeWhile_cons_of_neg (by simp [hd]), List.dropWhile_cons_of_neg (by simp [hd]),
        List.nil_append, recase, recase]
      split
      · cases halpha : c.isAlpha with
        | false => rfl
        | true => simp [hraised halpha]
      · rfl

/-- The words of a text are its letters and digits, read once. -/
theorem flatMap_words (cs : List Char) : (words cs).flatMap capitalize = recase false cs := by
  fun_induction words cs with
  | case1 => rfl
  | case2 c rest hc ih =>
    rw [List.flatMap_cons, ih, recase, if_pos hc, recase_isAlpha hc]
    rfl
  | case3 c rest hc ih => rw [recase, if_neg hc, ih]

theorem pascal_eq (s : String) : pascal s = String.ofList (recase false s.toList) := by
  rw [pascal, flatMap_words]

theorem recase_recase {afterLetter afterLetter' : Bool}
    (h : afterLetter = true → afterLetter' = true) (cs : List Char) :
    recase afterLetter' (recase afterLetter cs) = recase afterLetter cs := by
  induction cs generalizing afterLetter afterLetter' with
  | nil => rfl
  | cons c rest ih =>
    rw [recase]
    split
    · rename_i hc
      have hword : (if afterLetter = true then c else c.toUpper).isAlphanum = true := by
        split
        · exact hc
        · exact isAlphanum_toUpper hc
      have halpha : (if afterLetter = true then c else c.toUpper).isAlpha = c.isAlpha := by
        split
        · rfl
        · exact isAlpha_toUpper c
      have hkept : (if afterLetter' = true then (if afterLetter = true then c else c.toUpper)
          else (if afterLetter = true then c else c.toUpper).toUpper) =
            if afterLetter = true then c else c.toUpper := by
        cases afterLetter with
        | true => simp [h rfl]
        | false => simp [toUpper_of_not_isLower (not_isLower_toUpper c)]
      rw [recase, if_pos hword, halpha, hkept, ih id]
    · exact ih nofun

theorem pascal_pascal (s : String) : pascal (pascal s) = pascal s := by
  rw [pascal_eq (pascal s), pascal_eq s, String.toList_ofList, recase_recase id]

theorem recase_eq_nil_iff {afterLetter : Bool} :
    recase afterLetter cs = [] ↔ ∀ c ∈ cs, c.isAlphanum = false := by
  induction cs generalizing afterLetter with
  | nil => simp [recase]
  | cons c rest ih =>
    rw [recase]
    split
    · simp [*]
    · simp_all

theorem isAlphanum_of_mem_recase {afterLetter : Bool} {cs : List Char} {c : Char}
    (h : c ∈ recase afterLetter cs) : c.isAlphanum = true := by
  induction cs generalizing afterLetter with
  | nil => cases h
  | cons d rest ih =>
    rw [recase] at h
    split at h
    · rename_i hd
      rcases List.mem_cons.1 h with rfl | h
      · split
        · exact hd
        · exact isAlphanum_toUpper hd
      · exact ih h
    · exact ih h

theorem isAlphanum_of_mem_pascal {s : String} {c : Char} (h : c ∈ (pascal s).toList) :
    c.isAlphanum = true := by
  rw [pascal_eq, String.toList_ofList] at h
  exact isAlphanum_of_mem_recase h

theorem pascal_ne_empty_iff (s : String) : pascal s ≠ "" ↔ ∃ c ∈ s.toList, c.isAlphanum = true := by
  have hempty : pascal s = "" ↔ recase false s.toList = [] := by
    rw [pascal_eq, ← String.toList_inj, String.toList_ofList]
    rfl
  rw [ne_eq, hempty, recase_eq_nil_iff]
  simp

end ShapeSdl.TypeName
