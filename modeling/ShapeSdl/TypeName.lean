import ShapeSdl.Text.Split

/-!
# Type names

* `TypeName.words` : the words of a text, read from the left: a run of small letters, a capital with
  the small letters after it, or a run of digits. Letters and digits are those of ASCII, everything
  else only separates;
* `TypeName.pascal` : the words with their first letters raised, put together;
* `TypeName.fileName`, `TypeName.ofFile` : the last part of a file's path, and the type name that
  the part of it before the first point gives.
-/

namespace ShapeSdl.TypeName

theorem length_dropWhile_le {α : Type} (p : α → Bool) : ∀ (xs : List α),
    (xs.dropWhile p).length ≤ xs.length
  | [] => Nat.le_refl 0
  | x :: xs => by
    have := length_dropWhile_le p xs
    simp only [List.dropWhile]
    split <;> simp only [List.length_cons] <;> omega

/-- Whether `d` goes on with a word that begins with `c`: digits with digits, and small letters with
letters. -/
def continues (c d : Char) : Bool := if c.isDigit then d.isDigit else d.isLower

def words : List Char → List (List Char)
  | [] => []
  | c :: rest =>
    if c.isAlphanum then (c :: rest.takeWhile (continues c)) :: words (rest.dropWhile (continues c))
    else words rest
termination_by cs => cs.length
decreasing_by
  all_goals have := length_dropWhile_le (continues c) rest
  all_goals simp only [List.length_cons]; omega

def capitalize : List Char → List Char
  | [] => []
  | c :: rest => c.toUpper :: rest

/-- The words of a text put together, each with its first letter raised. -/
def pascal (s : String) : String := String.ofList ((words s.toList).flatMap capitalize)

/-! ## File names -/

/-- The last part of a path; empty parts and single points do not count. -/
def fileName (path : String) : String :=
  ((Text.split '/' path).filter fun part => part ≠ "" ∧ part ≠ ".").getLastD ""

/-- The type name that a file's name gives: `pet_store.schema.json` gives `PetStore`. -/
def ofFile (path : String) : String :=
  pascal (String.ofList ((fileName path).toList.takeWhile (· ≠ '.')))

end ShapeSdl.TypeName
