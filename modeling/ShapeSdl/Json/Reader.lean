import ShapeSdl.Entries
import ShapeSdl.Json
import ShapeSdl.Text.Symbol

/-!
# Reading JSON text

* `Json.read`, `Json.read?` : the value that a text writes, or why it writes none. `NaN`, `Infinity`
  and `-Infinity` are numbers; a key that is repeated keeps its first place and takes its last
  value;
* `Reader.number`, `Reader.string` : the leaves. A number with a point or an exponent is fractional,
  any other whole, of at most `Reader.maxDigits` digits; a string holds no control character, and
  half a surrogate pair is a symbol of its own;
* `Reader.value`, `Reader.items`, `Reader.members` : a value, and what is between brackets. The
  number of steps is bounded by twice the length of the text, because each character is passed
  in at most two of them.
-/

namespace ShapeSdl.Json

inductive ReadFault where
  | malformed
  /-- A whole number has more digits than `Reader.maxDigits`. -/
  | numberTooLong
deriving DecidableEq

namespace Reader

/-- A value at the beginning of a text, with the text behind it. -/
abbrev Result (α : Type) := Except ReadFault (α × List Char)

def isBlank (c : Char) : Bool := c = ' ' || c = '\t' || c = '\n' || c = '\r'

def skipBlanks (cs : List Char) : List Char := cs.dropWhile isBlank

/-! ## Numbers -/

def ofDigits (digits : List Char) : Nat :=
  digits.foldl (fun n c => 10 * n + (c.toNat - '0'.toNat)) 0

/-- The digits behind a point, none without a point or without a digit behind it. -/
def fraction : List Char → Option (List Char) × List Char
  | '.' :: rest =>
    let digits := rest.takeWhile Char.isDigit
    if digits.isEmpty then (none, '.' :: rest) else (some digits, rest.dropWhile Char.isDigit)
  | cs => (none, cs)

/-- The number behind an exponent mark, none without a mark or without a digit behind it. -/
def exponent : List Char → Option Int × List Char
  | c :: rest =>
    if c = 'e' ∨ c = 'E' then
      let (negative, body) := match rest with
        | '-' :: body => (true, body)
        | '+' :: body => (false, body)
        | body => (false, body)
      let digits := body.takeWhile Char.isDigit
      if digits.isEmpty then (none, c :: rest)
      else
        let n : Int := ofDigits digits
        (some (if negative then -n else n), body.dropWhile Char.isDigit)
    else (none, c :: rest)
  | [] => (none, [])

/-- The greatest number of digits that a whole number may have. -/
def maxDigits : Nat := 4300

def number (cs : List Char) : Result Json :=
  let (negative, body) := match cs with
    | '-' :: body => (true, body)
    | body => (false, body)
  let whole := body.takeWhile Char.isDigit
  if whole = [] ∨ (whole.head? = some '0' ∧ whole.length ≠ 1) then .error .malformed
  else
    let (fraction, rest) := fraction (body.dropWhile Char.isDigit)
    let (exponent, rest) := exponent rest
    match fraction, exponent with
    | none, none =>
      if maxDigits < whole.length then .error .numberTooLong
      else
        let n : Int := ofDigits whole
        .ok (int (if negative then -n else n), rest)
    | _, _ =>
      let behind := fraction.getD []
      let scale : Int := exponent.getD 0 - behind.length
      .ok (float (.ofDecimal negative (ofDigits (whole ++ behind)) scale), rest)

/-! ## Strings -/

def hexDigit? (c : Char) : Option Nat :=
  if c.isDigit then some (c.toNat - '0'.toNat)
  else if 'a' ≤ c ∧ c ≤ 'f' then some (c.toNat - 'a'.toNat + 10)
  else if 'A' ≤ c ∧ c ≤ 'F' then some (c.toNat - 'A'.toNat + 10)
  else none

def hexUnit? : List Char → Option (Nat × List Char)
  | a :: b :: c :: d :: rest => do
    let n ← [a, b, c, d].foldlM (fun n c => do return 16 * n + (← hexDigit? c)) 0
    return (n, rest)
  | _ => none

/-- The second half of a surrogate pair, written at the beginning of a text. -/
def lowSurrogate? : List Char → Option (Nat × List Char)
  | '\\' :: 'u' :: rest => do
    let (n, rest) ← hexUnit? rest
    guard (0xDC00 ≤ n ∧ n ≤ 0xDFFF)
    return (n, rest)
  | _ => none

/-- The symbol of an escape by number, behind its `u`. -/
def unicodeEscape? (cs : List Char) : Option (Text.Symbol × List Char) := do
  let (n, rest) ← hexUnit? cs
  if h : 0xD800 ≤ n ∧ n ≤ 0xDFFF then
    match if n ≤ 0xDBFF then lowSurrogate? rest else none with
    | some (low, rest) =>
      return (.char (Char.ofNat (0x10000 + (n - 0xD800) * 0x400 + (low - 0xDC00))), rest)
    | none => return (.half ⟨n - 0xD800, by omega⟩, rest)
  else return (.char (Char.ofNat n), rest)

/-- The characters that a backslash and one character write. -/
def escapes : List (Char × Char) :=
  [('"', '"'), ('\\', '\\'), ('/', '/'), ('b', '\x08'), ('f', '\x0c'), ('n', '\n'), ('r', '\r'),
    ('t', '\t')]

/-- A string behind its opening mark, `done` being its characters so far, the last one first. -/
def string : Nat → List Char → List Char → Result String
  | 0, _, _ => .error .malformed
  | steps + 1, done, cs =>
    match cs with
    | [] => .error .malformed
    | '"' :: rest => .ok (String.ofList done.reverse, rest)
    | '\\' :: 'u' :: rest =>
      match unicodeEscape? rest with
      | some (x, rest) => string steps (x.spell.reverse ++ done) rest
      | none => .error .malformed
    | '\\' :: c :: rest =>
      match escapes.lookup c with
      | some e => string steps (e :: done) rest
      | none => .error .malformed
    | c :: rest => if c.toNat < 0x20 then .error .malformed else string steps (c :: done) rest

/-! ## Values -/

def words : List (String × Json) :=
  [("null", null), ("true", bool true), ("false", bool false), ("NaN", float .nan),
    ("Infinity", float (.infinity false)), ("-Infinity", float (.infinity true))]

def atom (cs : List Char) : Result Json :=
  match words.find? fun w => w.1.toList.isPrefixOf cs with
  | some (word, value) => .ok (value, cs.drop word.length)
  | none => number cs

mutual

def value : Nat → List Char → Result Json
  | 0, _ => .error .malformed
  | steps + 1, cs =>
    match cs with
    | '"' :: rest =>
      match string (rest.length + 1) [] rest with
      | .ok (s, rest) => .ok (str s, rest)
      | .error e => .error e
    | '[' :: rest =>
      match skipBlanks rest with
      | ']' :: rest => .ok (arr [], rest)
      | rest => items steps [] rest
    | '{' :: rest =>
      match skipBlanks rest with
      | '}' :: rest => .ok (obj [], rest)
      | rest => members steps [] rest
    | _ => atom cs

/-- The items of a list behind `done`, the last one first, and the closing bracket. -/
def items : Nat → List Json → List Char → Result Json
  | 0, _, _ => .error .malformed
  | steps + 1, done, cs =>
    match value steps cs with
    | .error e => .error e
    | .ok (v, rest) =>
      match skipBlanks rest with
      | ',' :: rest => items steps (v :: done) (skipBlanks rest)
      | ']' :: rest => .ok (arr (v :: done).reverse, rest)
      | _ => .error .malformed

/-- The entries of an object behind `done`, the last one first, and the closing brace. -/
def members : Nat → List (String × Json) → List Char → Result Json
  | 0, _, _ => .error .malformed
  | steps + 1, done, cs =>
    match cs with
    | '"' :: rest =>
      match string (rest.length + 1) [] rest with
      | .error e => .error e
      | .ok (key, rest) =>
        match skipBlanks rest with
        | ':' :: rest =>
          match value steps (skipBlanks rest) with
          | .error e => .error e
          | .ok (v, rest) =>
            match skipBlanks rest with
            | ',' :: rest => members steps ((key, v) :: done) (skipBlanks rest)
            | '}' :: rest => .ok (obj (Entries.ofList ((key, v) :: done).reverse).toList, rest)
            | _ => .error .malformed
        | _ => .error .malformed
    | _ => .error .malformed

end

end Reader

/-- The value that a text writes, or why it writes none. -/
def read (s : String) : Except ReadFault Json :=
  let cs := s.toList
  match Reader.value (2 * cs.length + 2) (Reader.skipBlanks cs) with
  | .error e => .error e
  | .ok (v, rest) => if (Reader.skipBlanks rest).isEmpty then .ok v else .error .malformed

def read? (s : String) : Option Json := (read s).toOption

end ShapeSdl.Json
