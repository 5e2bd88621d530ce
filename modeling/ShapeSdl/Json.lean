import ShapeSdl.Decimal
import ShapeSdl.Entries
import ShapeSdl.Text.Quoted

/-!
# JSON values

* `Json` : a value as it is written, an object being its entries in order; whole and fractional
  numbers are different values, so `2` and `2.0` stay apart;
* `Json.isTruthy` : whether a value counts as set: null, false, zero and what is empty do not;
* `Json.sizeOf_lt_of_lookup` : an entry is smaller than its object, which is why reading a document
  ends;
* `Json.quoted`, `Json.plain` : a value as it appears in a message, texts between quotation marks,
  and the same, except that a text stands for itself. `Json.numberStyle` says how fractional numbers
  are written, `Json.kindName` what kind of value it is;
* `Json.Number`, `Json.number?` : the number that a value stands for, exactly. Truth values stand
  for zero and one;
* `Json.sameKey` : whether two values are the same key: equal texts, equal numbers, or both null.
  Entries may also be written as a list of pairs, whose keys are values of any kind but lists and
  objects;
* `Json.putKey`, `Json.textEntries` : pairs with one more, where a key keeps the form in which it
  was first written and takes the last value, and the entries of pairs under the texts of their
  keys;
* `Json.isSmall`, `Json.Item`, `Json.Item.distinct` : which values of a document are one and the same.
  Names are registered for what a thing is and not for what it looks like. That is clear for nodes;
  values have a rule of their own: a small one is the same wherever it is written, any other is a new
  one in every place, and a document has every key once.
-/

namespace ShapeSdl

/-- A JSON value. The entries of an object keep their order. -/
inductive Json where
  | null
  | bool (b : Bool)
  | int (n : Int)
  | float (x : Double)
  | str (s : String)
  | arr (items : List Json)
  | obj (entries : List (String × Json))

namespace Json

instance : Inhabited Json := ⟨null⟩

/-! ## Equality -/

mutual

def decEq : (a b : Json) → Decidable (a = b)
  | null, b => match b with
    | null => isTrue rfl
    | bool _ | int _ | float _ | str _ | arr _ | obj _ => isFalse nofun
  | bool x, b => match b with
    | bool y => decidable_of_iff (x = y) (by simp)
    | null | int _ | float _ | str _ | arr _ | obj _ => isFalse nofun
  | int x, b => match b with
    | int y => decidable_of_iff (x = y) (by simp)
    | null | bool _ | float _ | str _ | arr _ | obj _ => isFalse nofun
  | float x, b => match b with
    | float y => decidable_of_iff (x = y) (by simp)
    | null | bool _ | int _ | str _ | arr _ | obj _ => isFalse nofun
  | str x, b => match b with
    | str y => decidable_of_iff (x = y) (by simp)
    | null | bool _ | int _ | float _ | arr _ | obj _ => isFalse nofun
  | arr xs, b => match b with
    | arr ys => match decEqItems xs ys with
      | isTrue h => isTrue (h ▸ rfl)
      | isFalse h => isFalse fun e => h (by injection e)
    | null | bool _ | int _ | float _ | str _ | obj _ => isFalse nofun
  | obj xs, b => match b with
    | obj ys => match decEqEntries xs ys with
      | isTrue h => isTrue (h ▸ rfl)
      | isFalse h => isFalse fun e => h (by injection e)
    | null | bool _ | int _ | float _ | str _ | arr _ => isFalse nofun

def decEqItems : (xs ys : List Json) → Decidable (xs = ys)
  | [], [] => isTrue rfl
  | [], _ :: _ | _ :: _, [] => isFalse nofun
  | x :: xs, y :: ys => match decEq x y, decEqItems xs ys with
    | isTrue h, isTrue hs => isTrue (h ▸ hs ▸ rfl)
    | isFalse h, _ => isFalse fun e => h (List.cons.inj e).1
    | _, isFalse hs => isFalse fun e => hs (List.cons.inj e).2

def decEqEntries : (xs ys : List (String × Json)) → Decidable (xs = ys)
  | [], [] => isTrue rfl
  | [], _ :: _ | _ :: _, [] => isFalse nofun
  | (k, x) :: xs, (l, y) :: ys =>
    if hk : k = l then
      match decEq x y, decEqEntries xs ys with
      | isTrue h, isTrue hs => isTrue (hk ▸ h ▸ hs ▸ rfl)
      | isFalse h, _ => isFalse fun e => h (Prod.mk.inj (List.cons.inj e).1).2
      | _, isFalse hs => isFalse fun e => hs (List.cons.inj e).2
    else isFalse fun e => hk (Prod.mk.inj (List.cons.inj e).1).1

end

instance : DecidableEq Json := decEq

/-! ## Reading parts -/

def isTruthy : Json → Bool
  | null => false
  | bool b => b
  | int n => n != 0
  | float x => !x.isZero
  | str s => s != ""
  | arr items => !items.isEmpty
  | obj entries => !entries.isEmpty

def get? (key : String) : Json → Option Json
  | obj entries => entries.lookup key
  | _ => none

/-! ## Size -/

theorem sizeOf_lt_of_lookup {key : String} {v : Json} : ∀ {entries : List (String × Json)},
    entries.lookup key = some v → sizeOf v < sizeOf entries
  | [], h => nomatch h
  | (k, w) :: rest, h => by
    rw [Entries.lookup_cons_ite] at h
    split at h
    · cases h; simp only [List.cons.sizeOf_spec, Prod.mk.sizeOf_spec]; omega
    · have := sizeOf_lt_of_lookup h
      simp only [List.cons.sizeOf_spec]; omega

theorem sizeOf_lt_of_get? {key : String} {v j : Json} (h : j.get? key = some v) :
    sizeOf v < sizeOf j := by
  cases j with
  | obj entries =>
    have := sizeOf_lt_of_lookup h
    simp only [obj.sizeOf_spec]; omega
  | _ => exact nomatch h

theorem sizeOf_lt_of_mem_entries {entries : List (String × Json)} {e : String × Json}
    (h : e ∈ entries) : sizeOf e.2 < sizeOf entries := by
  have := List.sizeOf_lt_of_mem h
  cases e; simp only [Prod.mk.sizeOf_spec] at this ⊢; omega

/-! ## Inside running text -/

/-- Positional from `0.0001` up to below `10 ^ 16`, else with a signed exponent of at least two
digits. -/
def numberStyle : Decimal.Style where
  firstPositional := -4
  pastPositional := 16
  exponentMark := "e"
  minExponentDigits := 2
  infinity := "inf"
  nan := "nan"

mutual

def quoted : Json → String
  | null => "None"
  | bool true => "True"
  | bool false => "False"
  | int n => toString n
  | float x => x.render numberStyle
  | str s => Text.quoted s
  | arr items => "[" ++ ", ".intercalate (quotedItems items) ++ "]"
  | obj entries => "\x7b" ++ ", ".intercalate (quotedEntries entries) ++ "\x7d"

def quotedItems : List Json → List String
  | [] => []
  | x :: xs => quoted x :: quotedItems xs

def quotedEntries : List (String × Json) → List String
  | [] => []
  | (k, x) :: xs => (Text.quoted k ++ ": " ++ quoted x) :: quotedEntries xs

end

def plain : Json → String
  | str s => s
  | v => quoted v

def kindName : Json → String
  | null => "NoneType"
  | bool _ => "bool"
  | int _ => "int"
  | float _ => "float"
  | str _ => "str"
  | arr _ => "list"
  | obj _ => "dict"

@[simp] theorem plain_str (s : String) : (str s).plain = s := rfl

/-! ## As keys -/

inductive Number where
  | whole (n : Int)
  /-- A number that is not whole, an infinity, or none. -/
  | other (x : Double)
deriving DecidableEq

/-- The number that a value stands for, if it stands for one. -/
def number? : Json → Option Number
  | bool b => some (.whole (if b then 1 else 0))
  | int n => some (.whole n)
  | float x => some (match x.whole? with
    | some n => .whole n
    | none => .other x)
  | _ => none

/-- Whether two numbers are equal. What is not a number equals nothing. -/
def Number.same : Number → Number → Bool
  | whole m, whole n => m = n
  | other x, other y => x = y ∧ ¬ x.isNaN
  | _, _ => false

/-- Whether two values are the same key. -/
def sameKey : Json → Json → Bool
  | null, null => true
  | str s, str t => s = t
  | a, b => match a.number?, b.number? with
    | some m, some n => m.same n
    | _, _ => false

/-- Pairs with `v` under `k`: in the place of the value of the same key if there is one, else at the
end. -/
def putKey (k v : Json) : List (Json × Json) → List (Json × Json)
  | [] => [(k, v)]
  | (k', v') :: rest => if sameKey k' k then (k', v) :: rest else (k', v') :: putKey k v rest

/-- The entries that pairs make, under the texts of their keys. -/
def textEntries (pairs : List (Json × Json)) : Entries String Json :=
  let different := pairs.foldl (fun done (k, v) => putKey k v done) []
  .ofList (different.map fun (k, v) => (k.plain, v))

/-! ## One and the same -/

def isSmall : Json → Bool
  | null | bool _ => true
  | int n => -5 ≤ n ∧ n ≤ 256
  | float x => !x.isFinite
  | str s => match Text.symbols s.toList with
    | [] => true
    | [x] => x.code < 0x100
    | _ => false
  | _ => false

inductive Item where
  | value (v : Json)
  | key (s : String)
deriving DecidableEq

namespace Item

/-- The item of a key. A small one is the same as the value. -/
def ofKey (s : String) : Item := if isSmall (.str s) then value (.str s) else key s

/-- Whether equal items are one and the same. -/
def isShared : Item → Bool
  | value v => v.isSmall
  | key _ => true

def distinct (items : List Item) : Nat :=
  (items.filter isShared).eraseDups.length + (items.filter fun i => !i.isShared).length

end Item

end Json

end ShapeSdl
