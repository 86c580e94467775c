import Monkey.Number.Numeral
import Monkey.Tree.Printer
import Monkey.Value

/-!
# Keys of dictionaries

A dictionary finds its values by hash keys. Integers, truth values and strings have hash keys of
their own; a binary number has its residue as hash key, so different binary numbers can share one.
A NaN is found by its payload.

The pairs of a dictionary stand in the order in which their hash keys first appeared. Inserting a
pair under a hash key that is there already replaces key and value and keeps the place.
-/

namespace Monkey

/-- What a dictionary compares instead of keys. -/
inductive HashKey where
  | int (n : Int)
  | residue (r : Int)
  | nan (payload : Nat)
  | bool (b : Bool)
  | str (s : String)
  deriving DecidableEq, Repr

namespace HashKey

/-- A hash key can be used unless it is an integer with too many digits. -/
def usable (key : HashKey) : Except Unprintable HashKey :=
  match key with
  | int n => if (Numeral.ofInt? n).isSome then .ok key else .error .tooManyDigits
  | _ => .ok key

/-- The number of a hash key, where it has one. -/
def number? : HashKey → Option Int
  | int n => some n
  | residue r => some r
  | bool b => some (if b then 1 else 0)
  | nan _ | str _ => none

end HashKey

namespace Value

/-- The hash key of a value, if values of its kind can be keys. -/
def hashKey? : Value → Option HashKey
  | int n => some (.int n)
  | float (.nan payload) => some (.nan payload)
  | float x => some (.residue x.residue)
  | bool b => some (.bool b)
  | str s => some (.str s)
  | _ => none

end Value

/-- Pairs in the order in which their hash keys first appeared. -/
abbrev Pairs := List (Value × Value)

namespace Pairs

/-- Whether a pair is filed under a hash key. -/
def filedUnder (hash : HashKey) (pair : Value × Value) : Bool :=
  pair.1.hashKey? = some hash

/-- The value under a hash key. -/
def find? (pairs : Pairs) (hash : HashKey) : Option Value :=
  (List.find? (filedUnder hash) pairs).map Prod.snd

/-- Puts a pair under a hash key. -/
def insert (hash : HashKey) (pair : Value × Value) : Pairs → Pairs
  | [] => [pair]
  | first :: rest =>
    if filedUnder hash first then pair :: rest else first :: insert hash pair rest

end Pairs

end Monkey
