import Monkey.Number.Decimal
import Monkey.Text.Blank
import Monkey.Text.Digit

/-!
# Numerals

How integers and binary numbers are read from text and written as text.

Around a numeral blanks are skipped. Its digits may be those of any script, and single underscores
may stand between digits. Integers of more than 4300 digits are neither read nor written.
-/

namespace Monkey

namespace Numeral

open Text

/-- The greatest number of digits an integer may have in text. -/
def digitLimit : Nat := 4300

/-- The text of an integer, unless it has too many digits. -/
def ofInt? (n : Int) : Option String :=
  if Nat.pow 10 digitLimit ≤ n.natAbs then none
  else
    let digits := Decimal.digitText n.natAbs
    some (String.ofList (if n < 0 then '-' :: digits else digits))

/-! ## Reading -/

/-- The text without the blanks around it. -/
def trim (cs : List Char) : List Char :=
  ((cs.dropWhile isMarginBlank).reverse.dropWhile isMarginBlank).reverse

/-- The sign in front of a numeral, if there is one: whether it is negative, and what follows. -/
def splitSign : List Char → Bool × List Char
  | '-' :: cs => (true, cs)
  | '+' :: cs => (false, cs)
  | cs => (false, cs)

/-- Whether a decimal digit comes first. -/
def startsWithDigit (cs : List Char) : Bool := (cs.head?.bind decimalValue?).isSome

/-- The text without the underscores that stand between two digits; any other underscore is
refused. The flag tells whether the character before the text is a digit. -/
def joinGroups : Bool → List Char → Option (List Char)
  | _, [] => some []
  | afterDigit, c :: cs =>
    if c = '_' then
      if afterDigit && startsWithDigit cs then joinGroups false cs else none
    else (joinGroups (decimalValue? c).isSome cs).map (c :: ·)

/-- The values of the digits that come first, and what follows them. -/
def splitDigits (cs : List Char) : List Nat × List Char :=
  ((cs.takeWhile fun c => (decimalValue? c).isSome).filterMap decimalValue?,
    cs.dropWhile fun c => (decimalValue? c).isSome)

/-- The number with these decimal digits. -/
def ofDigits (ds : List Nat) : Nat := ds.foldl (fun n d => 10 * n + d) 0

/-- A magnitude with its sign. -/
def withSign (negative : Bool) (n : Nat) : Int := if negative then -(n : Int) else n

/-- Reads digits and nothing else, with an optional sign in front of them. -/
def readSigned? (cs : List Char) : Option (Bool × List Nat) :=
  let (negative, cs) := splitSign cs
  match splitDigits cs with
  | ([], _) => none
  | (ds, []) => some (negative, ds)
  | _ => none

/-- Reads an integer: blanks around it, an optional sign, and at most 4300 digits. -/
def readInt? (text : String) : Option Int := do
  let cs ← joinGroups false (trim text.toList)
  let (negative, ds) ← readSigned? cs
  if digitLimit < ds.length then none else some (withSign negative (ofDigits ds))

/-- Reads an exponent part: a mark, an optional sign, and digits. -/
def readExponent? : List Char → Option Int
  | [] => some 0
  | mark :: cs =>
    if mark = 'e' ∨ mark = 'E' then
      (readSigned? cs).map fun (negative, ds) => withSign negative (ofDigits ds)
    else none

/-- The fraction digits behind a point, and what follows them. -/
def splitFraction : List Char → List Nat × List Char
  | '.' :: cs => splitDigits cs
  | cs => ([], cs)

/-- The value that a word stands for, in either case of letters. -/
def namedMagnitude? (cs : List Char) : Option Binary64 :=
  match String.ofList (cs.map Char.toLower) with
  | "inf" => some (.infinite false)
  | "infinity" => some (.infinite false)
  | "nan" => some (.nan 0)
  | _ => none

/-- Reads a magnitude written with digits: digits with an optional fraction and exponent, at least
one digit before the exponent. -/
def readMagnitude? (negative : Bool) (cs : List Char) : Option Binary64 :=
  let (whole, afterWhole) := splitDigits cs
  let (fraction, afterFraction) := splitFraction afterWhole
  let digits := (whole ++ fraction).dropWhile (· = 0)
  if whole ++ fraction = [] then none
  else (readExponent? afterFraction).map fun e =>
    let d : Decimal := ⟨ofDigits digits, e - fraction.length⟩
    d.toBinary64 negative digits.length

/-- Reads a binary number: blanks around it, an optional sign, and either digits or a word for
infinity or NaN. The value is rounded to the nearest number. -/
def readBinary64? (text : String) : Option Binary64 := do
  let cs ← joinGroups false (trim text.toList)
  let (negative, cs) := splitSign cs
  match namedMagnitude? cs with
  | some x => some (if negative then x.neg else x)
  | none => readMagnitude? negative cs

end Numeral

end Monkey
