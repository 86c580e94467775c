import Monkey.Number.Binary64

/-!
# Decimal texts of binary numbers

A binary number is written with the fewest significant digits that read back as the same number.
On the grid of decimals with `n` digits the number has two neighbours; the first grid on which one
of them reads back decides, and of two that read back the nearer is taken, a tie going to the even
one (`shortest`).

The digits are laid out positionally if the leading digit has an exponent from -4 to 15, and
otherwise with an exponent of at least two digits (`layout`).
-/

namespace Monkey

/-- The decimal number `digits * 10 ^ exponent`. -/
structure Decimal where
  digits : Nat
  exponent : Int
  deriving DecidableEq, Repr, Inhabited

namespace Decimal

/-- The decimal digits of a natural number. -/
def digitText (n : Nat) : List Char := Nat.toDigits 10 n

/-- `digits * 10 ^ exponent` as a numerator and a denominator. -/
def ratio (d : Decimal) : Nat × Nat :=
  if 0 ≤ d.exponent then (d.digits * Nat.pow 10 d.exponent.toNat, 1)
  else (d.digits, Nat.pow 10 (-d.exponent).toNat)

/-! ## Reading -/

/-- The binary number nearest to a decimal whose digits count `count`. Far outside the range of the
format the power of ten is not computed: the value is infinity or zero there. -/
def toBinary64 (negative : Bool) (count : Nat) (d : Decimal) : Binary64 :=
  if d.digits = 0 then .zero negative
  else if 310 < count + d.exponent then .infinite negative
  else if count + d.exponent < -330 then .zero negative
  else .ofRatio negative d.ratio.1 d.ratio.2

/-! ## The fewest digits -/

/-- Whether `10 ^ k ≤ num / den`. -/
def powLeRatio (k : Int) (num den : Nat) : Bool :=
  if 0 ≤ k then den * Nat.pow 10 k.toNat ≤ num else den ≤ num * Nat.pow 10 (-k).toNat

/-- The decimal exponent of the leading digit of `num / den`. The quotient of binary logarithms
gives a guess that is off by little. -/
def leadingExponent (num den : Nat) : Int :=
  let guess := Int.fdiv (((num.log2 : Int) - (den.log2 : Int)) * 30103) 100000
  if powLeRatio (guess + 1) num den then guess + 1
  else if powLeRatio guess num den then guess
  else guess - 1

/-- `num / den` divided by `10 ^ k`, as a numerator and a denominator. -/
def shift (num den : Nat) (k : Int) : Nat × Nat :=
  if 0 ≤ k then (num, den * Nat.pow 10 k.toNat) else (num * Nat.pow 10 (-k).toNat, den)

/-- Of the two neighbours of `num / den` on the grid of step `10 ^ k`, the one that reads back as the
given number; if both do, the nearer, a tie going to the even one. -/
def onGrid? (x : Binary64) (num den : Nat) (k : Int) : Option Decimal :=
  let (a, b) := shift num den k
  let below := a / b
  let readsBack := fun n : Nat =>
    let d : Decimal := ⟨n, k⟩
    Binary64.ofRatio false d.ratio.1 d.ratio.2 = x
  let nearer := Binary64.divRoundEven a b
  let farther := if nearer = below then below + 1 else below
  if readsBack nearer then some ⟨nearer, k⟩
  else if readsBack farther then some ⟨farther, k⟩
  else none

/-- The same decimal without its trailing zeros. -/
def dropZeros : Nat → Decimal → Decimal
  | 0, d => d
  | fuel + 1, d =>
    if d.digits ≠ 0 ∧ d.digits % 10 = 0 then dropZeros fuel ⟨d.digits / 10, d.exponent + 1⟩ else d

/-- The decimal with the fewest digits that reads back as the positive number `m * 2 ^ e`. Seventeen
digits always suffice. -/
def shortest (m : Nat) (e : Int) : Decimal :=
  let (num, den) := Binary64.ratio m e
  let lead := leadingExponent num den
  let found := (List.range 17).findSome? fun (i : Nat) =>
    onGrid? (.finite false m e) num den (lead - (i : Int))
  dropZeros 20 (found.getD ⟨m, e⟩)

/-! ## Layout -/

/-- The exponent part: a sign and at least two digits. -/
def exponentText (e : Int) : List Char :=
  let digits := digitText e.natAbs
  'e' :: (if e < 0 then '-' else '+') :: (if digits.length < 2 then '0' :: digits else digits)

/-- The text of a positive decimal. -/
def layout (d : Decimal) : List Char :=
  let digits := digitText d.digits
  let count : Int := digits.length
  let point := count + d.exponent
  if -4 ≤ point - 1 ∧ point - 1 < 16 then
    if point ≤ 0 then '0' :: '.' :: (List.replicate (-point).toNat '0' ++ digits)
    else if count ≤ point then
      digits ++ List.replicate (point - count).toNat '0' ++ ['.', '0']
    else digits.take point.toNat ++ '.' :: digits.drop point.toNat
  else
    match digits with
    | first :: second :: more => first :: '.' :: second :: more ++ exponentText (point - 1)
    | _ => digits ++ exponentText (point - 1)

end Decimal

namespace Binary64

/-- The text of a binary number. -/
def text : Binary64 → String
  | nan _ => "nan"
  | infinite negative => if negative then "-inf" else "inf"
  | finite negative m e =>
    let magnitude := if m = 0 then ['0', '.', '0'] else (Decimal.shortest m e).layout
    String.ofList (if negative then '-' :: magnitude else magnitude)

end Binary64

end Monkey
