/-!
# Binary floating-point numbers

The numbers of the 64-bit binary format: a finite number is a sign, a mantissa of at most 53 bits
and a power of two. Every operation computes its exact result in integers first and rounds once,
to the nearest number of the format, a tie going to the even mantissa (`ofRatio`).

A NaN carries a payload, which tells apart NaNs that arose separately.
-/

namespace Monkey

/-- A number of the 64-bit binary format. The finite number `finite negative m e` is `± m * 2 ^ e`;
in the numbers that rounding gives, `m < 2 ^ 53`, `-1074 ≤ e ≤ 971`, and `2 ^ 52 ≤ m` unless
`e = -1074`. -/
inductive Binary64 where
  | finite (negative : Bool) (mantissa : Nat) (exponent : Int)
  | infinite (negative : Bool)
  | nan (payload : Nat)
  deriving DecidableEq, Repr, Inhabited

namespace Binary64

/-! ## Rounding -/

/-- The least exponent of the format. -/
def minExponent : Int := -1074

/-- The greatest exponent of the format. -/
def maxExponent : Int := 971

/-- Zero, with a sign. -/
def zero (negative : Bool) : Binary64 := finite negative 0 minExponent

/-- `m * 2 ^ e` as a numerator and a denominator. -/
def ratio (m : Nat) (e : Int) : Nat × Nat :=
  if 0 ≤ e then (m * Nat.pow 2 e.toNat, 1) else (m, Nat.pow 2 (-e).toNat)

/-- The quotient rounded to the nearest integer, a tie going to the even one. -/
def divRoundEven (num den : Nat) : Nat :=
  let quotient := num / den
  let twice := 2 * (num % den)
  if den < twice ∨ (twice = den ∧ quotient % 2 = 1) then quotient + 1 else quotient

/-- `num / den / 2 ^ e` rounded to an integer. -/
def mantissaAt (num den : Nat) (e : Int) : Nat :=
  if 0 ≤ e then divRoundEven num (den * Nat.pow 2 e.toNat)
  else divRoundEven (num * Nat.pow 2 (-e).toNat) den

/-- Whether `2 ^ e ≤ num / den`. -/
def powLeRatio (e : Int) (num den : Nat) : Bool :=
  if 0 ≤ e then den * Nat.pow 2 e.toNat ≤ num else den ≤ num * Nat.pow 2 (-e).toNat

/-- The exponent at which `num / den` is rounded: the one that leaves a mantissa of 53 bits, or the
least one. -/
def exponentFor (num den : Nat) : Int :=
  let guess : Int := (num.log2 : Int) - (den.log2 : Int)
  let top := if powLeRatio guess num den then guess else guess - 1
  max (top - 52) minExponent

/-- The finite number with this mantissa and exponent, or infinity if it lies beyond the format. A
mantissa that rounding has pushed to 54 bits is halved. -/
def pack (negative : Bool) (m : Nat) (e : Int) : Binary64 :=
  let (m, e) := if m = Nat.pow 2 53 then (Nat.pow 2 52, e + 1) else (m, e)
  if maxExponent < e then infinite negative else finite negative m e

/-- The number nearest to `± num / den`. -/
def ofRatio (negative : Bool) (num den : Nat) : Binary64 :=
  if num = 0 then zero negative
  else
    let e := exponentFor num den
    pack negative (mantissaAt num den e) e

/-- The number nearest to `a * 2 ^ e`, where `a` is not zero. -/
def ofScaled (a : Int) (e : Int) : Binary64 :=
  let (num, den) := ratio a.natAbs e
  ofRatio (a < 0) num den

/-- The number nearest to an integer; infinity if the integer rounds beyond the format. -/
def ofInt (n : Int) : Binary64 := ofRatio (n < 0) n.natAbs 1

/-! ## Properties -/

/-- A mantissa with its sign. -/
def signed (negative : Bool) (m : Nat) : Int := if negative then -(m : Int) else m

/-- Whether the number is zero, of either sign. -/
def isZero : Binary64 → Bool
  | finite _ m _ => m = 0
  | _ => false

/-- The integer part of a finite number: the fraction is cut off. -/
def truncate (negative : Bool) (m : Nat) (e : Int) : Int :=
  let (num, den) := ratio m e
  signed negative (num / den)

/-- The order of `a * 2 ^ e` and `b * 2 ^ f`. -/
def compareScaled (a e b f : Int) : Ordering :=
  let least := min e f
  compare (a * Nat.pow 2 (e - least).toNat) (b * Nat.pow 2 (f - least).toNat)

/-- The order of two numbers by their exact values; a NaN is not ordered. -/
def compare? : Binary64 → Binary64 → Option Ordering
  | nan _, _ => none
  | _, nan _ => none
  | infinite a, infinite b => some (compare (!a) (!b))
  | infinite negative, finite .. => some (if negative then .lt else .gt)
  | finite .., infinite negative => some (if negative then .gt else .lt)
  | finite n₁ m₁ e₁, finite n₂ m₂ e₂ => some (compareScaled (signed n₁ m₁) e₁ (signed n₂ m₂) e₂)

/-- The order of an integer and a number by their exact values. -/
def compareInt? (n : Int) : Binary64 → Option Ordering
  | nan _ => none
  | infinite negative => some (if negative then .gt else .lt)
  | finite negative m e => some (compareScaled n 0 (signed negative m) e)

/-! ## Arithmetic -/

/-- The opposite number. -/
def neg : Binary64 → Binary64
  | finite negative m e => finite (!negative) m e
  | infinite negative => infinite (!negative)
  | nan _ => nan 0

/-- The absolute value. -/
def abs : Binary64 → Binary64
  | finite _ m e => finite false m e
  | infinite _ => infinite false
  | nan _ => nan 0

/-- The sum. An exact zero is negative only as the sum of two negative zeros. -/
def add : Binary64 → Binary64 → Binary64
  | nan _, _ => nan 0
  | _, nan _ => nan 0
  | infinite a, infinite b => if a = b then infinite a else nan 0
  | infinite a, finite .. => infinite a
  | finite .., infinite b => infinite b
  | finite n₁ m₁ e₁, finite n₂ m₂ e₂ =>
    let least := min e₁ e₂
    let sum := signed n₁ m₁ * Int.pow 2 (e₁ - least).toNat +
      signed n₂ m₂ * Int.pow 2 (e₂ - least).toNat
    if sum = 0 then zero (n₁ && n₂) else ofScaled sum least

/-- The difference. -/
def sub (x y : Binary64) : Binary64 := add x (neg y)

/-- The product. -/
def mul : Binary64 → Binary64 → Binary64
  | nan _, _ => nan 0
  | _, nan _ => nan 0
  | infinite a, infinite b => infinite (a != b)
  | infinite a, finite b m _ => if m = 0 then nan 0 else infinite (a != b)
  | finite a m _, infinite b => if m = 0 then nan 0 else infinite (a != b)
  | finite n₁ m₁ e₁, finite n₂ m₂ e₂ =>
    let (num, den) := ratio (m₁ * m₂) (e₁ + e₂)
    ofRatio (n₁ != n₂) num den

/-- The quotient. A division by zero gives infinity, or a NaN for zero by zero. -/
def div : Binary64 → Binary64 → Binary64
  | nan _, _ => nan 0
  | _, nan _ => nan 0
  | infinite _, infinite _ => nan 0
  | infinite a, finite b _ _ => infinite (a != b)
  | finite a _ _, infinite b => zero (a != b)
  | finite n₁ m₁ e₁, finite n₂ m₂ e₂ =>
    if m₂ = 0 then if m₁ = 0 then nan 0 else infinite (n₁ != n₂)
    else
      let (num, den) := ratio m₁ (e₁ - e₂)
      ofRatio (n₁ != n₂) num (den * m₂)

/-- The remainder with the sign of the divisor `y`. The remainder of the absolute values is exact;
where the signs differ the divisor is added to it, and that sum is rounded. A zero remainder has the
divisor's sign. -/
def mod : Binary64 → Binary64 → Binary64
  | nan _, _ => nan 0
  | _, nan _ => nan 0
  | infinite _, _ => nan 0
  | finite a m e, infinite b =>
    if m = 0 then zero b else if a = b then finite a m e else infinite b
  | finite n₁ m₁ e₁, finite n₂ m₂ e₂ =>
    if m₂ = 0 then nan 0
    else
      let least := min e₁ e₂
      let r := (m₁ * Nat.pow 2 (e₁ - least).toNat) % (m₂ * Nat.pow 2 (e₂ - least).toNat)
      if r = 0 then zero n₂
      else
        let rest := ofScaled (signed n₁ r) least
        if n₁ = n₂ then rest else add rest (finite n₂ m₂ e₂)

/-! ## Residue

Numbers that are equal have equal residues, integers and fractions alike, but not conversely. -/

/-- The prime modulus of residues, under which `2` has order 61. -/
def residueModulus : Nat := Nat.pow 2 61 - 1

/-- The residue of a number that is not a NaN: its value modulo `2 ^ 61 - 1`, with its sign, where
`-2` stands in for `-1`; infinity has a fixed residue. -/
def residue : Binary64 → Int
  | finite negative m e =>
    let r := signed negative (m * Nat.pow 2 (e.emod 61).toNat % residueModulus)
    if r = -1 then -2 else r
  | infinite negative => signed negative 314159
  | nan _ => 0

end Binary64

end Monkey
