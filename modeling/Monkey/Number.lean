import Monkey.Number.Binary64

/-!
# Numbers and their arithmetic

A number is an integer of any size or a binary number. Arithmetic on two integers is exact, except
for division, which always gives a binary number, rounded once. As soon as one operand is a binary
number, the other is converted first, which fails for integers beyond the range of the format.

Comparison converts nothing: it compares exact values.
-/

namespace Monkey

/-- An integer or a binary number. -/
inductive Number where
  | int (n : Int)
  | float (x : Binary64)
  deriving DecidableEq, Repr, Inhabited

namespace Number

/-- Why an arithmetic operation has no result. -/
inductive Fault where
  /-- An integer is divided by the integer zero. -/
  | divisionByZero
  /-- A number is divided by zero, and one of the two is a binary number. -/
  | floatDivisionByZero
  /-- The remainder of an integer by the integer zero. -/
  | moduloByZero
  /-- The remainder of a number by zero, where one of the two is a binary number. -/
  | floatModuloByZero
  /-- An integer lies beyond the range of binary numbers. -/
  | integerTooLarge
  /-- The quotient of two integers lies beyond the range of binary numbers. -/
  | quotientTooLarge
  /-- Infinity has no integer part. -/
  | infinityToInteger
  deriving DecidableEq, Repr

/-- The wording of a fault. -/
def Fault.message : Fault → String
  | divisionByZero => "division by zero"
  | floatDivisionByZero => "float division by zero"
  | moduloByZero => "integer modulo by zero"
  | floatModuloByZero => "float modulo"
  | integerTooLarge => "int too large to convert to float"
  | quotientTooLarge => "integer division result too large for a float"
  | infinityToInteger => "cannot convert float infinity to integer"

/-- An integer as a binary number. -/
def floatOfInt (n : Int) : Except Fault Binary64 :=
  match Binary64.ofInt n with
  | .infinite _ => .error .integerTooLarge
  | x => .ok x

/-- A number as a binary number. -/
def toFloat : Number → Except Fault Binary64
  | int n => floatOfInt n
  | float x => .ok x

/-- Applies `f` to both numbers as binary numbers. -/
def onFloats (f : Binary64 → Binary64 → Except Fault Binary64) (a b : Number) :
    Except Fault Number := do
  let x ← a.toFloat
  let y ← b.toFloat
  return .float (← f x y)

/-- The sum. -/
def add : Number → Number → Except Fault Number
  | int m, int n => .ok (int (m + n))
  | a, b => onFloats (fun x y => .ok (x.add y)) a b

/-- The difference. -/
def sub : Number → Number → Except Fault Number
  | int m, int n => .ok (int (m - n))
  | a, b => onFloats (fun x y => .ok (x.sub y)) a b

/-- The product. -/
def mul : Number → Number → Except Fault Number
  | int m, int n => .ok (int (m * n))
  | a, b => onFloats (fun x y => .ok (x.mul y)) a b

/-- The quotient of two integers, the second not zero, rounded once. It is negative if exactly one of
the two is negative, also when it is zero. -/
def quotient (m n : Int) : Except Fault Number :=
  match Binary64.ofRatio (decide (m < 0) != decide (n < 0)) m.natAbs n.natAbs with
  | .infinite _ => .error .quotientTooLarge
  | x => .ok (float x)

/-- The quotient, always a binary number. -/
def div : Number → Number → Except Fault Number
  | int m, int n => if n = 0 then .error .divisionByZero else quotient m n
  | a, b =>
    onFloats (fun x y => if y.isZero then .error .floatDivisionByZero else .ok (x.div y)) a b

/-- The remainder, with the sign of the divisor. -/
def mod : Number → Number → Except Fault Number
  | int m, int n => if n = 0 then .error .moduloByZero else .ok (int (Int.fmod m n))
  | a, b => onFloats (fun x y => if y.isZero then .error .floatModuloByZero else .ok (x.mod y)) a b

/-- The order of two numbers by their exact values; a NaN is not ordered. -/
def compare? : Number → Number → Option Ordering
  | int m, int n => some (compare m n)
  | int m, float y => y.compareInt? m
  | float x, int n => (x.compareInt? n).map Ordering.swap
  | float x, float y => x.compare? y

/-- The opposite number. -/
def neg : Number → Number
  | int n => int (-n)
  | float x => float x.neg

/-- The absolute value. -/
def abs : Number → Number
  | int n => int n.natAbs
  | float x => float x.abs

end Number

end Monkey
