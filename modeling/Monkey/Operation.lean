import Monkey.Machine
import Monkey.Value.Key

/-!
# Operators

What the operators do with values. An operator that does not fit its operands gives an error value;
arithmetic that has no result halts the evaluation.
-/

namespace Monkey

/-! ## Operators in front of an operand -/

/-- The value of an operator in front of an operand. -/
def applyPrefix (operator : String) (right : Value) : Eval Value :=
  match operator with
  | "!" => return .bool (!right.truthy)
  | "-" =>
    match right.number? with
    | some n => Eval.number n.neg
    | none => return .error (.unknownPrefix "-" right.kind)
  | _ => return .error (.unknownPrefix operator right.kind)

/-! ## Operators between operands -/

/-- What an operation on numbers has computed: a number, or something else, which has a text. -/
inductive Computed where
  | number (n : Number)
  | other (text : String)
  deriving DecidableEq

/-- The value of what was computed. Only a number has one. -/
def numericValue : Computed → Eval Value
  | .number n => Eval.number n
  | .other text =>
    return .error (.stated ("Cannot create a numeric object out of value " ++ text ++ "."))

/-- Arithmetic and comparison of two numbers. The numbers are the values `left` and `right`. -/
def applyNumeric (operator : String) (left right : Value) (a b : Number) : Eval Value :=
  let compute := fun (result : Except Number.Fault Number) => do
    numericValue (.number (← Eval.arithmetic result))
  match operator with
  | "+" => compute (a.add b)
  | "-" => compute (a.sub b)
  | "*" => compute (a.mul b)
  | "/" => compute (a.div b)
  | "%" => compute (a.mod b)
  | "<" => return .bool (a.compare? b = some .lt)
  | ">" => return .bool (a.compare? b = some .gt)
  | "==" => return .bool (a.compare? b = some .eq)
  | "!=" => return .bool (a.compare? b ≠ some .eq)
  | _ => return .error (.unknownInfix left.kind operator right.kind)

/-- Comparison of two truth values. -/
def applyLogical (operator : String) (a b : Bool) : Value :=
  match operator with
  | "==" => .bool (a = b)
  | "!=" => .bool (a ≠ b)
  | _ => .error (.unknownInfix .boolean operator .boolean)

/-- Joining and comparison of two strings. -/
def applyTextual (operator : String) (a b : String) : Value :=
  match operator with
  | "+" => .str (a ++ b)
  | "==" => .bool (a = b)
  | "!=" => .bool (a ≠ b)
  | _ => .error (.unknownInfix .string operator .string)

/-- Comparison of values by identity, the only operation on all other operands. -/
def applyIdentity (operator : String) (left right : Value) : Value :=
  match operator with
  | "==" => .bool (left.same right)
  | "!=" => .bool (!left.same right)
  | _ =>
    if left.kind = right.kind then .error (.unknownInfix left.kind operator right.kind)
    else .error (.typeMismatch left.kind operator right.kind)

/-- The value of an operator between two operands. -/
def applyInfix (operator : String) (left right : Value) : Eval Value :=
  match left.number?, right.number? with
  | some a, some b => applyNumeric operator left right a b
  | _, _ =>
    match left, right with
    | .bool a, .bool b => return applyLogical operator a b
    | .str a, .str b => return applyTextual operator a b
    | _, _ => return applyIdentity operator left right

/-! ## Indexing -/

/-- The element of an array at an index; null outside the array. -/
def elementAt (elements : List Value) (i : Int) : Value :=
  if i < 0 then .null else (elements[i.toNat]?).getD .null

/-- The value of a dictionary under a key; null if there is none. -/
def entryAt (pairs : Pairs) (key : Value) : Eval Value :=
  match key.hashKey? with
  | none => return .error (.unusableIndex key.kind)
  | some hash => do
    let hash ← Eval.written hash.usable
    return (Pairs.find? pairs hash).getD .null

/-- The value of an index expression. -/
def applyIndex (left index : Value) : Eval Value :=
  match left, index with
  | .array _ elements, .int i => return elementAt elements i
  | .dict _ pairs, key => entryAt pairs key
  | _, _ => return .error (.notIndexable left.kind)

/-- Puts a pair into a dictionary under the hash key of its key. -/
def insertPair (hash : HashKey) (pair : Value × Value) (pairs : Pairs) : Eval Pairs := do
  let hash ← Eval.written hash.usable
  return Pairs.insert hash pair pairs

end Monkey
