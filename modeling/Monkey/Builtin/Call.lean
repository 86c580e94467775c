import Monkey.Machine
import Monkey.Value.Inspect

/-!
# Calls of built-in functions

What each built-in function does with its arguments. A wrong number of arguments is reported
before a wrong argument.
-/

namespace Monkey

namespace Builtin

/-- How many arguments a built-in function takes. -/
def arity : Builtin → Arity
  | exit => .exactly 0
  | help | gets => .atMost 1
  | push => .exactly 2
  | zip => .atLeast 2
  | puts => .atLeast 0
  | len | type | int | float | str | abs | first | last | rest | sumarr => .exactly 1

/-- The error for an argument of the wrong kind. -/
def unsupported (b : Builtin) (v : Value) : Value :=
  .error (.unsupportedArgument b v.kind)

/-- The length of an array or string. -/
def lengthOf : Value → Value
  | .array _ elements => .int elements.length
  | .str s => .int s.length
  | v => unsupported len v

/-- The description of a built-in function. A wrong argument is reported in the name of the first
built-in function of the list. -/
def describe : Value → Value
  | .builtin b => .str b.description
  | v => unsupported len v

/-- Writes each value on a line of its own. -/
def writeLines : List Value → Eval Unit
  | [] => return ()
  | v :: vs => do
    Eval.print (← Eval.written v.inspect)
    writeLines vs

/-- Reads a line with an optional prompt. -/
def readString : List Value → Eval Value
  | [] => do return .str (← Eval.readLine "")
  | .str prompt :: _ => do return .str (← Eval.readLine prompt)
  | v :: _ => return unsupported gets v

/-- Converts a string or a binary number to an integer. -/
def toInteger : Value → Eval Value
  | .str s => return (Numeral.readInt? s).elim (.error .notAnInteger) .int
  | .float (.nan _) => return .error .notAnInteger
  | .float (.infinite _) => throw (.arithmetic .infinityToInteger)
  | .float (.finite negative m e) => return .int (Binary64.truncate negative m e)
  | v => return unsupported int v

/-- Converts a string or an integer to a binary number. -/
def toBinary : Value → Eval Value
  | .str s =>
    match Numeral.readBinary64? s with
    | some x => Eval.float x
    | none => return .error .notAnInteger
  | .int n => do Eval.float (← Eval.arithmetic (Number.floatOfInt n))
  | _ => return .error .unsupportedConversion

/-- The absolute value of a number. -/
def absolute (v : Value) : Eval Value :=
  match v.number? with
  | some n => Eval.number n.abs
  | none => return unsupported abs v

/-- The first element of an array; null if it is empty. -/
def firstOf : Value → Value
  | .array _ elements => elements.head?.getD .null
  | v => unsupported first v

/-- The last element of an array; null if it is empty. -/
def lastOf : Value → Value
  | .array _ elements => elements.getLast?.getD .null
  | v => unsupported last v

/-- A new array without the first element; null if there is none. -/
def restOf : Value → Eval Value
  | .array _ [] => return .null
  | .array _ (_ :: elements) => Eval.array elements
  | v => return unsupported rest v

/-- A new array with one more element at the end. -/
def pushed (element : Value) : Value → Eval Value
  | .array _ elements => Eval.array (elements ++ [element])
  | v => return unsupported push v

/-- The elements of arrays that are not empty. -/
def rows : List Value → Except RuntimeError (List (List Value))
  | [] => .ok []
  | .array _ [] :: _ => .error (.emptyArgument zip)
  | .array _ elements :: vs => do return elements :: (← rows vs)
  | v :: _ => .error (.unsupportedArgument zip v.kind)

/-- The columns of rows, as many as the shortest row has; the first row is given apart. -/
def columns : List Value → List (List Value) → List (List Value)
  | [], _ => []
  | v :: vs, others =>
    match others.mapM List.head? with
    | none => []
    | some heads => (v :: heads) :: columns vs (others.map List.tail)

/-- A new array of new arrays, one for each column. -/
def zipped (vs : List Value) : Eval Value :=
  match rows vs with
  | .error e => return .error e
  | .ok [] => Eval.array []
  | .ok (row :: more) => do Eval.array (← (columns row more).mapM Eval.array)

/-- The sum of numbers, added from the left to a first summand. -/
def sumFrom (sum : Number) : List Value → Eval Value
  | [] => Eval.number sum
  | v :: vs =>
    match v.number? with
    | some n => do sumFrom (← Eval.arithmetic (sum.add n)) vs
    | none => return .error .nonNumericElement

/-- The sum of the elements of an array. -/
def sumOf : Value → Eval Value
  | .array _ elements => sumFrom (.int 0) elements
  | v => return unsupported sumarr v

/-- Calls a built-in function with a number of arguments that it takes. -/
def apply : Builtin → List Value → Eval Value
  | exit, _ => throw .exit
  | puts, vs => do
    writeLines vs
    return .null
  | gets, vs => readString vs
  | help, [] => return .str (", ".intercalate (all.map name))
  | help, v :: _ => return describe v
  | zip, vs => zipped vs
  | push, v :: element :: _ => pushed element v
  | len, v :: _ => return lengthOf v
  | type, v :: _ => return .str v.kind.name
  | int, v :: _ => toInteger v
  | float, v :: _ => toBinary v
  | str, v :: _ => do return .str (← Eval.written v.inspect)
  | abs, v :: _ => absolute v
  | first, v :: _ => return firstOf v
  | last, v :: _ => return lastOf v
  | rest, v :: _ => restOf v
  | sumarr, v :: _ => sumOf v
  | _, _ => return .null

/-- Calls a built-in function. -/
def call (b : Builtin) (vs : List Value) : Eval Value :=
  if b.arity.accepts vs.length then b.apply vs
  else return .error (.wrongArgumentCount vs.length b.arity)

end Builtin

end Monkey
