import Monkey.Builtin
import Monkey.Number
import Monkey.Tree

/-!
# Values

What expressions evaluate to. A fault that a program makes is itself a value, an error, which ends
the evaluation of everything around it.

Arrays, dictionaries, functions and return wrappers have an identity: two of them are the same only
if they arose from the same evaluation of the same expression. A function keeps the number of the
scope it was written in.
-/

namespace Monkey

/-- The kinds of values. -/
inductive ValueKind where
  | integer | float | boolean | string | null | array | dictionary | returnValue | function
  | builtin | error
  deriving DecidableEq, Repr, Inhabited

/-- The name of a kind. -/
def ValueKind.name : ValueKind → String
  | integer => "INTEGER"
  | float => "FLOAT"
  | boolean => "BOOLEAN"
  | string => "STRING"
  | null => "NULL"
  | array => "ARRAY"
  | dictionary => "DICTIONARY"
  | returnValue => "RETURN_VALUE"
  | function => "FUNCTION"
  | builtin => "BUILTIN"
  | error => "ERROR"

/-- How many arguments a built-in function takes. -/
inductive Arity where
  | exactly (n : Nat)
  | atMost (n : Nat)
  | atLeast (n : Nat)
  deriving DecidableEq, Repr

/-- Whether a number of arguments is accepted. -/
def Arity.accepts : Arity → Nat → Bool
  | exactly n, got => got = n
  | atMost n, got => got ≤ n
  | atLeast n, got => n ≤ got

/-- How an arity is written. -/
def Arity.text : Arity → String
  | exactly n => toString n
  | atMost n => " <=" ++ toString n
  | atLeast n => " >=" ++ toString n

/-- What a program can do wrong. -/
inductive RuntimeError where
  | unknownName (name : String)
  | constantAssigned (name : String)
  | unknownPrefix (operator : String) (operand : ValueKind)
  | typeMismatch (left : ValueKind) (operator : String) (right : ValueKind)
  | unknownInfix (left : ValueKind) (operator : String) (right : ValueKind)
  | notAFunction (kind : ValueKind)
  | argumentMissing (parameter : String)
  | notIndexable (kind : ValueKind)
  /-- A value that cannot be a key stands as a key in a dictionary. -/
  | unusableKey (kind : ValueKind)
  /-- A dictionary is asked for a value that cannot be a key. -/
  | unusableIndex (kind : ValueKind)
  | wrongArgumentCount (got : Nat) (want : Arity)
  | unsupportedArgument (function : Builtin) (kind : ValueKind)
  /-- The argument of a conversion to a binary number is neither an integer nor a string. -/
  | unsupportedConversion
  | notAnInteger
  | emptyArgument (function : Builtin)
  | nonNumericElement
  /-- An error with a wording of its own. -/
  | stated (text : String)
  deriving DecidableEq, Repr

/-- The wording of an error. -/
def RuntimeError.message : RuntimeError → String
  | unknownName name => "identifier not found: " ++ name
  | constantAssigned name => "cannot modify const identifier: " ++ name
  | unknownPrefix operator operand => "unknown operator: " ++ operator ++ operand.name
  | typeMismatch left operator right =>
    "type mismatch: " ++ left.name ++ " " ++ operator ++ " " ++ right.name
  | unknownInfix left operator right =>
    "unknown operator: " ++ left.name ++ " " ++ operator ++ " " ++ right.name
  | notAFunction kind => "not a function: ObjectType." ++ kind.name
  | argumentMissing parameter => parameter ++ " argument missing from function call."
  | notIndexable kind => "index operator not supported: " ++ kind.name
  | unusableKey kind => "unusable as hash key: " ++ kind.name
  | unusableIndex kind => "unusable as dictionary key: " ++ kind.name
  | wrongArgumentCount got want =>
    "wrong number of arguments. got=" ++ toString got ++ ", want=" ++ want.text
  | unsupportedArgument function kind =>
    "argument to `" ++ function.name ++ "` not supported, got " ++ kind.name
  | unsupportedConversion => "argument to `int` not supported, got \x7barg.tp().value\x7d"
  | notAnInteger => "argument cannot be converted to an integer."
  | emptyArgument function => "An argument to `" ++ function.name ++ "` is empty."
  | nonNumericElement => "array contains a non-INTEGER or non-FLOAT element"
  | stated text => text

/-- A value. -/
inductive Value where
  | int (n : Int)
  | float (x : Binary64)
  | bool (b : Bool)
  | str (s : String)
  | null
  | array (identity : Nat) (elements : List Value)
  /-- The pairs of a dictionary, in the order in which their keys first appeared. -/
  | dict (identity : Nat) (pairs : List (Value × Value))
  | function (identity : Nat) (parameters : List Name) (body : Node) (scope : Nat)
  | builtin (b : Builtin)
  /-- A value on its way out of a function. -/
  | returned (identity : Nat) (value : Value)
  | error (e : RuntimeError)
  deriving Repr, Inhabited

namespace Value

/-- The kind of a value. -/
def kind : Value → ValueKind
  | int _ => .integer
  | float _ => .float
  | bool _ => .boolean
  | str _ => .string
  | null => .null
  | array .. => .array
  | dict .. => .dictionary
  | function .. => .function
  | builtin _ => .builtin
  | returned .. => .returnValue
  | error _ => .error

/-- Whether a condition with this value holds: all but null and false. -/
def truthy : Value → Bool
  | null => false
  | bool b => b
  | _ => true

/-- Whether a value is an error. -/
def isError : Value → Bool
  | error _ => true
  | _ => false

/-- The value inside a return wrapper; any other value itself. -/
def unwrap : Value → Value
  | returned _ v => v
  | v => v

/-- A value as a number. -/
def number? : Value → Option Number
  | int n => some (.int n)
  | float x => some (.float x)
  | _ => none

/-- Whether two values are one and the same object. Numbers and strings have no identity, so this
never holds of them. -/
def same : Value → Value → Bool
  | bool a, bool b => a = b
  | null, null => true
  | array i _, array j _ => i = j
  | dict i _, dict j _ => i = j
  | function i _ _ _, function j _ _ _ => i = j
  | builtin a, builtin b => a = b
  | returned i _, returned j _ => i = j
  | _, _ => false

end Value

end Monkey
