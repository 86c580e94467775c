import Monkey.Number.Numeral
import Monkey.Tree.Printer
import Monkey.Value

/-!
# The text of a value

`Value.inspect` is what a program sees of a value when it is printed or converted to a string. An
integer with too many digits has no text, nor has a function whose body has none.
-/

namespace Monkey

namespace Value

/-- The text of an integer. -/
def intText (n : Int) : Except Unprintable String :=
  match Numeral.ofInt? n with
  | some s => .ok s
  | none => .error .tooManyDigits

/-- The text of a function: its parameters, and its body on a line of its own. -/
def functionText (parameters : List Name) (body : Node) : Except Unprintable String := do
  return "fn(" ++ Node.parametersText parameters ++ ") \x7b\n" ++ (← body.text) ++ "\n\x7d"

mutual

/-- The text of a value. -/
def inspect : Value → Except Unprintable String
  | int n => intText n
  | float x => .ok x.text
  | bool b => .ok (if b then "true" else "false")
  | str s => .ok s
  | null => .ok "null"
  | array _ elements => do return "[" ++ ", ".intercalate (← inspectAll elements) ++ "]"
  | dict _ pairs => do return "\x7b" ++ ", ".intercalate (← inspectPairs pairs) ++ "\x7d"
  | function _ parameters body _ => functionText parameters body
  | builtin _ => .ok "builtin function"
  | returned _ v => inspect v
  | error e => .ok ("Error: " ++ e.message)

/-- The texts of several values. -/
def inspectAll : List Value → Except Unprintable (List String)
  | [] => .ok []
  | v :: vs => do return (← inspect v) :: (← inspectAll vs)

/-- The texts of pairs, key and value joined by a colon. -/
def inspectPairs : List (Value × Value) → Except Unprintable (List String)
  | [] => .ok []
  | (k, v) :: pairs => do return ((← inspect k) ++ ": " ++ (← inspect v)) :: (← inspectPairs pairs)

end

end Value

end Monkey
