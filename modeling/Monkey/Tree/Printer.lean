import Monkey.Number.Decimal
import Monkey.Tree

/-!
# The text of a tree

`Node.text` writes a tree as one line in which every operator expression is in parentheses.
An `if` that has no `else` has no text.
-/

namespace Monkey

/-- Why something has no text. -/
inductive Unprintable where
  /-- An `if` has no `else`. -/
  | missingElse
  /-- An integer has too many digits. -/
  | tooManyDigits
  deriving DecidableEq, Repr

/-- The wording of a reason. -/
def Unprintable.message : Unprintable → String
  | missingElse => "'IfExpression' object has no attribute 'alternative'"
  | tooManyDigits => "Exceeds the limit (4300 digits) for integer string conversion; use " ++
      "sys.set_int_max_str_digits() to increase the limit"

namespace Node

/-- The text a node began with; for a binary number, its value. -/
def tokenLiteral : Node → String
  | missing => ""
  | program [] => ""
  | program (first :: _) => first.tokenLiteral
  | block token _ | letBinding token _ _ | constBinding token _ _ | assignment token _ _
  | returning token _ | loop token _ _ | statement token _ | integer token _ | boolean token _
  | string token _ | prefixOp token _ _ | infixOp token _ _ _ | ifThen token _ _
  | ifElse token _ _ _ | function token _ _ | call token _ _ | array token _ | index token _ _
  | dictionary token _ => token.literal
  | identifier name => name.token.literal
  | float _ value => value.text

/-- Whether there is no node. -/
def isMissing : Node → Bool
  | missing => true
  | _ => false

/-- The text of a parameter list. -/
def parametersText (parameters : List Name) : String :=
  ", ".intercalate (parameters.map Name.value)

/-- The text of the value of a statement, which is empty if there is no value. -/
def orEmpty (value : Node) (written : Except Unprintable String) : Except Unprintable String :=
  if value.isMissing then .ok "" else written

mutual

/-- The text of a tree. -/
def text : Node → Except Unprintable String
  | missing => .ok "None"
  | program statements => do return "".intercalate (← texts statements)
  | block _ statements => do return "".intercalate (← texts statements)
  | letBinding token name value => do
    return token.literal ++ " " ++ name.value ++ " = " ++ (← orEmpty value (text value)) ++ ";"
  | constBinding token name value => do
    return token.literal ++ " " ++ name.value ++ " = " ++ (← orEmpty value (text value)) ++ ";"
  | assignment _ name value => do return name.value ++ " = " ++ (← orEmpty value (text value)) ++ ";"
  | returning token value => do return token.literal ++ " " ++ (← orEmpty value (text value)) ++ ";"
  | loop _ condition body => do return "while" ++ (← text condition) ++ " " ++ (← text body)
  | statement _ expression => orEmpty expression (text expression)
  | identifier name => .ok name.value
  | integer token _ => .ok token.literal
  | float _ value => .ok value.text
  | boolean token _ => .ok token.literal
  | string token _ => .ok token.literal
  | prefixOp _ operator right => do return "(" ++ operator ++ (← text right) ++ ")"
  | infixOp _ operator left right => do
    return "(" ++ (← text left) ++ " " ++ operator ++ " " ++ (← text right) ++ ")"
  | ifThen .. => .error .missingElse
  | ifElse _ condition consequence alternative => do
    let head := "if" ++ (← text condition) ++ " " ++ (← text consequence)
    if alternative.isMissing then return head else return head ++ "else " ++ (← text alternative)
  | function token parameters body => do
    return token.literal ++ "(" ++ parametersText parameters ++ ") " ++ (← text body)
  | call _ callee arguments => do
    return (← text callee) ++ "(" ++ ", ".intercalate (← texts arguments) ++ ")"
  | array _ elements => do return "[" ++ ", ".intercalate (← texts elements) ++ "]"
  | index _ left position => do return "(" ++ (← text left) ++ "[" ++ (← text position) ++ "])"
  | dictionary _ pairs => do return "\x7b" ++ ", ".intercalate (← pairTexts pairs) ++ "\x7d"

/-- The texts of several trees. -/
def texts : List Node → Except Unprintable (List String)
  | [] => .ok []
  | node :: nodes => do return (← text node) :: (← texts nodes)

/-- The texts of pairs, key and value joined by a colon. -/
def pairTexts : List (Node × Node) → Except Unprintable (List String)
  | [] => .ok []
  | (key, value) :: pairs => do
    return ((← text key) ++ ":" ++ (← text value)) :: (← pairTexts pairs)

end

end Node

end Monkey
