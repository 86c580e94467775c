import Monkey.Token

/-!
# Precedence

How tightly an operator binds. A call and an index bind tighter than any operator.
-/

namespace Monkey

/-- The levels of binding, from the loosest to the tightest. -/
inductive Precedence where
  | lowest | equals | lessGreater | sum | product | prefixed | call | index
  deriving DecidableEq, Repr, Inhabited

namespace Precedence

/-- The rank of a level. -/
def rank : Precedence → Nat
  | lowest => 0
  | equals => 1
  | lessGreater => 2
  | sum => 3
  | product => 4
  | prefixed => 5
  | call => 6
  | index => 7

/-- The name under which a level is reported. -/
def name : Precedence → String
  | lowest => "LOWEST"
  | equals => "EQUALS"
  | lessGreater => "LESSGREATER"
  | sum => "SUM"
  | product => "PRODUCT"
  | prefixed => "PREFIX"
  | call => "CALL"
  | index => "INDEX"

/-- Every level. -/
def all : List Precedence :=
  [lowest, equals, lessGreater, sum, product, prefixed, call, index]

/-- The level with the given name. -/
def ofName? (s : String) : Option Precedence :=
  all.find? (·.name = s)

/-- How tightly a token binds what stands on its left. -/
def ofKind : TokenKind → Precedence
  | .eq | .notEq => equals
  | .lt | .gt => lessGreater
  | .plus | .minus => sum
  | .slash | .asterisk | .modulo => product
  | .lparen => call
  | .lbracket => index
  | _ => lowest

end Precedence

end Monkey
