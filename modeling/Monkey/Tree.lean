import Monkey.Number.Binary64
import Monkey.Token

/-!
# Program trees

A program is a tree of nodes. Each node keeps the token it began with, so that a message or a
listing can refer to the text it came from. The place of a node that is not there is taken by
`Node.missing`.

Trees that are put together by hand may hold anything anywhere; `Node.isExpression` tells the nodes
that stand for a value.
-/

namespace Monkey

/-- A name and the token it was read from. -/
structure Name where
  token : Token
  value : String
  deriving DecidableEq, Repr, Inhabited

/-- A node of a program tree. -/
inductive Node where
  /-- No node. -/
  | missing
  /-- A whole program. -/
  | program (statements : List Node)
  /-- Statements in braces. -/
  | block (token : Token) (statements : List Node)
  /-- Binds a name to a value that may be changed later. -/
  | letBinding (token : Token) (name : Name) (value : Node)
  /-- Binds a name to a value that stays. -/
  | constBinding (token : Token) (name : Name) (value : Node)
  /-- Changes the value of a name. -/
  | assignment (token : Token) (name : Name) (value : Node)
  /-- Leaves a function with a value. -/
  | returning (token : Token) (value : Node)
  /-- Repeats a block as long as a condition holds. -/
  | loop (token : Token) (condition body : Node)
  /-- An expression that stands as a statement. -/
  | statement (token : Token) (expression : Node)
  /-- The value of a name. -/
  | identifier (name : Name)
  | integer (token : Token) (value : Int)
  | float (token : Token) (value : Binary64)
  | boolean (token : Token) (value : Bool)
  | string (token : Token) (value : String)
  /-- An operator in front of its operand. -/
  | prefixOp (token : Token) (operator : String) (right : Node)
  /-- An operator between its operands. -/
  | infixOp (token : Token) (operator : String) (left right : Node)
  /-- A condition and the block that is taken if it holds. -/
  | ifThen (token : Token) (condition consequence : Node)
  /-- A condition, the block that is taken if it holds, and the one that is taken if not. -/
  | ifElse (token : Token) (condition consequence alternative : Node)
  | function (token : Token) (parameters : List Name) (body : Node)
  | call (token : Token) (function : Node) (arguments : List Node)
  | array (token : Token) (elements : List Node)
  | index (token : Token) (left index : Node)
  | dictionary (token : Token) (pairs : List (Node × Node))
  deriving Repr, Inhabited

namespace Node

/-- Whether a node stands for a value. -/
def isExpression : Node → Bool
  | identifier _ | integer .. | float .. | boolean .. | string .. | prefixOp .. | infixOp ..
  | ifThen .. | ifElse .. | function .. | call .. | array .. | index .. | dictionary .. => true
  | missing | program _ | block .. | letBinding .. | constBinding .. | assignment .. | returning ..
  | loop .. | statement .. => false

end Node

end Monkey
