import Monkey.Tree.Parser

/-!
# The grammar

Which tokens stand for which tree, said by productions and without a parser. `Derives phrase ts rest`
says that the tokens `ts` begin with a phrase and go on with `rest`, so a derivation takes the
tokens one after the other, each in one production.

Two productions hold only at the end of the input, where nothing is left: a block whose closing
brace is missing, and a number that ends with its point.

The grammar is ambiguous. It leaves open how operators group; that is what precedences are for.
-/

namespace Monkey

namespace TokenKind

/-- The operators that stand in front of an operand. -/
def isPrefixOperator : TokenKind → Bool
  | bang | minus => true
  | _ => false

/-- The operators that stand between two operands. -/
def isInfixOperator : TokenKind → Bool
  | eq | notEq | lt | gt | plus | minus | slash | asterisk | modulo => true
  | _ => false

/-- The kinds of the two truth values. -/
def isTruthWord : TokenKind → Bool
  | trueWord | falseWord => true
  | _ => false

theorem isPrefixOperator_iff {kind : TokenKind} :
    kind.isPrefixOperator ↔ kind = .bang ∨ kind = .minus := by
  cases kind <;> decide

theorem isTruthWord_iff {kind : TokenKind} :
    kind.isTruthWord ↔ kind = .trueWord ∨ kind = .falseWord := by
  cases kind <;> decide

end TokenKind

/-- The binary number with a whole part and the text of a fraction, if there is one. -/
def fractionValue? (whole : Int) (fraction : String) : Option Binary64 :=
  Numeral.readBinary64? ((Numeral.ofInt? whole).getD "" ++ "." ++ fraction)

/-- What tokens can stand for, with the tree it is. -/
inductive Phrase where
  | expression (tree : Node)
  /-- Expressions, each behind a comma. -/
  | moreExpressions (trees : List Node)
  /-- Expressions with commas between them. -/
  | expressions (trees : List Node)
  /-- Parameters, each behind a comma. -/
  | moreParameters (names : List Name)
  /-- Parameters with commas between them. -/
  | parameters (names : List Name)
  /-- The pairs of a dictionary with commas between them. -/
  | pairs (trees : List (Node × Node))
  | block (tree : Node)
  | statement (tree : Node)
  | statements (trees : List Node)
  /-- A semicolon that may be left out. -/
  | ending

/-- The tokens begin with a phrase and go on with the rest. -/
inductive Derives : Phrase → List Token → List Token → Prop where
  -- Literals and names
  | identifier (kind : t.kind = .ident) :
      Derives (.expression (.identifier ⟨t, t.literal⟩)) (t :: rest) rest
  | integer (kind : t.kind = .int) (value : Numeral.readInt? t.literal = some n) :
      Derives (.expression (.integer t n)) (t :: rest) rest
  | float (kind : t.kind = .int) (whole : Numeral.readInt? t.literal = some n)
      (dot : point.kind = .dot) (value : fractionValue? n fraction.literal = some x) :
      Derives (.expression (.float point x)) (t :: point :: fraction :: rest) rest
  | floatAtEnd (kind : t.kind = .int) (whole : Numeral.readInt? t.literal = some n)
      (dot : point.kind = .dot) (value : fractionValue? n "" = some x) :
      Derives (.expression (.float point x)) [t, point] []
  | boolean (kind : t.kind.isTruthWord) :
      Derives (.expression (.boolean t (t.kind = .trueWord))) (t :: rest) rest
  | string (kind : t.kind = .string) :
      Derives (.expression (.string t t.literal)) (t :: rest) rest
  -- Expressions
  | group (opening : l.kind = .lparen) (inner : Derives (.expression e) ts (r :: rest))
      (closing : r.kind = .rparen) : Derives (.expression e) (l :: ts) rest
  | prefixOp (operator : t.kind.isPrefixOperator) (right : Derives (.expression e) ts rest) :
      Derives (.expression (.prefixOp t t.literal e)) (t :: ts) rest
  | infixOp (left : Derives (.expression e₁) ts (t :: us)) (operator : t.kind.isInfixOperator)
      (right : Derives (.expression e₂) us rest) :
      Derives (.expression (.infixOp t t.literal e₁ e₂)) ts rest
  | ifThen (word : t.kind = .ifWord) (opening : l.kind = .lparen)
      (condition : Derives (.expression c) ts (r :: us)) (closing : r.kind = .rparen)
      (consequence : Derives (.block b) us rest) :
      Derives (.expression (.ifThen t c b)) (t :: l :: ts) rest
  | ifElse (word : t.kind = .ifWord) (opening : l.kind = .lparen)
      (condition : Derives (.expression c) ts (r :: us)) (closing : r.kind = .rparen)
      (consequence : Derives (.block b₁) us (w :: vs)) (otherwise : w.kind = .elseWord)
      (alternative : Derives (.block b₂) vs rest) :
      Derives (.expression (.ifElse t c b₁ b₂)) (t :: l :: ts) rest
  | function (word : t.kind = .function) (opening : l.kind = .lparen)
      (parameters : Derives (.parameters ps) ts (r :: us)) (closing : r.kind = .rparen)
      (body : Derives (.block b) us rest) :
      Derives (.expression (.function t ps b)) (t :: l :: ts) rest
  | call (callee : Derives (.expression f) ts (l :: us)) (opening : l.kind = .lparen)
      (arguments : Derives (.expressions es) us (r :: rest)) (closing : r.kind = .rparen) :
      Derives (.expression (.call l f es)) ts rest
  | array (opening : l.kind = .lbracket) (elements : Derives (.expressions es) ts (r :: rest))
      (closing : r.kind = .rbracket) : Derives (.expression (.array l es)) (l :: ts) rest
  | index (left : Derives (.expression e) ts (l :: us)) (opening : l.kind = .lbracket)
      (inner : Derives (.expression i) us (r :: rest)) (closing : r.kind = .rbracket) :
      Derives (.expression (.index l e i)) ts rest
  | dictionary (opening : l.kind = .lbrace) (inner : Derives (.pairs ps) ts (r :: rest))
      (closing : r.kind = .rbrace) : Derives (.expression (.dictionary l ps)) (l :: ts) rest
  -- Lists
  | noMoreExpressions : Derives (.moreExpressions []) ts ts
  | oneMoreExpression (comma : t.kind = .comma) (first : Derives (.expression e) ts us)
      (more : Derives (.moreExpressions es) us rest) :
      Derives (.moreExpressions (e :: es)) (t :: ts) rest
  | noExpressions : Derives (.expressions []) ts ts
  | someExpressions (first : Derives (.expression e) ts us)
      (more : Derives (.moreExpressions es) us rest) : Derives (.expressions (e :: es)) ts rest
  | noMoreParameters : Derives (.moreParameters []) ts ts
  | oneMoreParameter (comma : c.kind = .comma) (more : Derives (.moreParameters ps) ts rest) :
      Derives (.moreParameters (⟨t, t.literal⟩ :: ps)) (c :: t :: ts) rest
  | noParameters : Derives (.parameters []) ts ts
  | someParameters (more : Derives (.moreParameters ps) ts rest) :
      Derives (.parameters (⟨t, t.literal⟩ :: ps)) (t :: ts) rest
  | noPairs : Derives (.pairs []) ts ts
  | lastPair (key : Derives (.expression k) ts (t :: us)) (colon : t.kind = .colon)
      (value : Derives (.expression v) us rest) : Derives (.pairs [(k, v)]) ts rest
  | onePair (key : Derives (.expression k) ts (t :: us)) (colon : t.kind = .colon)
      (value : Derives (.expression v) us (c :: vs)) (comma : c.kind = .comma)
      (more : Derives (.pairs ps) vs rest) : Derives (.pairs ((k, v) :: ps)) ts rest
  -- Statements
  | noEnding : Derives .ending ts ts
  | semicolon (kind : t.kind = .semicolon) : Derives .ending (t :: rest) rest
  | letBinding (word : t.kind = .letWord) (name : x.kind = .ident) (sign : a.kind = .assign)
      (value : Derives (.expression e) ts us) (ending : Derives .ending us rest) :
      Derives (.statement (.letBinding t ⟨x, x.literal⟩ e)) (t :: x :: a :: ts) rest
  | constBinding (word : t.kind = .constWord) (name : x.kind = .ident) (sign : a.kind = .assign)
      (value : Derives (.expression e) ts us) (ending : Derives .ending us rest) :
      Derives (.statement (.constBinding t ⟨x, x.literal⟩ e)) (t :: x :: a :: ts) rest
  | assignment (name : x.kind = .ident) (sign : a.kind = .assign)
      (value : Derives (.expression e) ts us) (ending : Derives .ending us rest) :
      Derives (.statement (.assignment ⟨.assign, "="⟩ ⟨x, x.literal⟩ e)) (x :: a :: ts) rest
  | returning (word : t.kind = .returnWord) (value : Derives (.expression e) ts us)
      (ending : Derives .ending us rest) : Derives (.statement (.returning t e)) (t :: ts) rest
  | loop (word : t.kind = .whileWord) (opening : l.kind = .lparen)
      (condition : Derives (.expression c) ts (r :: us)) (closing : r.kind = .rparen)
      (body : Derives (.block b) us rest) :
      Derives (.statement (.loop t c b)) (t :: l :: ts) rest
  | statement (value : Derives (.expression e) (t :: ts) us) (ending : Derives .ending us rest) :
      Derives (.statement (.statement t e)) (t :: ts) rest
  | noStatements : Derives (.statements []) ts ts
  | oneStatement (first : Derives (.statement s) ts us)
      (more : Derives (.statements ss) us rest) : Derives (.statements (s :: ss)) ts rest
  | block (opening : l.kind = .lbrace) (inner : Derives (.statements ss) ts (r :: rest))
      (closing : r.kind = .rbrace) : Derives (.block (.block l ss)) (l :: ts) rest
  | blockAtEnd (opening : l.kind = .lbrace) (inner : Derives (.statements ss) ts []) :
      Derives (.block (.block l ss)) (l :: ts) []

end Monkey
