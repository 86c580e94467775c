import Monkey.Number.Numeral
import Monkey.Token.Lexer
import Monkey.Tree
import Monkey.Tree.Precedence

/-!
# From tokens to trees

A parser step looks at the current token and at the one behind it, moves on, records errors, and
either produces something or refuses. A refusal is not the end: the statements behind it are still
read, so that one pass reports every error.

An expression is read by its first token and then extended to the right as long as the next token
binds tighter than the context.

## Budget

The readings of nested parts are given as a `Level`, so every production is an ordinary definition
over the level below it. A level number bounds the nesting, and each loop is bounded by the number
of tokens that are left; `Outcome.exhausted` says that a bound was too small. The bounds chosen in
`parseTokens` suffice, because every nested reading and every round of a loop begins behind a token
that was passed.
-/

namespace Monkey

/-- What can be wrong with a program text. -/
inductive SyntaxError where
  /-- Another kind of token was expected next. -/
  | unexpected (expected found : TokenKind)
  /-- No expression begins with this kind of token. -/
  | noExpression (found : TokenKind)
  /-- The text is no integer. -/
  | badInteger (text : String)
  /-- The text cannot be the fraction of a number. -/
  | badFraction (text : String)
  deriving DecidableEq, Repr

/-- The wording of an error. -/
def SyntaxError.message : SyntaxError → String
  | unexpected expected found =>
    "Expected next token to be " ++ expected.describe ++ ", instead got " ++ found.describe ++ "."
  | noExpression found => "Cannot parse " ++ found.describe ++ " prefix token."
  | badInteger text => "Could not parse " ++ text ++ " as integer."
  | badFraction text => "Could not parse " ++ text ++ " as float."

/-- The tokens that are left, the current one first, and the errors so far. Behind the last token
there are only end-of-input tokens. -/
structure Reading where
  tokens : List Token
  errors : List SyntaxError
  deriving DecidableEq, Repr, Inhabited

namespace Reading

/-- The current token. -/
def current (r : Reading) : Token := r.tokens.headD .eof

/-- The token behind the current one. -/
def peek (r : Reading) : Token := r.tokens.tail.headD .eof

/-- Moves on to the next token. -/
def advance (r : Reading) : Reading := { r with tokens := r.tokens.tail }

/-- Records an error. -/
def report (e : SyntaxError) (r : Reading) : Reading := { r with errors := r.errors ++ [e] }

end Reading

/-- How a parser step ends. -/
inductive Outcome (α : Type) where
  /-- It produced something. -/
  | done (value : α) (rest : Reading)
  /-- It produced nothing. -/
  | refused (rest : Reading)
  /-- A bound on nesting or on a loop was too small. -/
  | exhausted

/-- A parser step. -/
def Parse (α : Type) := Reading → Outcome α

namespace Parse

/-- Produces a value and leaves everything in place. -/
def pure (value : α) : Parse α := fun r => .done value r

/-- Goes on with what a step produced; a refusal is passed on. -/
def bind (step : Parse α) (next : α → Parse β) : Parse β := fun r =>
  match step r with
  | .done value rest => next value rest
  | .refused rest => .refused rest
  | .exhausted => .exhausted

instance : Monad Parse where
  pure := pure
  bind := bind

/-- Produces nothing. -/
def refuse : Parse α := fun r => .refused r

/-- Reports that a bound was too small. -/
def exhausted : Parse α := fun _ => .exhausted

/-- Produces whether there was something to produce, and never refuses. -/
def attempt (step : Parse α) : Parse (Option α) := fun r =>
  match step r with
  | .done value rest => .done (some value) rest
  | .refused rest => .done none rest
  | .exhausted => .exhausted

/-- Produces the value, or refuses if there is none. -/
def ofOption : Option α → Parse α
  | some value => pure value
  | none => refuse

/-- The current token. -/
def current : Parse Token := fun r => .done r.current r

/-- The token behind the current one. -/
def peek : Parse Token := fun r => .done r.peek r

/-- Moves on to the next token. -/
def advance : Parse Unit := fun r => .done () r.advance

/-- Records an error. -/
def report (e : SyntaxError) : Parse Unit := fun r => .done () (r.report e)

/-- A bound for the rounds of a loop that passes a token in every round. -/
def rounds : Parse Nat := fun r => .done (r.tokens.length + 1) r

/-- Moves on to the next token if it has the given kind; refuses with an error otherwise. -/
def expect (kind : TokenKind) : Parse Unit := do
  let next ← peek
  if next.kind = kind then advance
  else
    report (.unexpected kind next.kind)
    refuse

/-- Moves on to the next token if it is a semicolon. -/
def skipSemicolon : Parse Unit := do
  if (← peek).kind = .semicolon then advance

/-- The current token as a name. -/
def currentName : Parse Name := do
  let token ← current
  return ⟨token, token.literal⟩

end Parse

open Parse

/-- How the parts of a production are read. -/
structure Level where
  expression : Precedence → Parse Node
  statement : Parse Node

/-! ## Literals and names -/

/-- A name. -/
def parseIdentifier : Parse Node := do
  return .identifier (← currentName)

/-- An integer; if a point follows, the token behind the point is the fraction of a binary number,
whatever kind of token it is. -/
def parseNumber : Parse Node := do
  let token ← current
  match Numeral.readInt? token.literal with
  | none =>
    report (.badInteger token.literal)
    refuse
  | some value =>
    let point ← peek
    if point.kind = .dot then
      advance
      advance
      let fraction := (← current).literal
      match Numeral.readBinary64? ((Numeral.ofInt? value).getD "" ++ "." ++ fraction) with
      | none =>
        report (.badFraction fraction)
        refuse
      | some x => return .float point x
    else return .integer token value

/-- A truth value. -/
def parseBoolean : Parse Node := do
  let token ← current
  return .boolean token (token.kind = .trueWord)

/-- A string. -/
def parseString : Parse Node := do
  let token ← current
  return .string token token.literal

/-! ## Lists -/

/-- The expressions behind commas. -/
def parseMoreExpressions (level : Level) : Nat → Parse (List Node)
  | 0 => exhausted
  | rounds + 1 => do
    if (← peek).kind = .comma then
      advance
      advance
      let first ← level.expression .lowest
      let more ← parseMoreExpressions level rounds
      return first :: more
    else return []

/-- Expressions separated by commas, up to a closing token. -/
def parseExpressions (level : Level) (closing : TokenKind) : Parse (List Node) := do
  if (← peek).kind = closing then
    advance
    return []
  else
    advance
    let first ← level.expression .lowest
    let more ← parseMoreExpressions level (← rounds)
    expect closing
    return first :: more

/-- The parameters behind commas. -/
def parseMoreParameters : Nat → Parse (List Name)
  | 0 => exhausted
  | rounds + 1 => do
    if (← peek).kind = .comma then
      advance
      advance
      let first ← currentName
      let more ← parseMoreParameters rounds
      return first :: more
    else return []

/-- Parameters separated by commas, up to a closing parenthesis. Any token counts as a parameter. -/
def parseParameters : Parse (List Name) := do
  if (← peek).kind = .rparen then
    advance
    return []
  else
    advance
    let first ← currentName
    let more ← parseMoreParameters (← rounds)
    expect .rparen
    return first :: more

/-- The pairs of a dictionary, up to the closing brace. A key that cannot be read is still followed
by a colon and a value before the dictionary is refused. -/
def parsePairs (level : Level) : Nat → Parse (List (Node × Node))
  | 0 => exhausted
  | rounds + 1 => do
    if (← peek).kind = .rbrace then return []
    else
      advance
      let key? ← attempt (level.expression .lowest)
      expect .colon
      advance
      let value? ← attempt (level.expression .lowest)
      let key ← ofOption key?
      let value ← ofOption value?
      if (← peek).kind ≠ .rbrace then expect .comma
      let more ← parsePairs level rounds
      return (key, value) :: more

/-! ## Statements in a row -/

/-- The statements up to a token at which `stop` holds. Statements that are refused are left out. -/
def parseStatements (level : Level) (stop : TokenKind → Bool) : Nat → Parse (List Node)
  | 0 => exhausted
  | rounds + 1 => do
    if stop (← current).kind then return []
    else
      let statement? ← attempt level.statement
      advance
      let more ← parseStatements level stop rounds
      return statement?.toList ++ more

/-- The statements behind an opening brace, up to the closing brace or the end of the input. -/
def parseBlock (level : Level) : Parse Node := do
  let token ← current
  advance
  let statements ← parseStatements level (fun k => k = .rbrace ∨ k = .eof) (← rounds)
  return .block token statements

/-! ## Expressions -/

/-- An operator in front of its operand. -/
def parsePrefix (level : Level) : Parse Node := do
  let token ← current
  advance
  let right ← level.expression .prefixed
  return .prefixOp token token.literal right

/-- An expression in parentheses. -/
def parseGroup (level : Level) : Parse Node := do
  advance
  let inner? ← attempt (level.expression .lowest)
  expect .rparen
  ofOption inner?

/-- A condition in parentheses, up to the opening brace of the block behind it. -/
def parseCondition (level : Level) : Parse Node := do
  expect .lparen
  advance
  let condition ← level.expression .lowest
  expect .rparen
  expect .lbrace
  return condition

/-- A condition with one block or two. -/
def parseIf (level : Level) : Parse Node := do
  let token ← current
  let condition ← parseCondition level
  let consequence ← parseBlock level
  if (← peek).kind = .elseWord then
    advance
    expect .lbrace
    let alternative ← parseBlock level
    return .ifElse token condition consequence alternative
  else return .ifThen token condition consequence

/-- A function: parameters and a block. -/
def parseFunction (level : Level) : Parse Node := do
  let token ← current
  expect .lparen
  let parameters ← parseParameters
  expect .lbrace
  let body ← parseBlock level
  return .function token parameters body

/-- The elements of an array. -/
def parseArray (level : Level) : Parse Node := do
  let token ← current
  let elements ← parseExpressions level .rbracket
  return .array token elements

/-- The pairs of a dictionary. -/
def parseDictionary (level : Level) : Parse Node := do
  let token ← current
  let pairs ← parsePairs level (← rounds)
  expect .rbrace
  return .dictionary token pairs

/-- How an expression that begins with a kind of token is read. -/
def firstReading? (level : Level) : TokenKind → Option (Parse Node)
  | .ident => some parseIdentifier
  | .int => some parseNumber
  | .bang | .minus => some (parsePrefix level)
  | .trueWord | .falseWord => some parseBoolean
  | .lparen => some (parseGroup level)
  | .ifWord => some (parseIf level)
  | .function => some (parseFunction level)
  | .string => some parseString
  | .lbracket => some (parseArray level)
  | .lbrace => some (parseDictionary level)
  | _ => none

/-- An operator between the expression on its left and the one that follows. -/
def parseInfix (level : Level) (left : Node) : Parse Node := do
  let token ← current
  advance
  let right ← level.expression (.ofKind token.kind)
  return .infixOp token token.literal left right

/-- The arguments of a call. -/
def parseCall (level : Level) (function : Node) : Parse Node := do
  let token ← current
  let arguments ← parseExpressions level .rparen
  return .call token function arguments

/-- The index in brackets. -/
def parseIndex (level : Level) (left : Node) : Parse Node := do
  let token ← current
  advance
  let index ← level.expression .lowest
  expect .rbracket
  return .index token left index

/-- Extends an expression by the operator, call or index at the current token. -/
def parseExtension (level : Level) (left : Node) : Parse Node := do
  match (← current).kind with
  | .lparen => parseCall level left
  | .lbracket => parseIndex level left
  | _ => parseInfix level left

/-- Whether the next token extends an expression in a context of the given precedence. -/
def extends? (precedence : Precedence) : Parse Bool := do
  let kind := (← peek).kind
  return kind ≠ .semicolon ∧ precedence.rank < (Precedence.ofKind kind).rank

/-- Extends an expression to the right as long as the next token binds tighter than the context. If
there is no expression to extend, the token that would extend it is still passed. -/
def parseExtensions (level : Level) (precedence : Precedence) : Nat → Option Node → Parse Node
  | 0, _ => exhausted
  | rounds + 1, left? => do
    if ← extends? precedence then
      advance
      let left ← ofOption left?
      let extended? ← attempt (parseExtension level left)
      parseExtensions level precedence rounds extended?
    else ofOption left?

/-- An expression in a context of the given precedence. -/
def parseExpression (level : Level) (precedence : Precedence) : Parse Node := do
  let kind := (← current).kind
  match firstReading? level kind with
  | none =>
    report (.noExpression kind)
    refuse
  | some reading =>
    let first? ← attempt reading
    parseExtensions level precedence (← rounds) first?

/-! ## Statements -/

/-- The name, the equality sign and the value of a binding. -/
def parseBinding (level : Level) (node : Name → Node → Node) : Parse Node := do
  let name ← currentName
  expect .assign
  advance
  let value ← level.expression .lowest
  skipSemicolon
  return node name value

/-- A binding that may be changed later. -/
def parseLet (level : Level) : Parse Node := do
  let token ← current
  expect .ident
  parseBinding level (.letBinding token)

/-- A binding that stays. -/
def parseConst (level : Level) : Parse Node := do
  let token ← current
  expect .ident
  parseBinding level (.constBinding token)

/-- A change of the value of a name. -/
def parseAssignment (level : Level) : Parse Node :=
  parseBinding level (.assignment ⟨.assign, "="⟩)

/-- A return with a value. -/
def parseReturn (level : Level) : Parse Node := do
  let token ← current
  advance
  let value ← level.expression .lowest
  skipSemicolon
  return .returning token value

/-- A loop. -/
def parseWhile (level : Level) : Parse Node := do
  let token ← current
  let condition ← parseCondition level
  let body ← parseBlock level
  return .loop token condition body

/-- An expression as a statement. -/
def parseExpressionStatement (level : Level) : Parse Node := do
  let token ← current
  let expression ← level.expression .lowest
  skipSemicolon
  return .statement token expression

/-- A statement. -/
def parseStatement (level : Level) : Parse Node := do
  match (← current).kind with
  | .letWord => parseLet level
  | .returnWord => parseReturn level
  | .constWord => parseConst level
  | .whileWord => parseWhile level
  | .ident =>
    if (← peek).kind = .assign then parseAssignment level else parseExpressionStatement level
  | _ => parseExpressionStatement level

/-! ## Programs -/

/-- The readings of parts that are nested at most the given number of times. -/
def Level.ofDepth : Nat → Level
  | 0 => ⟨fun _ => exhausted, exhausted⟩
  | depth + 1 => ⟨parseExpression (ofDepth depth), parseStatement (ofDepth depth)⟩

/-- A depth of nesting that suffices for a number of tokens. -/
def depthFor (tokens : Nat) : Nat := 2 * tokens + 4

/-- The statements up to the end of the input. -/
def parseProgram (level : Level) : Parse (List Node) := do
  parseStatements level (· = .eof) (← rounds)

/-- A program and the errors in its text. -/
structure Parsed where
  statements : List Node
  errors : List SyntaxError
  deriving Inhabited

/-- The tree of the whole program. -/
def Parsed.tree (p : Parsed) : Node := .program p.statements

/-- Reads a program from its tokens. -/
def parseTokens (tokens : List Token) : Parsed :=
  match parseProgram (.ofDepth (depthFor tokens.length)) ⟨tokens, []⟩ with
  | .done statements rest => ⟨statements, rest.errors⟩
  | .refused rest => ⟨[], rest.errors⟩
  | .exhausted => ⟨[], []⟩

/-- Reads a program from its text. -/
def parse (text : String) : Parsed := parseTokens (tokenize text)

end Monkey
