import Monkey.Proofs.Grammar

/-!
# The grammar, resolved

The productions of the grammar with the choices made that the grammar leaves open: operators group by
precedence, and whatever can still be read as a part of a phrase is a part of it. `Reads part ts rest`
looks at no token behind the first one of `rest`.

* `Reads.derives` — what is read is a derivation.
* `Reads.length_le`, `Reads.begins` — what is read takes tokens, and an expression begins with a token
  that can begin one.
-/

namespace Monkey

/-- The kind of the next token; behind the last one it is the end of the input. -/
def nextKind (ts : List Token) : TokenKind := (ts.headD .eof).kind

@[simp]
theorem nextKind_cons (t : Token) (ts : List Token) : nextKind (t :: ts) = t.kind := rfl

/-- Whether a kind of token extends an expression in a context of the given precedence. -/
def Binds (context : Precedence) (kind : TokenKind) : Prop :=
  context.rank < (Precedence.ofKind kind).rank

/-- A token that binds tighter than some context is an operator, or it opens a call or an index. -/
theorem Binds.kind {context : Precedence} {kind : TokenKind} (h : Binds context kind) :
    kind = .lparen ∨ kind = .lbracket ∨ kind.isInfixOperator := by
  unfold Binds at h
  cases kind <;> simp [Precedence.ofKind, Precedence.rank, TokenKind.isInfixOperator] at h ⊢

/-- What is read, with the tree it is read as. -/
inductive Part where
  /-- An expression in a context of the given precedence. -/
  | expression (context : Precedence) (tree : Node)
  /-- An expression without extensions. -/
  | first (tree : Node)
  /-- One operator, call or index behind an expression, and the expression with it. -/
  | link (left tree : Node)
  /-- All that extends an expression in a context, and the expression with it. -/
  | extension (context : Precedence) (left tree : Node)
  | moreExpressions (trees : List Node)
  | expressions (trees : List Node)
  | moreParameters (names : List Name)
  | parameters (names : List Name)
  | pairs (trees : List (Node × Node))
  | block (tree : Node)
  | statement (tree : Node)
  | statements (trees : List Node)
  | ending

/-- The tokens begin with a part, read as far as it goes, and go on with the rest. -/
inductive Reads : Part → List Token → List Token → Prop where
  -- Literals and names
  | identifier (kind : t.kind = .ident) :
      Reads (.first (.identifier ⟨t, t.literal⟩)) (t :: rest) rest
  | integer (kind : t.kind = .int) (value : Numeral.readInt? t.literal = some n)
      (noPoint : nextKind rest ≠ .dot) : Reads (.first (.integer t n)) (t :: rest) rest
  | float (kind : t.kind = .int) (whole : Numeral.readInt? t.literal = some n)
      (dot : point.kind = .dot) (value : fractionValue? n fraction.literal = some x) :
      Reads (.first (.float point x)) (t :: point :: fraction :: rest) rest
  | floatAtEnd (kind : t.kind = .int) (whole : Numeral.readInt? t.literal = some n)
      (dot : point.kind = .dot) (value : fractionValue? n "" = some x) :
      Reads (.first (.float point x)) [t, point] []
  | boolean (kind : t.kind.isTruthWord) :
      Reads (.first (.boolean t (t.kind = .trueWord))) (t :: rest) rest
  | string (kind : t.kind = .string) : Reads (.first (.string t t.literal)) (t :: rest) rest
  -- Expressions
  | group (opening : l.kind = .lparen) (inner : Reads (.expression .lowest e) ts (r :: rest))
      (closing : r.kind = .rparen) : Reads (.first e) (l :: ts) rest
  | prefixOp (operator : t.kind.isPrefixOperator)
      (right : Reads (.expression .prefixed e) ts rest) :
      Reads (.first (.prefixOp t t.literal e)) (t :: ts) rest
  | ifThen (word : t.kind = .ifWord) (opening : l.kind = .lparen)
      (condition : Reads (.expression .lowest c) ts (r :: us)) (closing : r.kind = .rparen)
      (consequence : Reads (.block b) us rest) (noElse : nextKind rest ≠ .elseWord) :
      Reads (.first (.ifThen t c b)) (t :: l :: ts) rest
  | ifElse (word : t.kind = .ifWord) (opening : l.kind = .lparen)
      (condition : Reads (.expression .lowest c) ts (r :: us)) (closing : r.kind = .rparen)
      (consequence : Reads (.block b₁) us (w :: vs)) (otherwise : w.kind = .elseWord)
      (alternative : Reads (.block b₂) vs rest) :
      Reads (.first (.ifElse t c b₁ b₂)) (t :: l :: ts) rest
  | function (word : t.kind = .function) (opening : l.kind = .lparen)
      (parameters : Reads (.parameters ps) ts (r :: us)) (closing : r.kind = .rparen)
      (body : Reads (.block b) us rest) : Reads (.first (.function t ps b)) (t :: l :: ts) rest
  | array (opening : l.kind = .lbracket) (elements : Reads (.expressions es) ts (r :: rest))
      (closing : r.kind = .rbracket) : Reads (.first (.array l es)) (l :: ts) rest
  | dictionary (opening : l.kind = .lbrace) (inner : Reads (.pairs ps) ts (r :: rest))
      (closing : r.kind = .rbrace) : Reads (.first (.dictionary l ps)) (l :: ts) rest
  | infixOp (operator : t.kind.isInfixOperator)
      (right : Reads (.expression (.ofKind t.kind) e₂) us rest) :
      Reads (.link e₁ (.infixOp t t.literal e₁ e₂)) (t :: us) rest
  | call (opening : l.kind = .lparen) (arguments : Reads (.expressions es) us (r :: rest))
      (closing : r.kind = .rparen) : Reads (.link f (.call l f es)) (l :: us) rest
  | index (opening : l.kind = .lbracket) (inner : Reads (.expression .lowest i) us (r :: rest))
      (closing : r.kind = .rbracket) : Reads (.link e (.index l e i)) (l :: us) rest
  | unextended (loose : ¬Binds context (nextKind ts)) : Reads (.extension context e e) ts ts
  | extended (tight : Binds context (nextKind ts)) (link : Reads (.link e e₁) ts us)
      (more : Reads (.extension context e₁ e₂) us rest) :
      Reads (.extension context e e₂) ts rest
  | expression (first : Reads (.first e) ts us) (more : Reads (.extension context e e') us rest) :
      Reads (.expression context e') ts rest
  -- Lists
  | noMoreExpressions (noComma : nextKind ts ≠ .comma) : Reads (.moreExpressions []) ts ts
  | oneMoreExpression (comma : t.kind = .comma) (first : Reads (.expression .lowest e) ts us)
      (more : Reads (.moreExpressions es) us rest) :
      Reads (.moreExpressions (e :: es)) (t :: ts) rest
  | noExpressions : Reads (.expressions []) ts ts
  | someExpressions (first : Reads (.expression .lowest e) ts us)
      (more : Reads (.moreExpressions es) us rest) : Reads (.expressions (e :: es)) ts rest
  | noMoreParameters (noComma : nextKind ts ≠ .comma) : Reads (.moreParameters []) ts ts
  | oneMoreParameter (comma : c.kind = .comma) (more : Reads (.moreParameters ps) ts rest) :
      Reads (.moreParameters (⟨t, t.literal⟩ :: ps)) (c :: t :: ts) rest
  | noParameters : Reads (.parameters []) ts ts
  | someParameters (notClosing : t.kind ≠ .rparen) (more : Reads (.moreParameters ps) ts rest) :
      Reads (.parameters (⟨t, t.literal⟩ :: ps)) (t :: ts) rest
  | noPairs : Reads (.pairs []) ts ts
  | lastPair (key : Reads (.expression .lowest k) ts (t :: us)) (colon : t.kind = .colon)
      (value : Reads (.expression .lowest v) us rest) : Reads (.pairs [(k, v)]) ts rest
  | onePair (key : Reads (.expression .lowest k) ts (t :: us)) (colon : t.kind = .colon)
      (value : Reads (.expression .lowest v) us (c :: vs)) (comma : c.kind = .comma)
      (more : Reads (.pairs ps) vs rest) : Reads (.pairs ((k, v) :: ps)) ts rest
  -- Statements
  | noEnding (noSemicolon : nextKind ts ≠ .semicolon) : Reads .ending ts ts
  | semicolon (kind : t.kind = .semicolon) : Reads .ending (t :: rest) rest
  | letBinding (word : t.kind = .letWord) (name : x.kind = .ident) (sign : a.kind = .assign)
      (value : Reads (.expression .lowest e) ts us) (ending : Reads .ending us rest) :
      Reads (.statement (.letBinding t ⟨x, x.literal⟩ e)) (t :: x :: a :: ts) rest
  | constBinding (word : t.kind = .constWord) (name : x.kind = .ident) (sign : a.kind = .assign)
      (value : Reads (.expression .lowest e) ts us) (ending : Reads .ending us rest) :
      Reads (.statement (.constBinding t ⟨x, x.literal⟩ e)) (t :: x :: a :: ts) rest
  | assignment (name : x.kind = .ident) (sign : a.kind = .assign)
      (value : Reads (.expression .lowest e) ts us) (ending : Reads .ending us rest) :
      Reads (.statement (.assignment ⟨.assign, "="⟩ ⟨x, x.literal⟩ e)) (x :: a :: ts) rest
  | returning (word : t.kind = .returnWord) (value : Reads (.expression .lowest e) ts us)
      (ending : Reads .ending us rest) : Reads (.statement (.returning t e)) (t :: ts) rest
  | loop (word : t.kind = .whileWord) (opening : l.kind = .lparen)
      (condition : Reads (.expression .lowest c) ts (r :: us)) (closing : r.kind = .rparen)
      (body : Reads (.block b) us rest) : Reads (.statement (.loop t c b)) (t :: l :: ts) rest
  | statement (plain : ¬(t.kind = .ident ∧ nextKind ts = .assign))
      (value : Reads (.expression .lowest e) (t :: ts) us) (ending : Reads .ending us rest) :
      Reads (.statement (.statement t e)) (t :: ts) rest
  | noStatements : Reads (.statements []) ts ts
  | oneStatement (first : Reads (.statement s) ts us) (more : Reads (.statements ss) us rest) :
      Reads (.statements (s :: ss)) ts rest
  | block (opening : l.kind = .lbrace) (inner : Reads (.statements ss) ts (r :: rest))
      (closing : r.kind = .rbrace) : Reads (.block (.block l ss)) (l :: ts) rest
  | blockAtEnd (opening : l.kind = .lbrace) (inner : Reads (.statements ss) ts []) :
      Reads (.block (.block l ss)) (l :: ts) []

/-! ## What is read is a derivation -/

/-- What a part says in the grammar: an extension makes an expression longer. -/
def Part.IsDerived (ts rest : List Token) : Part → Prop
  | .expression _ e | .first e => Derives (.expression e) ts rest
  | .link left e | .extension _ left e =>
    ∀ us, Derives (.expression left) us ts → Derives (.expression e) us rest
  | .moreExpressions es => Derives (.moreExpressions es) ts rest
  | .expressions es => Derives (.expressions es) ts rest
  | .moreParameters ps => Derives (.moreParameters ps) ts rest
  | .parameters ps => Derives (.parameters ps) ts rest
  | .pairs ps => Derives (.pairs ps) ts rest
  | .block b => Derives (.block b) ts rest
  | .statement s => Derives (.statement s) ts rest
  | .statements ss => Derives (.statements ss) ts rest
  | .ending => Derives .ending ts rest

namespace Reads

variable {part : Part} {ts rest : List Token}

/-- **What is read is a derivation**, and an extension extends one. -/
theorem derives (h : Reads part ts rest) : part.IsDerived ts rest := by
  induction h with
  | identifier kind => exact .identifier kind
  | integer kind value _ => exact .integer kind value
  | float kind whole dot value => exact .float kind whole dot value
  | floatAtEnd kind whole dot value => exact .floatAtEnd kind whole dot value
  | boolean kind => exact .boolean kind
  | string kind => exact .string kind
  | group opening _ closing ih => exact .group opening ih closing
  | prefixOp operator _ ih => exact .prefixOp operator ih
  | ifThen word opening _ closing _ _ ihc ihb => exact .ifThen word opening ihc closing ihb
  | ifElse word opening _ closing _ otherwise _ ihc ihb₁ ihb₂ =>
    exact .ifElse word opening ihc closing ihb₁ otherwise ihb₂
  | function word opening _ closing _ ihps ihb => exact .function word opening ihps closing ihb
  | array opening _ closing ih => exact .array opening ih closing
  | dictionary opening _ closing ih => exact .dictionary opening ih closing
  | infixOp operator _ ih => intro us hleft; exact .infixOp hleft operator ih
  | call opening _ closing ih => intro us hleft; exact .call hleft opening ih closing
  | index opening _ closing ih => intro us hleft; exact .index hleft opening ih closing
  | unextended _ => intro us hleft; exact hleft
  | extended _ _ _ ihlink ihmore => intro us hleft; exact ihmore us (ihlink us hleft)
  | expression _ _ ihfirst ihmore => exact ihmore _ ihfirst
  | noMoreExpressions _ => exact .noMoreExpressions
  | oneMoreExpression comma _ _ ihfirst ihmore => exact .oneMoreExpression comma ihfirst ihmore
  | noExpressions => exact .noExpressions
  | someExpressions _ _ ihfirst ihmore => exact .someExpressions ihfirst ihmore
  | noMoreParameters _ => exact .noMoreParameters
  | oneMoreParameter comma _ ih => exact .oneMoreParameter comma ih
  | noParameters => exact .noParameters
  | someParameters _ _ ih => exact .someParameters ih
  | noPairs => exact .noPairs
  | lastPair _ colon _ ihk ihv => exact .lastPair ihk colon ihv
  | onePair _ colon _ comma _ ihk ihv ihps => exact .onePair ihk colon ihv comma ihps
  | noEnding _ => exact .noEnding
  | semicolon kind => exact .semicolon kind
  | letBinding word name sign _ _ ihv ihend => exact .letBinding word name sign ihv ihend
  | constBinding word name sign _ _ ihv ihend => exact .constBinding word name sign ihv ihend
  | assignment name sign _ _ ihv ihend => exact .assignment name sign ihv ihend
  | returning word _ _ ihv ihend => exact .returning word ihv ihend
  | loop word opening _ closing _ ihc ihb => exact .loop word opening ihc closing ihb
  | statement _ _ _ ihv ihend => exact .statement ihv ihend
  | noStatements => exact .noStatements
  | oneStatement _ _ ihfirst ihmore => exact .oneStatement ihfirst ihmore
  | block opening _ closing ih => exact .block opening ih closing
  | blockAtEnd opening _ ih => exact .blockAtEnd opening ih

/-! ## Beginnings and lengths -/

end Reads

/-- The least number of tokens of a part. -/
def Part.weight : Part → Nat
  | expression .. | first _ | link .. | block _ | statement _ => 1
  | extension .. | moreExpressions _ | expressions _ | moreParameters _ | parameters _ | pairs _
  | statements _ | ending => 0

/-- A part takes at least as many tokens as it weighs. -/
theorem Reads.length_le {part : Part} {ts rest : List Token} (h : Reads part ts rest) :
    rest.length + part.weight ≤ ts.length := by
  induction h <;> simp only [List.length_cons, List.length_nil, Part.weight] at * <;> omega

namespace TokenKind

/-- The kinds of token that begin an expression. -/
def beginsExpression : TokenKind → Bool
  | ident | int | bang | minus | trueWord | falseWord | lparen | ifWord | function | string
  | lbracket | lbrace => true
  | _ => false

end TokenKind

namespace Reads

variable {ts rest : List Token} {e s : Node}

theorem begins_of_first (h : Reads (.first e) ts rest) : (nextKind ts).beginsExpression := by
  cases h with
  | identifier kind | integer kind | float kind | floatAtEnd kind | string kind =>
    rw [nextKind_cons, kind]
    rfl
  | boolean kind =>
    rcases TokenKind.isTruthWord_iff.mp kind with h | h <;> rw [nextKind_cons, h] <;> rfl
  | prefixOp operator =>
    rcases TokenKind.isPrefixOperator_iff.mp operator with h | h <;> rw [nextKind_cons, h] <;> rfl
  | group opening | array opening | dictionary opening =>
    rw [nextKind_cons, opening]
    rfl
  | ifThen word | ifElse word | function word =>
    rw [nextKind_cons, word]
    rfl

/-- An expression begins with a token that can begin one. -/
theorem begins {context : Precedence} (h : Reads (.expression context e) ts rest) :
    (nextKind ts).beginsExpression := by
  cases h with
  | expression first _ => exact first.begins_of_first

/-- A statement does not begin where statements end. -/
theorem begins_statement (h : Reads (.statement s) ts rest) :
    nextKind ts ≠ .rbrace ∧ nextKind ts ≠ .eof := by
  cases h with
  | letBinding word | constBinding word | returning word | loop word =>
    rw [nextKind_cons, word]
    exact ⟨TokenKind.noConfusion, TokenKind.noConfusion⟩
  | assignment name =>
    rw [nextKind_cons, name]
    exact ⟨TokenKind.noConfusion, TokenKind.noConfusion⟩
  | statement _ value =>
    have hbegins := value.begins
    refine ⟨fun h => ?_, fun h => ?_⟩ <;> rw [h] at hbegins <;> exact absurd hbegins (by decide)

end Reads

end Monkey
