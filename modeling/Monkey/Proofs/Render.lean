import Monkey.Proofs.ParserComplete

/-!
# Reading back what was written

`Node.render` writes a tree as tokens in which parentheses leave nothing to precedences. The main
statement, `parseTokens_render`, says that a well-formed program is read back from its tokens; only
the tokens kept in expression statements may differ, because they tell where a statement began.

A call is the one expression that is not closed by parentheses or brackets of its own. So the reading
of a written expression is stated with all that may still extend it.
-/

namespace Monkey

/-! ## Writing -/

/-- The token of a sign. -/
def TokenKind.sign (kind : TokenKind) : Token := ⟨kind, kind.mark⟩

@[simp]
theorem TokenKind.kind_sign (kind : TokenKind) : kind.sign.kind = kind := rfl

/-- Parts with commas between them. -/
def withCommas (parts : List (List Token)) : List Token :=
  List.intercalate [TokenKind.comma.sign] parts

namespace Node

variable (spell : Binary64 → String × String)

mutual

/-- The tokens of a tree. A tree that keeps a token is written with it; `spell` gives the numerals on
both sides of the point of a binary number. -/
@[simp]
def render : Node → List Token
  | missing => []
  | program statements => (renderEach statements).flatten
  | block token statements => token :: (renderEach statements).flatten ++ [TokenKind.rbrace.sign]
  | letBinding token name value | constBinding token name value =>
    token :: name.token :: TokenKind.assign.sign :: render value ++ [TokenKind.semicolon.sign]
  | assignment token name value =>
    name.token :: token :: render value ++ [TokenKind.semicolon.sign]
  | returning token value => token :: render value ++ [TokenKind.semicolon.sign]
  | loop token condition body =>
    token :: TokenKind.lparen.sign :: render condition ++ TokenKind.rparen.sign :: render body
  | statement _ expression => render expression ++ [TokenKind.semicolon.sign]
  | identifier name => [name.token]
  | integer token _ | boolean token _ | string token _ => [token]
  | float token value => [⟨.int, (spell value).1⟩, token, ⟨.int, (spell value).2⟩]
  | prefixOp token _ right =>
    TokenKind.lparen.sign :: token :: render right ++ [TokenKind.rparen.sign]
  | infixOp token _ left right =>
    TokenKind.lparen.sign :: render left ++ token :: render right ++ [TokenKind.rparen.sign]
  | ifThen token condition consequence =>
    TokenKind.lparen.sign :: token :: TokenKind.lparen.sign :: render condition ++
      TokenKind.rparen.sign :: render consequence ++ [TokenKind.rparen.sign]
  | ifElse token condition consequence alternative =>
    TokenKind.lparen.sign :: token :: TokenKind.lparen.sign :: render condition ++
      TokenKind.rparen.sign :: render consequence ++
        ⟨.elseWord, "else"⟩ :: render alternative ++ [TokenKind.rparen.sign]
  | function token parameters body =>
    TokenKind.lparen.sign :: token :: TokenKind.lparen.sign ::
      withCommas (parameters.map fun name => [name.token]) ++
        TokenKind.rparen.sign :: render body ++ [TokenKind.rparen.sign]
  | call token callee arguments =>
    TokenKind.lparen.sign :: render callee ++ TokenKind.rparen.sign :: token ::
      withCommas (renderEach arguments) ++ [TokenKind.rparen.sign]
  | array token elements => token :: withCommas (renderEach elements) ++ [TokenKind.rbracket.sign]
  | index token left position =>
    TokenKind.lparen.sign :: render left ++ token :: render position ++
      [TokenKind.rbracket.sign, TokenKind.rparen.sign]
  | dictionary token pairs => token :: withCommas (renderPairs pairs) ++ [TokenKind.rbrace.sign]

/-- The tokens of each of several trees. -/
@[simp]
def renderEach : List Node → List (List Token)
  | [] => []
  | node :: nodes => render node :: renderEach nodes

/-- The tokens of each of several pairs. -/
@[simp]
def renderPairs : List (Node × Node) → List (List Token)
  | [] => []
  | (key, value) :: pairs =>
    (render key ++ TokenKind.colon.sign :: render value) :: renderPairs pairs

end

variable (mark : Node → Token)

mutual

/-- The tree with other tokens in its expression statements, chosen by their expressions. -/
def restamp : Node → Node
  | program statements => program (restampEach statements)
  | block token statements => block token (restampEach statements)
  | letBinding token name value => letBinding token name (restamp value)
  | constBinding token name value => constBinding token name (restamp value)
  | assignment token name value => assignment token name (restamp value)
  | returning token value => returning token (restamp value)
  | loop token condition body => loop token (restamp condition) (restamp body)
  | statement _ expression => statement (mark expression) (restamp expression)
  | prefixOp token operator right => prefixOp token operator (restamp right)
  | infixOp token operator left right => infixOp token operator (restamp left) (restamp right)
  | ifThen token condition consequence => ifThen token (restamp condition) (restamp consequence)
  | ifElse token condition consequence alternative =>
    ifElse token (restamp condition) (restamp consequence) (restamp alternative)
  | function token parameters body => function token parameters (restamp body)
  | call token callee arguments => call token (restamp callee) (restampEach arguments)
  | array token elements => array token (restampEach elements)
  | index token left position => index token (restamp left) (restamp position)
  | dictionary token pairs => dictionary token (restampPairs pairs)
  | node => node

def restampEach : List Node → List Node
  | [] => []
  | node :: nodes => restamp node :: restampEach nodes

def restampPairs : List (Node × Node) → List (Node × Node)
  | [] => []
  | (key, value) :: pairs => (restamp key, restamp value) :: restampPairs pairs

end

/-- The tree without the tokens of its expression statements. -/
def unstamped : Node → Node := restamp fun _ => .eof

/-- The token at which a tree begins when it is written. -/
def firstToken (node : Node) : Token := (node.render spell).headD .eof

/-- The tree with the tokens at which its expression statements begin when it is written. -/
def stamped : Node → Node := restamp (firstToken spell)

def stampedEach : List Node → List Node := restampEach (firstToken spell)

def stampedPairs : List (Node × Node) → List (Node × Node) := restampPairs (firstToken spell)

variable (last : Token)

mutual

/-- Only the last tokens that were put in remain. -/
theorem restamp_restamp : ∀ node : Node,
    (node.restamp mark).restamp (fun _ => last) = node.restamp fun _ => last
  | program ss | block _ ss | array _ ss => by simp only [restamp, restampEach_restampEach ss]
  | letBinding _ _ e | constBinding _ _ e | assignment _ _ e | returning _ e | statement _ e
  | prefixOp _ _ e | function _ _ e => by simp only [restamp, restamp_restamp e]
  | loop _ a b | infixOp _ _ a b | ifThen _ a b | index _ a b => by
    simp only [restamp, restamp_restamp a, restamp_restamp b]
  | ifElse _ a b c => by
    simp only [restamp, restamp_restamp a, restamp_restamp b, restamp_restamp c]
  | call _ f es => by simp only [restamp, restamp_restamp f, restampEach_restampEach es]
  | dictionary _ ps => by simp only [restamp, restampPairs_restampPairs ps]
  | missing | identifier _ | integer .. | float .. | boolean .. | string .. => by simp only [restamp]

theorem restampEach_restampEach : ∀ nodes : List Node,
    restampEach (fun _ => last) (restampEach mark nodes) = restampEach (fun _ => last) nodes
  | [] => rfl
  | node :: nodes => by
    simp only [restampEach, restamp_restamp node, restampEach_restampEach nodes]

theorem restampPairs_restampPairs : ∀ pairs : List (Node × Node),
    restampPairs (fun _ => last) (restampPairs mark pairs) = restampPairs (fun _ => last) pairs
  | [] => rfl
  | (key, value) :: pairs => by
    simp only [restampPairs, restamp_restamp key, restamp_restamp value,
      restampPairs_restampPairs pairs]

end

/-! Each of several trees is written and restamped for itself. -/

theorem renderEach_eq_map (es : List Node) : renderEach spell es = es.map (render spell) := by
  induction es with
  | nil => rfl
  | cons e es ih => rw [renderEach, ih, List.map_cons]

theorem renderPairs_eq_map (pairs : List (Node × Node)) : renderPairs spell pairs =
    pairs.map fun pair => pair.1.render spell ++ TokenKind.colon.sign :: pair.2.render spell := by
  induction pairs with
  | nil => rfl
  | cons pair pairs ih => rw [renderPairs, ih, List.map_cons]

theorem stampedEach_eq_map (es : List Node) : stampedEach spell es = es.map (stamped spell) := by
  induction es with
  | nil => rfl
  | cons e es ih => rw [List.map_cons, ← ih]; rfl

theorem stampedPairs_eq_map (pairs : List (Node × Node)) : stampedPairs spell pairs =
    pairs.map fun pair => (pair.1.stamped spell, pair.2.stamped spell) := by
  induction pairs with
  | nil => rfl
  | cons pair pairs ih => rw [List.map_cons, ← ih]; rfl

end Node

/-! ## Well-formed trees -/

/-- A name that can be read: an identifier with its own text. -/
structure Name.WellFormed (name : Name) : Prop where
  kind : name.token.kind = .ident
  value : name.value = name.token.literal

/-- Where a tree stands. -/
inductive Place where
  | expression
  | block
  | statement

/-- A tree that stands where it belongs and keeps the tokens it is written with. -/
inductive WellFormed (spell : Binary64 → String × String) : Place → Node → Prop where
  | identifier (name : x.WellFormed) : WellFormed spell .expression (.identifier x)
  | integer (kind : t.kind = .int) (value : Numeral.readInt? t.literal = some n) :
      WellFormed spell .expression (.integer t n)
  | float (dot : t.kind = .dot) (whole : Numeral.readInt? (spell x).1 = some n)
      (value : fractionValue? n (spell x).2 = some x) : WellFormed spell .expression (.float t x)
  | boolean (kind : t.kind.isTruthWord) (value : b = decide (t.kind = .trueWord)) :
      WellFormed spell .expression (.boolean t b)
  | string (kind : t.kind = .string) (value : s = t.literal) :
      WellFormed spell .expression (.string t s)
  | prefixOp (kind : t.kind.isPrefixOperator) (operator : o = t.literal)
      (right : WellFormed spell .expression e) : WellFormed spell .expression (.prefixOp t o e)
  | infixOp (kind : t.kind.isInfixOperator) (operator : o = t.literal)
      (left : WellFormed spell .expression e₁) (right : WellFormed spell .expression e₂) :
      WellFormed spell .expression (.infixOp t o e₁ e₂)
  | ifThen (word : t.kind = .ifWord) (condition : WellFormed spell .expression c)
      (consequence : WellFormed spell .block b) : WellFormed spell .expression (.ifThen t c b)
  | ifElse (word : t.kind = .ifWord) (condition : WellFormed spell .expression c)
      (consequence : WellFormed spell .block b₁) (alternative : WellFormed spell .block b₂) :
      WellFormed spell .expression (.ifElse t c b₁ b₂)
  | function (word : t.kind = .function) (parameters : ∀ x ∈ ps, x.WellFormed)
      (body : WellFormed spell .block b) : WellFormed spell .expression (.function t ps b)
  | call (opening : t.kind = .lparen) (callee : WellFormed spell .expression f)
      (arguments : ∀ e ∈ es, WellFormed spell .expression e) :
      WellFormed spell .expression (.call t f es)
  | array (opening : t.kind = .lbracket) (elements : ∀ e ∈ es, WellFormed spell .expression e) :
      WellFormed spell .expression (.array t es)
  | index (opening : t.kind = .lbracket) (left : WellFormed spell .expression e)
      (position : WellFormed spell .expression i) : WellFormed spell .expression (.index t e i)
  | dictionary (opening : t.kind = .lbrace)
      (keys : ∀ pair ∈ ps, WellFormed spell .expression pair.1)
      (values : ∀ pair ∈ ps, WellFormed spell .expression pair.2) :
      WellFormed spell .expression (.dictionary t ps)
  | block (opening : t.kind = .lbrace) (statements : ∀ s ∈ ss, WellFormed spell .statement s) :
      WellFormed spell .block (.block t ss)
  | letBinding (word : t.kind = .letWord) (name : x.WellFormed)
      (value : WellFormed spell .expression e) : WellFormed spell .statement (.letBinding t x e)
  | constBinding (word : t.kind = .constWord) (name : x.WellFormed)
      (value : WellFormed spell .expression e) : WellFormed spell .statement (.constBinding t x e)
  | assignment (name : x.WellFormed) (value : WellFormed spell .expression e) :
      WellFormed spell .statement (.assignment TokenKind.assign.sign x e)
  | returning (word : t.kind = .returnWord) (value : WellFormed spell .expression e) :
      WellFormed spell .statement (.returning t e)
  | loop (word : t.kind = .whileWord) (condition : WellFormed spell .expression c)
      (body : WellFormed spell .block b) : WellFormed spell .statement (.loop t c b)
  | statement (value : WellFormed spell .expression e) :
      WellFormed spell .statement (.statement t e)

/-! ## Expressions behind which something may follow -/

/-- The signs that stand behind an expression and are no part of it. -/
def TokenKind.endsExpression : TokenKind → Bool
  | comma | semicolon | colon | rparen | rbrace | rbracket => true
  | _ => false

/-- A token that ends an expression extends none. -/
theorem not_binds_of_endsExpression {context : Precedence} {kind : TokenKind}
    (h : kind.endsExpression) : ¬Binds context kind := by
  unfold Binds
  cases kind <;> first | exact Nat.not_lt_zero _ | exact absurd h (by decide)

/-- A call binds tighter than any operator. -/
theorem binds_lparen_of_isInfixOperator {kind : TokenKind} (h : kind.isInfixOperator) :
    Binds (.ofKind kind) .lparen := by
  unfold Binds
  cases kind <;> first | decide | exact absurd h (by decide)

theorem binds_lowest_of_isInfixOperator {kind : TokenKind} (h : kind.isInfixOperator) :
    Binds .lowest kind := by
  unfold Binds
  cases kind <;> first | decide | exact absurd h (by decide)

/-- The tokens are read as the expression, wherever it stands alone. -/
def ReadsAlone (ts : List Token) (e : Node) : Prop :=
  ∀ rest, (nextKind rest).endsExpression → Reads (.expression .lowest e) (ts ++ rest) rest

/-- The tokens are read as the expression in every context in which a call binds, with all that
extends it. -/
def ReadsExtended (ts : List Token) (e : Node) : Prop :=
  ∀ context rest e' rest', Binds context .lparen → nextKind rest ≠ .dot →
    Reads (.extension context e e') rest rest' → Reads (.expression context e') (ts ++ rest) rest'

namespace ReadsExtended

variable {ts ts' rest : List Token} {e e' : Node} {t : Token}

/-- Where the expression ends, nothing extends it. -/
theorem closed {context : Precedence} (h : ReadsExtended ts e) (hcall : Binds context .lparen)
    (hrest : (nextKind rest).endsExpression) :
    Reads (.expression context e) (ts ++ rest) rest := by
  refine h context _ _ _ hcall ?_ (.unextended (not_binds_of_endsExpression hrest))
  intro hdot
  rw [hdot] at hrest
  exact absurd hrest (by decide)

theorem alone (h : ReadsExtended ts e) : ReadsAlone ts e :=
  fun _ hrest => h.closed (by unfold Binds; decide) hrest

/-- What is read without an extension can be extended. -/
theorem of_first (h : ∀ rest, nextKind rest ≠ .dot → Reads (.first e) (ts ++ rest) rest) :
    ReadsExtended ts e := by
  intro context rest e' rest' _ hdot hmore
  exact .expression (h rest hdot) hmore

/-- An expression in parentheses of its own. -/
theorem group (h : ReadsAlone ts e) :
    ReadsExtended (TokenKind.lparen.sign :: ts ++ [TokenKind.rparen.sign]) e := by
  refine of_first fun rest _ => ?_
  rw [List.append_assoc, List.cons_append]
  exact .group rfl (h _ rfl) rfl

/-- An operator in front and its operand, in parentheses. -/
theorem prefixOp (hkind : t.kind.isPrefixOperator) (h : ReadsExtended ts e) :
    ReadsExtended (TokenKind.lparen.sign :: t :: ts ++ [TokenKind.rparen.sign])
      (.prefixOp t t.literal e) := by
  have halone : ReadsAlone (t :: ts) (.prefixOp t t.literal e) := fun rest hrest =>
    .expression (.prefixOp hkind (h.closed (by unfold Binds; decide) hrest))
      (.unextended (not_binds_of_endsExpression hrest))
  exact .group halone

/-- An operator between two operands, in parentheses. -/
theorem infixOp (hkind : t.kind.isInfixOperator) (hleft : ReadsExtended ts e)
    (hright : ReadsExtended ts' e') :
    ReadsExtended (TokenKind.lparen.sign :: ts ++ t :: ts' ++ [TokenKind.rparen.sign])
      (.infixOp t t.literal e e') := by
  have halone : ReadsAlone (ts ++ t :: ts') (.infixOp t t.literal e e') := by
    intro rest hrest
    rw [List.append_assoc, List.cons_append]
    refine hleft _ _ _ _ (by unfold Binds; decide) ?_ ?_
    · show t.kind ≠ .dot
      intro hdot
      rw [hdot] at hkind
      exact absurd hkind (by decide)
    · refine .extended (binds_lowest_of_isInfixOperator hkind)
        (.infixOp hkind (hright.closed (binds_lparen_of_isInfixOperator hkind) hrest)) ?_
      exact .unextended (not_binds_of_endsExpression hrest)
  exact .group halone

/-- An index, in parentheses. -/
theorem index (hopening : t.kind = .lbracket) (hleft : ReadsExtended ts e)
    (hindex : ReadsAlone ts' e') :
    ReadsExtended (TokenKind.lparen.sign :: (ts ++ t :: ts' ++ [TokenKind.rbracket.sign]) ++
      [TokenKind.rparen.sign]) (.index t e e') := by
  refine .group fun rest hrest => ?_
  rw [List.append_assoc, List.append_assoc, List.cons_append]
  refine hleft _ _ _ _ (by unfold Binds; decide) ?_ ?_
  · rw [nextKind_cons, hopening]
    exact TokenKind.noConfusion
  · refine .extended ?_ (.index hopening (hindex _ rfl) rfl)
      (.unextended (not_binds_of_endsExpression hrest))
    rw [nextKind_cons, hopening]
    unfold Binds
    decide

/-- There are no parentheses around a call, so the context must let it bind. -/
theorem call {es : List Node} (hopening : t.kind = .lparen) (hcallee : ReadsExtended ts e)
    (harguments : ∀ rest, Reads (.expressions es) (ts' ++ TokenKind.rparen.sign :: rest)
      (TokenKind.rparen.sign :: rest)) :
    ReadsExtended (ts ++ t :: ts' ++ [TokenKind.rparen.sign]) (.call t e es) := by
  intro context rest e' rest' hcall _ hmore
  rw [List.append_assoc, List.append_assoc, List.cons_append]
  refine hcallee _ _ _ _ hcall ?_ (.extended ?_ (.call hopening (harguments rest) rfl) hmore)
  · rw [nextKind_cons, hopening]
    exact TokenKind.noConfusion
  · rw [nextKind_cons, hopening]
    exact hcall

end ReadsExtended

section

variable (spell : Binary64 → String × String)

/-- What is written is read back. An expression is read in every context in which a call binds, with
all that extends it. -/
def ReadsBack : Place → Node → Prop
  | .expression, e => ∀ context rest e' rest', Binds context .lparen → nextKind rest ≠ .dot →
      Reads (.extension context (e.stamped spell) e') rest rest' →
      Reads (.expression context e') (e.render spell ++ rest) rest'
  | .block, b => ∀ rest, Reads (.block (b.stamped spell)) (b.render spell ++ rest) rest
  | .statement, s => ∀ rest, Reads (.statement (s.stamped spell)) (s.render spell ++ rest) rest

variable {spell} {e : Node} {t : Token} {rest : List Token}

/-- In brackets or between commas an expression stands alone. -/
theorem ReadsBack.alone (h : ReadsBack spell .expression e)
    (hrest : (nextKind rest).endsExpression) :
    Reads (.expression .lowest (e.stamped spell)) (e.render spell ++ rest) rest :=
  ReadsExtended.alone h rest hrest

/-- An expression that needs no parentheses. -/
theorem readsBack_of_first
    (h : ∀ rest, nextKind rest ≠ .dot →
      Reads (.first (e.stamped spell)) (e.render spell ++ rest) rest) :
    ReadsBack spell .expression e :=
  ReadsExtended.of_first h

/-- An expression in parentheses of its own. -/
theorem readsBack_of_group (ts : List Token)
    (hrender : e.render spell = TokenKind.lparen.sign :: ts ++ [TokenKind.rparen.sign])
    (h : ReadsAlone ts (e.stamped spell)) : ReadsBack spell .expression e := by
  have hreads := ReadsExtended.group h
  rw [← hrender] at hreads
  exact hreads

/-! ## Lists -/

theorem withCommas_cons_cons (part next : List Token) (parts : List (List Token)) :
    withCommas (part :: next :: parts) =
      part ++ TokenKind.comma.sign :: withCommas (next :: parts) := by
  simp [withCommas, List.intercalate]

/-- A comma stands in front of every part but the first. -/
theorem withCommas_cons (part : List Token) (parts : List (List Token)) :
    withCommas (part :: parts) = part ++ parts.flatMap (TokenKind.comma.sign :: ·) := by
  induction parts generalizing part with
  | nil => simp [withCommas, List.intercalate]
  | cons next parts ih => rw [withCommas_cons_cons, ih, List.flatMap_cons, List.cons_append]

/-- Behind each part there is a comma or the token behind the list. -/
theorem nextKind_behindCommas (parts : List (List Token)) (ht : t.kind.endsExpression) :
    (nextKind (parts.flatMap (TokenKind.comma.sign :: ·) ++ t :: rest)).endsExpression := by
  cases parts with
  | nil => exact ht
  | cons part parts => rfl

/-- By induction on the parts: a comma, and what stands alone behind it. -/
theorem reads_moreExpressions (rest : List Token) {parts : List (List Token × Node)}
    (ht : t.kind.endsExpression) (hcomma : t.kind ≠ .comma)
    (h : ∀ part ∈ parts, ReadsAlone part.1 part.2) :
    Reads (.moreExpressions (parts.map Prod.snd))
      ((parts.map Prod.fst).flatMap (TokenKind.comma.sign :: ·) ++ t :: rest) (t :: rest) := by
  induction parts with
  | nil => exact .noMoreExpressions hcomma
  | cons part parts ih =>
    obtain ⟨hfirst, hparts⟩ := List.forall_mem_cons.mp h
    simp only [List.map_cons, List.flatMap_cons, List.cons_append, List.append_assoc]
    exact .oneMoreExpression rfl (hfirst _ (nextKind_behindCommas _ ht)) (ih hparts)

/-- Expressions with commas between them. -/
theorem reads_expressions (rest : List Token) {parts : List (List Token × Node)}
    (ht : t.kind.endsExpression) (hcomma : t.kind ≠ .comma)
    (h : ∀ part ∈ parts, ReadsAlone part.1 part.2) :
    Reads (.expressions (parts.map Prod.snd))
      (withCommas (parts.map Prod.fst) ++ t :: rest) (t :: rest) := by
  cases parts with
  | nil => exact .noExpressions
  | cons part parts =>
    obtain ⟨hfirst, hparts⟩ := List.forall_mem_cons.mp h
    simp only [List.map_cons, withCommas_cons, List.append_assoc]
    exact .someExpressions (hfirst _ (nextKind_behindCommas _ ht))
      (reads_moreExpressions rest ht hcomma hparts)

/-- The tokens of a pair, whose key and value are given with their tokens. -/
def pairTokens (pair : (List Token × Node) × (List Token × Node)) : List Token :=
  pair.1.1 ++ TokenKind.colon.sign :: pair.2.1

/-- The nodes of a pair. -/
def pairNodes (pair : (List Token × Node) × (List Token × Node)) : Node × Node :=
  (pair.1.2, pair.2.2)

/-- Pairs with commas between them. -/
theorem reads_pairs (rest : List Token)
    {pairs : List ((List Token × Node) × (List Token × Node))} (ht : t.kind.endsExpression)
    (h : ∀ pair ∈ pairs, ReadsAlone pair.1.1 pair.1.2 ∧ ReadsAlone pair.2.1 pair.2.2) :
    Reads (.pairs (pairs.map pairNodes)) (withCommas (pairs.map pairTokens) ++ t :: rest)
      (t :: rest) := by
  induction pairs with
  | nil => exact .noPairs
  | cons pair pairs ih =>
    obtain ⟨⟨hkey, hvalue⟩, hpairs⟩ := List.forall_mem_cons.mp h
    -- a comma stands only before a further pair, so the last pair is read on its own
    cases pairs with
    | nil =>
      simp only [List.map_cons, List.map_nil, withCommas_cons, List.append_assoc, pairTokens]
      exact .lastPair (hkey _ rfl) rfl (hvalue _ ht)
    | cons next pairs =>
      have hmore := ih hpairs
      simp only [List.map_cons] at hmore ⊢
      rw [withCommas_cons_cons, List.append_assoc, pairTokens, List.append_assoc]
      exact .onePair (hkey _ rfl) rfl (hvalue _ rfl) rfl hmore

theorem Name.WellFormed.eq {x : Name} (h : x.WellFormed) : ⟨x.token, x.token.literal⟩ = x := by
  rw [← h.value]

theorem reads_moreParameters (rest : List Token) {ps : List Name} (hcomma : t.kind ≠ .comma)
    (h : ∀ x ∈ ps, x.WellFormed) :
    Reads (.moreParameters ps)
      ((ps.map fun x => [x.token]).flatMap (TokenKind.comma.sign :: ·) ++ t :: rest) (t :: rest) := by
  induction ps with
  | nil => exact .noMoreParameters hcomma
  | cons x ps ih =>
    have hmore := ih fun y hy => h y (List.mem_cons_of_mem _ hy)
    rw [← (h x List.mem_cons_self).eq]
    exact .oneMoreParameter rfl hmore

/-- Parameters with commas between them. -/
theorem reads_parameters (rest : List Token) {ps : List Name} (hcomma : t.kind ≠ .comma)
    (h : ∀ x ∈ ps, x.WellFormed) :
    Reads (.parameters ps) (withCommas (ps.map fun x => [x.token]) ++ t :: rest) (t :: rest) := by
  cases ps with
  | nil => exact .noParameters
  | cons x ps =>
    have hx := h x List.mem_cons_self
    have hmore := reads_moreParameters rest hcomma fun y hy =>
      h y (List.mem_cons_of_mem _ hy)
    rw [List.map_cons, withCommas_cons, ← hx.eq]
    exact .someParameters (by rw [hx.kind]; exact TokenKind.noConfusion) hmore

/-- Expressions that are read back one by one are read back in a list. -/
theorem reads_renderEach (rest : List Token) {es : List Node} (ht : t.kind.endsExpression)
    (hcomma : t.kind ≠ .comma) (h : ∀ e ∈ es, ReadsBack spell .expression e) :
    Reads (.expressions (Node.stampedEach spell es))
      (withCommas (Node.renderEach spell es) ++ t :: rest) (t :: rest) := by
  have hparts : ∀ part ∈ es.map fun e => (e.render spell, e.stamped spell),
      ReadsAlone part.1 part.2 := by
    intro part hpart
    obtain ⟨e, he, rfl⟩ := List.mem_map.mp hpart
    exact fun rest hrest => (h e he).alone hrest
  have hreads := reads_expressions rest ht hcomma hparts
  rw [List.map_map, List.map_map] at hreads
  rw [Node.stampedEach_eq_map, Node.renderEach_eq_map]
  exact hreads

/-- Pairs that are read back one by one are read back in a dictionary. -/
theorem reads_renderPairs (rest : List Token) {ps : List (Node × Node)} (ht : t.kind.endsExpression)
    (hkeys : ∀ pair ∈ ps, ReadsBack spell .expression pair.1)
    (hvalues : ∀ pair ∈ ps, ReadsBack spell .expression pair.2) :
    Reads (.pairs (Node.stampedPairs spell ps))
      (withCommas (Node.renderPairs spell ps) ++ t :: rest) (t :: rest) := by
  have hpairs : ∀ pair ∈ ps.map fun pair =>
      ((pair.1.render spell, pair.1.stamped spell), pair.2.render spell, pair.2.stamped spell),
      ReadsAlone pair.1.1 pair.1.2 ∧ ReadsAlone pair.2.1 pair.2.2 := by
    intro pair hpair
    obtain ⟨⟨k, v⟩, hmem, rfl⟩ := List.mem_map.mp hpair
    exact ⟨fun rest hrest => (hkeys _ hmem).alone hrest, fun rest hrest => (hvalues _ hmem).alone hrest⟩
  have hreads := reads_pairs rest ht hpairs
  rw [List.map_map, List.map_map] at hreads
  rw [Node.stampedPairs_eq_map, Node.renderPairs_eq_map]
  exact hreads

/-- Statements need nothing between them. -/
theorem reads_statements (rest : List Token) {ss : List Node}
    (h : ∀ s ∈ ss, ReadsBack spell .statement s) :
    Reads (.statements (Node.stampedEach spell ss)) ((Node.renderEach spell ss).flatten ++ rest)
      rest := by
  induction ss with
  | nil => exact .noStatements
  | cons s ss ih =>
    rw [Node.renderEach, List.flatten_cons, List.append_assoc]
    exact .oneStatement (h s List.mem_cons_self _) (ih fun s hs => h s (List.mem_cons_of_mem _ hs))

/-! ## Expressions -/

theorem readsBack_prefixOp (hkind : t.kind.isPrefixOperator) (h : ReadsBack spell .expression e) :
    ReadsBack spell .expression (.prefixOp t t.literal e) :=
  ReadsExtended.prefixOp hkind h

theorem readsBack_infixOp {e' : Node} (hkind : t.kind.isInfixOperator)
    (hleft : ReadsBack spell .expression e) (hright : ReadsBack spell .expression e') :
    ReadsBack spell .expression (.infixOp t t.literal e e') :=
  ReadsExtended.infixOp hkind hleft hright

/-- Behind the block no `else` follows, as it ends no expression. -/
theorem readsBack_ifThen {b : Node} (hword : t.kind = .ifWord)
    (hcondition : ReadsBack spell .expression e) (hblock : ReadsBack spell .block b) :
    ReadsBack spell .expression (.ifThen t e b) := by
  refine readsBack_of_group (t :: TokenKind.lparen.sign :: e.render spell ++
    TokenKind.rparen.sign :: b.render spell) (by simp) fun rest hrest => ?_
  rw [List.append_assoc, List.cons_append]
  refine .expression (.ifThen hword rfl (hcondition.alone rfl) rfl (hblock rest) ?_) ?_
  · intro helse
    rw [helse] at hrest
    exact absurd hrest (by decide)
  · exact .unextended (not_binds_of_endsExpression hrest)

theorem readsBack_ifElse {b b' : Node} (hword : t.kind = .ifWord)
    (hcondition : ReadsBack spell .expression e) (hblock : ReadsBack spell .block b)
    (hblock' : ReadsBack spell .block b') :
    ReadsBack spell .expression (.ifElse t e b b') := by
  refine readsBack_of_group (t :: TokenKind.lparen.sign :: e.render spell ++
    TokenKind.rparen.sign :: b.render spell ++ ⟨.elseWord, "else"⟩ :: b'.render spell)
    (by simp) fun rest hrest => ?_
  rw [List.append_assoc, List.append_assoc, List.cons_append, List.cons_append]
  refine .expression (.ifElse hword rfl (hcondition.alone rfl) rfl (hblock _) rfl (hblock' rest)) ?_
  exact .unextended (not_binds_of_endsExpression hrest)

/-- The parameters are names as they are written. -/
theorem readsBack_function {ps : List Name} {b : Node} (hword : t.kind = .function)
    (hparameters : ∀ x ∈ ps, x.WellFormed) (hbody : ReadsBack spell .block b) :
    ReadsBack spell .expression (.function t ps b) := by
  refine readsBack_of_group (t :: TokenKind.lparen.sign ::
    withCommas (ps.map fun x => [x.token]) ++ TokenKind.rparen.sign :: b.render spell)
    (by simp) fun rest hrest => ?_
  rw [List.append_assoc, List.cons_append]
  refine .expression (.function hword rfl (reads_parameters _ TokenKind.noConfusion hparameters) rfl
    (hbody rest)) ?_
  exact .unextended (not_binds_of_endsExpression hrest)

/-- A call begins with its callee in parentheses; the arguments are an extension of that. -/
theorem readsBack_call {es : List Node} (hopening : t.kind = .lparen)
    (hcallee : ReadsBack spell .expression e)
    (harguments : ∀ a ∈ es, ReadsBack spell .expression a) :
    ReadsBack spell .expression (.call t e es) := by
  have hgroup := ReadsExtended.group (ReadsExtended.alone hcallee)
  have hreads := hgroup.call hopening fun rest =>
    reads_renderEach rest rfl TokenKind.noConfusion harguments
  have hrender : (Node.call t e es).render spell = TokenKind.lparen.sign :: e.render spell ++
      [TokenKind.rparen.sign] ++ t :: withCommas (Node.renderEach spell es) ++
        [TokenKind.rparen.sign] := by
    simp
  rw [← hrender] at hreads
  exact hreads

theorem readsBack_array {es : List Node} (hopening : t.kind = .lbracket)
    (helements : ∀ a ∈ es, ReadsBack spell .expression a) :
    ReadsBack spell .expression (.array t es) := by
  refine readsBack_of_first fun rest _ => ?_
  rw [Node.render, List.append_assoc, List.cons_append]
  exact .array hopening (reads_renderEach _ rfl TokenKind.noConfusion helements) rfl

theorem readsBack_index {i : Node} (hopening : t.kind = .lbracket)
    (hleft : ReadsBack spell .expression e) (hindex : ReadsBack spell .expression i) :
    ReadsBack spell .expression (.index t e i) := by
  have hreads := ReadsExtended.index hopening hleft (ReadsExtended.alone hindex)
  have hrender : (Node.index t e i).render spell = TokenKind.lparen.sign ::
      (e.render spell ++ t :: i.render spell ++ [TokenKind.rbracket.sign]) ++
        [TokenKind.rparen.sign] := by
    simp
  rw [← hrender] at hreads
  exact hreads

/-- Keys and values are read back, so the pairs are. -/
theorem readsBack_dictionary {ps : List (Node × Node)} (hopening : t.kind = .lbrace)
    (hkeys : ∀ pair ∈ ps, ReadsBack spell .expression pair.1)
    (hvalues : ∀ pair ∈ ps, ReadsBack spell .expression pair.2) :
    ReadsBack spell .expression (.dictionary t ps) := by
  refine readsBack_of_first fun rest _ => ?_
  rw [Node.render, List.append_assoc, List.cons_append]
  exact .dictionary hopening (reads_renderPairs _ rfl hkeys hvalues) rfl

/-! ## Blocks and statements -/

/-- The braces enclose the statements. -/
theorem readsBack_block {ss : List Node} (hopening : t.kind = .lbrace)
    (h : ∀ s ∈ ss, ReadsBack spell .statement s) : ReadsBack spell .block (.block t ss) := by
  intro rest
  rw [Node.render, List.append_assoc, List.cons_append]
  exact .block hopening (reads_statements _ h) rfl

theorem readsBack_loop {b : Node} (hword : t.kind = .whileWord)
    (hcondition : ReadsBack spell .expression e) (hbody : ReadsBack spell .block b) :
    ReadsBack spell .statement (.loop t e b) := by
  intro rest
  rw [Node.render, List.append_assoc, List.cons_append]
  exact .loop hword rfl (hcondition.alone rfl) rfl (hbody rest)

/-- An expression that begins with a name is that name, so no equality sign follows the name. -/
theorem WellFormed.render_eq_cons (h : WellFormed spell .expression e) :
    ∃ t ts, e.render spell = t :: ts ∧ (t.kind = .ident → ts = []) := by
  cases h with
  | identifier | integer | boolean | string => exact ⟨_, _, rfl, fun _ => rfl⟩
  | float | prefixOp | infixOp | ifThen | ifElse | function | call | index =>
    exact ⟨_, _, rfl, fun hk => absurd hk TokenKind.noConfusion⟩
  | array opening | dictionary opening =>
    exact ⟨_, _, rfl, fun hk => absurd (opening.symm.trans hk) TokenKind.noConfusion⟩

/-- An expression does not begin as an assignment does. -/
theorem readsBack_statement (hwell : WellFormed spell .expression e)
    (h : ReadsBack spell .expression e) : ReadsBack spell .statement (.statement t e) := by
  intro rest
  obtain ⟨first, ts, hrender, hname⟩ := hwell.render_eq_cons
  have hvalue : Reads _ (e.render spell ++ TokenKind.semicolon.sign :: rest) _ := h.alone rfl
  have hfirst : (Node.statement t e).stamped spell = .statement first (e.stamped spell) := by
    show Node.statement (e.firstToken spell) (e.stamped spell) = _
    rw [Node.firstToken, hrender]
    rfl
  rw [hfirst, Node.render, List.append_assoc, hrender]
  rw [hrender] at hvalue
  refine .statement ?_ hvalue (.semicolon rfl)
  rintro ⟨hident, hassign⟩
  rw [hname hident] at hassign
  exact absurd hassign TokenKind.noConfusion

/-- **What is written is read back.** -/
theorem WellFormed.readsBack {place : Place} {node : Node} (h : WellFormed spell place node) :
    ReadsBack spell place node := by
  induction h with
  | identifier name =>
    refine readsBack_of_first fun rest _ => ?_
    rw [← name.eq]
    exact .identifier name.kind
  | integer kind value => exact readsBack_of_first fun rest hdot => .integer kind value hdot
  | float dot whole value => exact readsBack_of_first fun rest _ => .float rfl whole dot value
  | boolean kind value =>
    subst value
    exact readsBack_of_first fun rest _ => .boolean kind
  | string kind value =>
    subst value
    exact readsBack_of_first fun rest _ => .string kind
  | prefixOp kind operator _ ih =>
    subst operator
    exact readsBack_prefixOp kind ih
  | infixOp kind operator _ _ ih₁ ih₂ =>
    subst operator
    exact readsBack_infixOp kind ih₁ ih₂
  | ifThen word _ _ ihc ihb => exact readsBack_ifThen word ihc ihb
  | ifElse word _ _ _ ihc ihb₁ ihb₂ => exact readsBack_ifElse word ihc ihb₁ ihb₂
  | function word parameters _ ih => exact readsBack_function word parameters ih
  | call opening _ _ ihf ihes => exact readsBack_call opening ihf ihes
  | array opening _ ih => exact readsBack_array opening ih
  | index opening _ _ ihe ihi => exact readsBack_index opening ihe ihi
  | dictionary opening _ _ ihkeys ihvalues => exact readsBack_dictionary opening ihkeys ihvalues
  | block opening _ ih => exact readsBack_block opening ih
  | letBinding word name _ ih =>
    intro rest
    rw [Node.render, List.append_assoc, List.cons_append, ← name.eq]
    exact .letBinding word name.kind rfl (ih.alone rfl) (.semicolon rfl)
  | constBinding word name _ ih =>
    intro rest
    rw [Node.render, List.append_assoc, List.cons_append, ← name.eq]
    exact .constBinding word name.kind rfl (ih.alone rfl) (.semicolon rfl)
  | assignment name _ ih =>
    intro rest
    rw [Node.render, List.append_assoc, List.cons_append, ← name.eq]
    exact .assignment name.kind rfl (ih.alone rfl) (.semicolon rfl)
  | returning word _ ih =>
    intro rest
    rw [Node.render, List.append_assoc, List.cons_append]
    exact .returning word (ih.alone rfl) (.semicolon rfl)
  | loop word _ _ ihc ihb => exact readsBack_loop word ihc ihb
  | statement value ih => exact readsBack_statement value ih

/-- **Reading undoes writing.** The tokens of a well-formed program, followed by the end of the input,
are read without an error as the same program, up to the tokens of its expression statements. -/
theorem parseTokens_render (program : List Node) (ends : Nat)
    (h : ∀ s ∈ program, WellFormed spell .statement s) :
    (parseTokens ((Node.program program).render spell ++ List.replicate ends .eof)).errors = [] ∧
    (parseTokens ((Node.program program).render spell ++ List.replicate ends .eof)).tree.unstamped =
      (Node.program program).unstamped := by
  have hreads := reads_statements (List.replicate ends .eof) fun s hs => (h s hs).readsBack
  have hend : nextKind (List.replicate ends .eof) = .eof := by cases ends <;> rfl
  have hparsed : parseTokens ((Node.program program).render spell ++ List.replicate ends .eof) =
      ⟨Node.stampedEach spell program, []⟩ := by
    rw [Node.render]
    exact parseTokens_of_reads hreads hend
  rw [hparsed]
  exact ⟨rfl, Node.restamp_restamp (Node.firstToken spell) .eof (.program program)⟩

end

/-- A function with a loop and both forms of `if`, and a call whose result is indexed. -/
def sampleProgram : List Node :=
  let name (text : String) : Name := ⟨⟨.ident, text⟩, text⟩
  let braces (statements : List Node) : Node := .block TokenKind.lbrace.sign statements
  let n : Node := .identifier (name "n")
  let one : Node := .integer ⟨.int, "1"⟩ 1
  [.letBinding ⟨.letWord, "let"⟩ (name "f") (.function ⟨.function, "fn"⟩ [name "n", name "m"] (braces
    [.loop ⟨.whileWord, "while"⟩ n (braces
      [.assignment TokenKind.assign.sign (name "n") (.infixOp TokenKind.minus.sign "-" n one)]),
     .returning ⟨.returnWord, "return"⟩ (.ifElse ⟨.ifWord, "if"⟩
      (.prefixOp TokenKind.bang.sign "!" n)
      (braces [.statement .eof (.dictionary TokenKind.lbrace.sign
        [(.string ⟨.string, "k"⟩ "k",
          .float TokenKind.dot.sign (.finite false 5629499534213120 (-51)))])])
      (braces []))])),
   .constBinding ⟨.constWord, "const"⟩ (name "r") (.index TokenKind.lbracket.sign
    (.call TokenKind.lparen.sign (.identifier (name "f"))
      [.array TokenKind.lbracket.sign [one, n], .boolean ⟨.falseWord, "false"⟩ false])
    (.ifThen ⟨.ifWord, "if"⟩ n (braces [.statement .eof n])))]

/-- The hypothesis of the theorem holds of a program with every construct. -/
theorem wellFormed_sampleProgram :
    ∀ s ∈ sampleProgram, WellFormed (fun _ => ("2", "5")) .statement s := by
  have hname (text : String) : Name.WellFormed ⟨⟨.ident, text⟩, text⟩ := ⟨rfl, rfl⟩
  have hn : WellFormed (fun _ => ("2", "5")) .expression (.identifier ⟨⟨.ident, "n"⟩, "n"⟩) :=
    .identifier (hname "n")
  have hone : WellFormed (fun _ => ("2", "5")) .expression (.integer ⟨.int, "1"⟩ 1) :=
    .integer rfl (by decide +kernel)
  have hfloat : WellFormed (fun _ => ("2", "5")) .expression
      (.float TokenKind.dot.sign (.finite false 5629499534213120 (-51))) :=
    .float rfl (show Numeral.readInt? "2" = some 2 by decide +kernel) (by decide +kernel)
  refine List.forall_mem_cons.mpr ⟨?function, List.forall_mem_singleton.mpr ?call⟩
  case function =>
    refine .letBinding rfl (hname "f") (.function rfl (by simp [hname]) (.block rfl ?_))
    refine List.forall_mem_cons.mpr ⟨?loop, List.forall_mem_singleton.mpr ?returning⟩
    case loop =>
      exact .loop rfl hn (.block rfl (List.forall_mem_singleton.mpr
        (.assignment (hname "n") (.infixOp rfl rfl hn hone))))
    case returning =>
      refine .returning rfl (.ifElse rfl (.prefixOp rfl rfl hn)
        (.block rfl (List.forall_mem_singleton.mpr (.statement ?_)))
        (.block rfl (List.forall_mem_nil _)))
      exact .dictionary rfl (List.forall_mem_singleton.mpr (.string rfl rfl))
        (List.forall_mem_singleton.mpr hfloat)
  case call =>
    refine .constBinding rfl (hname "r") (.index rfl (.call rfl (.identifier (hname "f")) ?_)
      (.ifThen rfl hn (.block rfl (List.forall_mem_singleton.mpr (.statement hn)))))
    refine List.forall_mem_cons.mpr ⟨.array rfl ?_, List.forall_mem_singleton.mpr (.boolean rfl rfl)⟩
    exact List.forall_mem_cons.mpr ⟨hone, List.forall_mem_singleton.mpr hn⟩

theorem parseTokens_render_sampleProgram :
    (∀ s ∈ sampleProgram, WellFormed (fun _ => ("2", "5")) .statement s) ∧
    (parseTokens ((Node.program sampleProgram).render (fun _ => ("2", "5")) ++ [.eof])).errors = [] ∧
    (parseTokens ((Node.program sampleProgram).render (fun _ => ("2", "5")) ++
      [.eof])).tree.unstamped = (Node.program sampleProgram).unstamped :=
  ⟨wellFormed_sampleProgram, parseTokens_render sampleProgram 1 wellFormed_sampleProgram⟩

end Monkey
