import Monkey.Proofs.ParserParts

/-!
# What the grammar reads, the parser reads

Tokens that the resolved grammar reads as a part are read as that part by the parser, without an
error and up to the same token. The proof follows the productions of the grammar; the depth of a level
and the rounds of a loop are counted in tokens.
-/

namespace Monkey

open Parse Reading

/-! ## Success -/

/-- A step produces `a` without an error and stops at the last token before `rest`. -/
def StopsBefore (p : Parse α) (r : Reading) (a : α) (rest : List Token) : Prop :=
  (p r).Meets (fun b s => b = a ∧ s.behind = rest ∧ s.errors = r.errors) fun _ => False

/-- A step produces `a` without an error and stops at the first token of `rest`. -/
def StopsAt (p : Parse α) (r : Reading) (a : α) (rest : List Token) : Prop :=
  (p r).Meets (fun b s => b = a ∧ s.tokens = rest ∧ s.errors = r.errors) fun _ => False

/-- The parser reads a part where the grammar does. A part that begins at the current token is told
apart from one that begins behind it. -/
def Part.Succeeds (ts rest : List Token) : Part → Prop
  -- a statement and the expression it begins with start at the same token and take a level each,
  -- hence two levels for every token
  | .expression context e => ∀ depth r, 2 * ts.length + 1 ≤ depth → r.tokens = ts →
      StopsBefore ((Level.ofDepth depth).expression context) r e rest
  | .first e => ∀ depth r, 2 * ts.length ≤ depth → r.tokens = ts →
      ∃ reading, firstReading? (.ofDepth depth) r.current.kind = some reading ∧
        StopsBefore reading r e rest
  | .link left e => ∀ depth r, 2 * ts.length ≤ depth → r.tokens = ts →
      StopsBefore (parseExtension (.ofDepth depth) left) r e rest
  | .extension context left e => ∀ depth bound r, 2 * ts.length ≤ depth → ts.length < bound →
      r.behind = ts → StopsBefore (parseExtensions (.ofDepth depth) context bound (some left)) r e rest
  | .moreExpressions es => ∀ depth bound r, 2 * ts.length ≤ depth → ts.length < bound →
      r.behind = ts → StopsBefore (parseMoreExpressions (.ofDepth depth) bound) r es rest
  | .expressions es => ∀ closing depth r, closing = .rparen ∨ closing = .rbracket →
      nextKind rest = closing → 2 * ts.length + 1 ≤ depth → r.behind = ts →
      StopsAt (parseExpressions (.ofDepth depth) closing) r es rest
  | .moreParameters ps => ∀ bound r, ts.length < bound → r.behind = ts →
      StopsBefore (parseMoreParameters bound) r ps rest
  | .parameters ps => ∀ r, nextKind rest = .rparen → r.behind = ts →
      StopsAt parseParameters r ps rest
  | .pairs ps => ∀ depth bound r, nextKind rest = .rbrace → 2 * ts.length + 1 ≤ depth →
      ts.length < bound → r.behind = ts → StopsBefore (parsePairs (.ofDepth depth) bound) r ps rest
  | .block b => ∀ depth r, 2 * ts.length ≤ depth → r.tokens = ts →
      StopsBefore (parseBlock (.ofDepth depth)) r b rest
  | .statement s => ∀ depth r, 2 * ts.length + 2 ≤ depth → r.tokens = ts →
      StopsBefore (Level.ofDepth depth).statement r s rest
  | .statements ss => ∀ stop depth bound r, (∀ kind, stop kind → kind = .rbrace ∨ kind = .eof) →
      stop (nextKind rest) → 2 * ts.length + 2 ≤ depth → ts.length < bound → r.tokens = ts →
      StopsAt (parseStatements (.ofDepth depth) stop bound) r ss rest
  | .ending => ∀ r, r.behind = ts → StopsBefore skipSemicolon r () rest

section

variable {ts us rest : List Token} {r : Reading} {t : Token}

/-- What is known where a step stops can be used behind it. -/
theorem StopsBefore.meets {p : Parse α} {a : α} {Q : α → Reading → Prop} {F : Reading → Prop}
    (h : StopsBefore p r a rest) (hQ : ∀ s, s.behind = rest → s.errors = r.errors → Q a s) :
    (p r).Meets Q F := by
  refine Outcome.Meets.mono h ?_ fun _ h => h.elim
  rintro _ s ⟨rfl, hs, herrors⟩
  exact hQ s hs herrors

/-- The same for a step that stops at the first token of the rest. -/
theorem StopsAt.meets {p : Parse α} {a : α} {Q : α → Reading → Prop} {F : Reading → Prop}
    (h : StopsAt p r a rest) (hQ : ∀ s, s.tokens = rest → s.errors = r.errors → Q a s) :
    (p r).Meets Q F := by
  refine Outcome.Meets.mono h ?_ fun _ h => h.elim
  rintro _ s ⟨rfl, hs, herrors⟩
  exact hQ s hs herrors

theorem peek_of_behind (h : r.behind = t :: ts) : r.peek = t := by
  show r.behind.headD .eof = t
  rw [h]
  rfl

theorem behind_advance (h : r.behind = t :: ts) : r.advance.behind = ts := by
  show r.behind.tail = ts
  rw [h]
  rfl

theorem current_of_tokens (h : r.tokens = t :: ts) : r.current = t := by
  show r.tokens.headD .eof = t
  rw [h]
  rfl

theorem behind_of_tokens (h : r.tokens = t :: ts) : r.behind = ts := by
  show r.tokens.tail = ts
  rw [h]
  rfl

/-- The grammar looks ahead where the parser peeks. -/
theorem kind_peek (r : Reading) : r.peek.kind = nextKind r.behind := rfl

theorem kind_current (r : Reading) : r.current.kind = nextKind r.tokens := rfl

/-- The token that is expected is there, so the parser goes on to it. -/
theorem meets_expect_of_behind {kind : TokenKind} {Q : Unit → Reading → Prop}
    {F : Reading → Prop} (h : nextKind r.behind = kind) (hQ : Q () r.advance) :
    (expect kind r).Meets Q F :=
  meets_expect.mpr ⟨fun _ => hQ, fun hne => absurd h hne⟩

/-! ## Literals -/

/-- A name is one token. -/
theorem succeeds_identifier (hkind : t.kind = .ident) :
    (Part.first (.identifier ⟨t, t.literal⟩)).Succeeds (t :: rest) rest := by
  intro depth r _ hr
  rw [current_of_tokens hr, hkind]
  refine ⟨parseIdentifier, rfl, ?_⟩
  simp only [StopsBefore, parseIdentifier, meets_bind, meets_currentName, meets_pure]
  exact ⟨by rw [current_of_tokens hr], behind_of_tokens hr, trivial⟩

theorem succeeds_boolean (hkind : t.kind.isTruthWord) :
    (Part.first (.boolean t (t.kind = .trueWord))).Succeeds (t :: rest) rest := by
  intro depth r _ hr
  rw [current_of_tokens hr]
  refine ⟨parseBoolean, ?_, ?_⟩
  · rcases TokenKind.isTruthWord_iff.mp hkind with h | h <;> rw [h] <;> rfl
  simp only [StopsBefore, parseBoolean, meets_bind, meets_current, meets_pure]
  exact ⟨by rw [current_of_tokens hr], behind_of_tokens hr, trivial⟩

theorem succeeds_string (hkind : t.kind = .string) :
    (Part.first (.string t t.literal)).Succeeds (t :: rest) rest := by
  intro depth r _ hr
  rw [current_of_tokens hr, hkind]
  refine ⟨parseString, rfl, ?_⟩
  simp only [StopsBefore, parseString, meets_bind, meets_current, meets_pure]
  exact ⟨by rw [current_of_tokens hr], behind_of_tokens hr, trivial⟩

/-- An integer literal is one token: there is no point behind it, so no fraction is read. -/
theorem succeeds_integer {n : Int} (hkind : t.kind = .int)
    (hvalue : Numeral.readInt? t.literal = some n) (hpoint : nextKind rest ≠ .dot) :
    (Part.first (.integer t n)).Succeeds (t :: rest) rest := by
  intro depth r _ hr
  have hbehind := behind_of_tokens hr
  have hpeek : r.peek.kind ≠ .dot := by rw [kind_peek, hbehind]; exact hpoint
  rw [current_of_tokens hr, hkind]
  refine ⟨parseNumber, rfl, ?_⟩
  simp only [StopsBefore, parseNumber, meets_bind, meets_current, current_of_tokens hr, hvalue,
    meets_peek, if_neg hpeek, meets_pure]
  exact ⟨trivial, hbehind, trivial⟩

/-- The fraction is the token behind the point, or nothing at the end of the input. -/
theorem succeeds_float (ts : List Token) {n : Int} {x : Binary64} {point : Token} (hkind : t.kind = .int)
    (hwhole : Numeral.readInt? t.literal = some n) (hpoint : point.kind = .dot)
    (hvalue : fractionValue? n (ts.headD .eof).literal = some x) :
    (Part.first (.float point x)).Succeeds (t :: point :: ts) ts.tail := by
  intro depth r _ hr
  have hbehind := behind_of_tokens hr
  have hpeek : r.peek = point := peek_of_behind hbehind
  have htokens : r.advance.advance.tokens = ts := behind_advance hbehind
  have hfraction : r.advance.advance.current.literal = (ts.headD .eof).literal := by
    rw [← htokens]
    rfl
  rw [fractionValue?] at hvalue
  rw [current_of_tokens hr, hkind]
  refine ⟨parseNumber, rfl, ?_⟩
  simp only [StopsBefore, parseNumber, meets_bind, meets_current, current_of_tokens hr, hwhole,
    meets_peek, hpeek, if_pos hpoint, meets_advance, hfraction, hvalue, meets_pure]
  exact ⟨trivial, by rw [← htokens]; rfl, rfl⟩

/-! ## Lists -/

/-- A list of expressions ends where no comma follows. -/
theorem succeeds_noMoreExpressions (hcomma : nextKind ts ≠ .comma) :
    (Part.moreExpressions []).Succeeds ts ts := by
  intro depth bound r _ hbound hr
  obtain ⟨bound, rfl⟩ : ∃ k, bound = k + 1 := ⟨bound - 1, by omega⟩
  have hpeek : r.peek.kind ≠ .comma := by rw [kind_peek, hr]; exact hcomma
  simp only [StopsBefore, parseMoreExpressions, meets_bind, meets_peek, meets_ite, meets_pure]
  exact ⟨fun h => absurd h hpeek, fun _ => ⟨trivial, hr, trivial⟩⟩

/-- A comma and an expression; the rounds that are left are enough, because the expression takes a
token. -/
theorem succeeds_oneMoreExpression {e : Node} {es : List Node} (hcomma : t.kind = .comma)
    (hlen : us.length < ts.length) (hfirst : (Part.expression .lowest e).Succeeds ts us)
    (hmore : (Part.moreExpressions es).Succeeds us rest) :
    (Part.moreExpressions (e :: es)).Succeeds (t :: ts) rest := by
  intro depth bound r hdepth hbound hr
  rw [List.length_cons] at hdepth hbound
  obtain ⟨bound, rfl⟩ : ∃ k, bound = k + 1 := ⟨bound - 1, by omega⟩
  have hpeek : r.peek.kind = .comma := by rw [peek_of_behind hr]; exact hcomma
  simp only [StopsBefore, parseMoreExpressions, meets_bind, meets_peek, if_pos hpeek, meets_advance,
    meets_pure]
  refine (hfirst depth r.advance.advance (by omega) (behind_advance hr)).meets fun s hs herrors => ?_
  refine (hmore depth bound s (by omega) (by omega) hs).meets fun u hu herrors' => ?_
  exact ⟨rfl, hu, herrors'.trans herrors⟩

theorem succeeds_noExpressions : (Part.expressions []).Succeeds ts ts := by
  intro closing depth r _ hclosing _ hr
  have hpeek : r.peek.kind = closing := by rw [kind_peek, hr]; exact hclosing
  simp only [StopsAt, parseExpressions, meets_bind, meets_peek, if_pos hpeek, meets_advance,
    meets_pure]
  exact ⟨trivial, hr, rfl⟩

/-- The first expression of a list stands behind no comma. -/
theorem succeeds_someExpressions {e : Node} {es : List Node}
    (hbegins : (nextKind ts).beginsExpression) (hlen : us.length < ts.length)
    (hfirst : (Part.expression .lowest e).Succeeds ts us)
    (hmore : (Part.moreExpressions es).Succeeds us rest) :
    (Part.expressions (e :: es)).Succeeds ts rest := by
  intro closing depth r hkinds hclosing hdepth hr
  have hpeek : r.peek.kind ≠ closing := by
    rw [kind_peek, hr]
    intro h
    rw [h] at hbegins
    rcases hkinds with rfl | rfl <;> exact absurd hbegins (by decide)
  simp only [StopsAt, parseExpressions, meets_bind, meets_peek, if_neg hpeek, meets_advance,
    meets_rounds, meets_pure]
  refine (hfirst depth r.advance (by omega) hr).meets fun s hs herrors => ?_
  have hbound := length_behind s
  rw [hs] at hbound
  refine (hmore depth _ s (by omega) (by omega) hs).meets fun u hu herrors' => ?_
  refine meets_expect_of_behind (by rw [hu]; exact hclosing) ?_
  exact ⟨rfl, hu, herrors'.trans herrors⟩

/-- A list of parameters ends where no comma follows. -/
theorem succeeds_noMoreParameters (hcomma : nextKind ts ≠ .comma) :
    (Part.moreParameters []).Succeeds ts ts := by
  intro bound r hbound hr
  obtain ⟨bound, rfl⟩ : ∃ k, bound = k + 1 := ⟨bound - 1, by omega⟩
  have hpeek : r.peek.kind ≠ .comma := by rw [kind_peek, hr]; exact hcomma
  simp only [StopsBefore, parseMoreParameters, meets_bind, meets_peek, if_neg hpeek, meets_pure]
  exact ⟨trivial, hr, trivial⟩

/-- A comma and a parameter, which may be any token. -/
theorem succeeds_oneMoreParameter {x : Token} {ps : List Name} (hcomma : t.kind = .comma)
    (hmore : (Part.moreParameters ps).Succeeds ts rest) :
    (Part.moreParameters (⟨x, x.literal⟩ :: ps)).Succeeds (t :: x :: ts) rest := by
  intro bound r hbound hr
  rw [List.length_cons, List.length_cons] at hbound
  obtain ⟨bound, rfl⟩ : ∃ k, bound = k + 1 := ⟨bound - 1, by omega⟩
  have hpeek : r.peek.kind = .comma := by rw [peek_of_behind hr]; exact hcomma
  have hname : r.advance.advance.current = x := peek_of_behind (behind_advance hr)
  simp only [StopsBefore, parseMoreParameters, meets_bind, meets_peek, if_pos hpeek, meets_advance,
    meets_currentName, hname, meets_pure]
  refine (hmore bound r.advance.advance (by omega) (behind_advance (behind_advance hr))).meets
    fun s hs herrors => ?_
  exact ⟨rfl, hs, herrors⟩

theorem succeeds_noParameters : (Part.parameters []).Succeeds ts ts := by
  intro r hclosing hr
  have hpeek : r.peek.kind = .rparen := by rw [kind_peek, hr]; exact hclosing
  simp only [StopsAt, parseParameters, meets_bind, meets_peek, if_pos hpeek, meets_advance,
    meets_pure]
  exact ⟨trivial, hr, rfl⟩

/-- The first parameter may be any token but a closing parenthesis. -/
theorem succeeds_someParameters {ps : List Name} (hne : t.kind ≠ .rparen)
    (hmore : (Part.moreParameters ps).Succeeds ts rest) :
    (Part.parameters (⟨t, t.literal⟩ :: ps)).Succeeds (t :: ts) rest := by
  intro r hclosing hr
  have hpeek : r.peek = t := peek_of_behind hr
  have hname : r.advance.current = t := hpeek
  simp only [StopsAt, parseParameters, meets_bind, meets_peek, hpeek, if_neg hne, meets_advance,
    meets_currentName, hname, meets_rounds, meets_pure]
  have hbound : r.advance.tokens.length = ts.length + 1 := by
    rw [tokens_advance, hr, List.length_cons]
  refine (hmore _ r.advance (by omega) (behind_advance hr)).meets fun s hs herrors => ?_
  refine meets_expect_of_behind (by rw [hs]; exact hclosing) ?_
  exact ⟨rfl, hs, herrors⟩

theorem succeeds_noPairs : (Part.pairs []).Succeeds ts ts := by
  intro depth bound r hbrace _ hbound hr
  obtain ⟨bound, rfl⟩ : ∃ k, bound = k + 1 := ⟨bound - 1, by omega⟩
  unfold StopsBefore
  rw [parsePairs_of_rbrace (by rw [kind_peek, hr]; exact hbrace)]
  exact ⟨rfl, hr, rfl⟩

/-- A key, a colon and a value are read, and it goes on behind the value. -/
theorem meets_pair {k v : Node} {depth bound : Nat} {vs : List Token}
    {Q : List (Node × Node) → Reading → Prop} {F : Reading → Prop}
    (hbegins : (nextKind ts).beginsExpression) (hcolon : t.kind = .colon)
    (hlen : us.length + 1 < ts.length) (hdepth : 2 * ts.length + 1 ≤ depth)
    (hkey : (Part.expression .lowest k).Succeeds ts (t :: us))
    (hvalue : (Part.expression .lowest v).Succeeds us vs) (hr : r.behind = ts)
    (hQ : ∀ s, s.behind = vs → s.errors = r.errors →
      ((do
        if (← Parse.peek).kind ≠ .rbrace then expect .comma
        let more ← parsePairs (.ofDepth depth) bound
        return (k, v) :: more : Parse (List (Node × Node))) s).Meets Q F) :
    (parsePairs (.ofDepth depth) (bound + 1) r).Meets Q F := by
  have hpeek : r.peek.kind ≠ .rbrace := by
    rw [kind_peek, hr]
    intro h
    rw [h] at hbegins
    exact absurd hbegins (by decide)
  unfold parsePairs
  rw [meets_bind, meets_peek, if_neg hpeek, meets_bind, meets_advance, meets_bind, meets_attempt]
  refine (hkey depth r.advance hdepth hr).meets fun s hs herrors => ?_
  rw [meets_bind]
  refine meets_expect_of_behind (by rw [hs]; exact hcolon) ?_
  rw [meets_bind, meets_advance, meets_bind, meets_attempt]
  refine (hvalue depth s.advance.advance (by omega) (behind_advance hs)).meets fun u hu herrors' => ?_
  rw [meets_bind, meets_ofOption_some, meets_bind, meets_ofOption_some]
  exact hQ u hu (herrors'.trans herrors)

/-- Behind the last pair of a dictionary there is no comma. -/
theorem succeeds_lastPair {k v : Node} (hbegins : (nextKind ts).beginsExpression)
    (hcolon : t.kind = .colon) (hlen : us.length + 1 < ts.length)
    (hkey : (Part.expression .lowest k).Succeeds ts (t :: us))
    (hvalue : (Part.expression .lowest v).Succeeds us rest) :
    (Part.pairs [(k, v)]).Succeeds ts rest := by
  intro depth bound r hbrace hdepth hbound hr
  obtain ⟨bound, rfl⟩ : ∃ k, bound = k + 2 := ⟨bound - 2, by omega⟩
  refine meets_pair hbegins hcolon hlen hdepth hkey hvalue hr fun s hs herrors => ?_
  have hpeek : s.peek.kind = .rbrace := by rw [kind_peek, hs]; exact hbrace
  simp only [meets_bind, meets_peek, meets_ite, meets_pure]
  refine ⟨fun h => absurd hpeek h, fun _ => ?_⟩
  rw [parsePairs_of_rbrace hpeek]
  exact ⟨rfl, hs, herrors⟩

/-- A pair with a comma behind it, and the other pairs. -/
theorem succeeds_onePair {k v : Node} {ps : List (Node × Node)} {c : Token} {vs : List Token}
    (hbegins : (nextKind ts).beginsExpression) (hcolon : t.kind = .colon)
    (hlen : us.length + 1 < ts.length) (hlen' : vs.length + 1 < us.length)
    (hkey : (Part.expression .lowest k).Succeeds ts (t :: us))
    (hvalue : (Part.expression .lowest v).Succeeds us (c :: vs)) (hcomma : c.kind = .comma)
    (hmore : (Part.pairs ps).Succeeds vs rest) :
    (Part.pairs ((k, v) :: ps)).Succeeds ts rest := by
  intro depth bound r hbrace hdepth hbound hr
  obtain ⟨bound, rfl⟩ : ∃ k, bound = k + 1 := ⟨bound - 1, by omega⟩
  refine meets_pair hbegins hcolon hlen hdepth hkey hvalue hr fun s hs herrors => ?_
  have hpeek : s.peek.kind = .comma := by rw [peek_of_behind hs]; exact hcomma
  simp only [meets_bind, meets_peek, meets_ite, meets_pure]
  refine ⟨fun _ => ?_, fun h => absurd (by rw [hpeek]; exact TokenKind.noConfusion) h⟩
  refine meets_expect_of_behind hpeek ?_
  refine (hmore depth bound s.advance hbrace (by omega) (by omega) (behind_advance hs)).meets
    fun u hu herrors' => ?_
  exact ⟨rfl, hu, herrors'.trans herrors⟩

/-! ## Statements in a row -/

theorem succeeds_noStatements : (Part.statements []).Succeeds ts ts := by
  intro stop depth bound r _ hstop _ hbound hr
  obtain ⟨bound, rfl⟩ : ∃ k, bound = k + 1 := ⟨bound - 1, by omega⟩
  have hcurrent : stop r.current.kind := by rw [kind_current, hr]; exact hstop
  simp only [StopsAt, parseStatements, meets_bind, meets_current, if_pos hcurrent, meets_pure]
  exact ⟨trivial, hr, trivial⟩

/-- A statement and the ones behind it: neither a closing brace nor the end of the input is in
front. -/
theorem succeeds_oneStatement {s : Node} {ss : List Node}
    (hbegins : nextKind ts ≠ .rbrace ∧ nextKind ts ≠ .eof) (hlen : us.length < ts.length)
    (hfirst : (Part.statement s).Succeeds ts us) (hmore : (Part.statements ss).Succeeds us rest) :
    (Part.statements (s :: ss)).Succeeds ts rest := by
  intro stop depth bound r hkinds hstop hdepth hbound hr
  obtain ⟨bound, rfl⟩ : ∃ k, bound = k + 1 := ⟨bound - 1, by omega⟩
  have hcurrent : ¬stop r.current.kind := by
    rw [kind_current, hr]
    intro h
    rcases hkinds _ h with hbrace | heof
    · exact hbegins.1 hbrace
    · exact hbegins.2 heof
  simp only [StopsAt, parseStatements, meets_bind, meets_current, if_neg hcurrent, meets_attempt,
    meets_advance, meets_pure]
  refine (hfirst depth r hdepth hr).meets fun u hu herrors => ?_
  refine (hmore stop depth bound u.advance hkinds hstop (by omega) (by omega) hu).meets
    fun v hv herrors' => ?_
  exact ⟨rfl, hv, herrors'.trans herrors⟩

/-- A block ends with the brace that closes it, or where the input ends. -/
theorem succeeds_block (rest : List Token) {ss : List Node}
    (hend : nextKind rest = .rbrace ∨ nextKind rest = .eof)
    (hinner : (Part.statements ss).Succeeds ts rest) :
    (Part.block (.block t ss)).Succeeds (t :: ts) rest.tail := by
  intro depth r hdepth hr
  rw [List.length_cons] at hdepth
  have hbound : r.advance.tokens.length = ts.length := by rw [tokens_advance, behind_of_tokens hr]
  simp only [StopsBefore, parseBlock, meets_bind, meets_current, current_of_tokens hr,
    meets_advance, meets_rounds, meets_pure]
  refine (hinner _ depth _ r.advance (by simp) (by simpa using hend) (by omega) (by omega)
    (behind_of_tokens hr)).meets fun s hs herrors => ?_
  exact ⟨rfl, by rw [← hs]; rfl, herrors⟩

/-- A statement may end without a semicolon. -/
theorem succeeds_noEnding (hsemi : nextKind ts ≠ .semicolon) : Part.ending.Succeeds ts ts := by
  intro r hr
  have hpeek : r.peek.kind ≠ .semicolon := by rw [kind_peek, hr]; exact hsemi
  exact meets_skipSemicolon.mpr ⟨fun h => absurd h hpeek, fun _ => ⟨rfl, hr, rfl⟩⟩

theorem succeeds_semicolon (hsemi : t.kind = .semicolon) : Part.ending.Succeeds (t :: rest) rest := by
  intro r hr
  have hpeek : r.peek.kind = .semicolon := by rw [peek_of_behind hr]; exact hsemi
  exact meets_skipSemicolon.mpr
    ⟨fun _ => ⟨rfl, behind_advance hr, rfl⟩, fun h => absurd hpeek h⟩

/-! ## Expressions -/

/-- An expression in parentheses is the expression. -/
theorem succeeds_group {e : Node} {c : Token} (hopening : t.kind = .lparen)
    (hinner : (Part.expression .lowest e).Succeeds ts (c :: rest)) (hclosing : c.kind = .rparen) :
    (Part.first e).Succeeds (t :: ts) rest := by
  intro depth r hdepth hr
  rw [List.length_cons] at hdepth
  rw [current_of_tokens hr, hopening]
  refine ⟨parseGroup _, rfl, ?_⟩
  simp only [StopsBefore, parseGroup, meets_bind, meets_advance, meets_attempt]
  refine (hinner depth r.advance (by omega) (behind_of_tokens hr)).meets fun s hs herrors => ?_
  refine meets_expect_of_behind (by rw [hs]; exact hclosing) ?_
  exact ⟨rfl, behind_advance hs, herrors⟩

/-- An operator in front of an expression that binds tighter than any operator between two. -/
theorem succeeds_prefixOp {e : Node} (hoperator : t.kind.isPrefixOperator)
    (hright : (Part.expression .prefixed e).Succeeds ts rest) :
    (Part.first (.prefixOp t t.literal e)).Succeeds (t :: ts) rest := by
  intro depth r hdepth hr
  rw [List.length_cons] at hdepth
  rw [current_of_tokens hr]
  refine ⟨parsePrefix (.ofDepth depth), ?_, ?_⟩
  · rcases TokenKind.isPrefixOperator_iff.mp hoperator with h | h <;> rw [h] <;> rfl
  simp only [StopsBefore, parsePrefix, meets_bind, meets_current, current_of_tokens hr,
    meets_advance, meets_pure]
  refine (hright depth r.advance (by omega) (behind_of_tokens hr)).meets fun s hs herrors => ?_
  exact ⟨rfl, hs, herrors⟩

/-- A condition in parentheses is read up to the brace behind it. -/
theorem stopsAt_condition {e : Node} {c : Token} (depth : Nat) (hopening : t.kind = .lparen)
    (hcondition : (Part.expression .lowest e).Succeeds ts (c :: us)) (hclosing : c.kind = .rparen)
    (hbrace : nextKind us = .lbrace) (hdepth : 2 * ts.length + 1 ≤ depth)
    (hr : r.behind = t :: ts) : StopsAt (parseCondition (.ofDepth depth)) r e us := by
  simp only [StopsAt, parseCondition, meets_bind, meets_advance, meets_pure]
  refine meets_expect_of_behind (by rw [hr]; exact hopening) ?_
  refine (hcondition depth r.advance.advance hdepth (behind_advance hr)).meets
    fun s hs herrors => ?_
  refine meets_expect_of_behind (by rw [hs]; exact hclosing) ?_
  refine meets_expect_of_behind (by rw [behind_advance hs]; exact hbrace) ?_
  exact ⟨rfl, behind_advance hs, herrors⟩

/-- A condition and a block, with no `else` behind it. -/
theorem succeeds_ifThen {e b : Node} {l c : Token} (hword : t.kind = .ifWord)
    (hopening : l.kind = .lparen)
    (hcondition : (Part.expression .lowest e).Succeeds ts (c :: us)) (hclosing : c.kind = .rparen)
    (hbrace : nextKind us = .lbrace) (hlen : us.length < ts.length)
    (hconsequence : (Part.block b).Succeeds us rest) (helse : nextKind rest ≠ .elseWord) :
    (Part.first (.ifThen t e b)).Succeeds (t :: l :: ts) rest := by
  intro depth r hdepth hr
  rw [List.length_cons, List.length_cons] at hdepth
  have hstart := stopsAt_condition depth hopening hcondition hclosing hbrace (by omega)
    (behind_of_tokens hr)
  rw [current_of_tokens hr, hword]
  refine ⟨parseIf _, rfl, ?_⟩
  simp only [StopsBefore, parseIf, meets_bind, meets_current, current_of_tokens hr, meets_peek]
  refine hstart.meets fun s hs herrors => ?_
  refine (hconsequence depth s (by omega) hs).meets fun u hu herrors' => ?_
  have hpeek : u.peek.kind ≠ .elseWord := by rw [kind_peek, hu]; exact helse
  rw [if_neg hpeek, meets_pure]
  exact ⟨rfl, hu, herrors'.trans herrors⟩

/-- A condition and two blocks. -/
theorem succeeds_ifElse {e b₁ b₂ : Node} {l c w : Token} {vs : List Token}
    (hword : t.kind = .ifWord) (hopening : l.kind = .lparen)
    (hcondition : (Part.expression .lowest e).Succeeds ts (c :: us)) (hclosing : c.kind = .rparen)
    (hbrace : nextKind us = .lbrace) (hlen : us.length < ts.length)
    (hconsequence : (Part.block b₁).Succeeds us (w :: vs)) (helse : w.kind = .elseWord)
    (hbrace' : nextKind vs = .lbrace) (hlen' : vs.length < us.length)
    (halternative : (Part.block b₂).Succeeds vs rest) :
    (Part.first (.ifElse t e b₁ b₂)).Succeeds (t :: l :: ts) rest := by
  intro depth r hdepth hr
  rw [List.length_cons, List.length_cons] at hdepth
  have hstart := stopsAt_condition depth hopening hcondition hclosing hbrace (by omega)
    (behind_of_tokens hr)
  rw [current_of_tokens hr, hword]
  refine ⟨parseIf _, rfl, ?_⟩
  simp only [StopsBefore, parseIf, meets_bind, meets_current, current_of_tokens hr, meets_peek]
  refine hstart.meets fun s hs herrors => ?_
  refine (hconsequence depth s (by omega) hs).meets fun u hu herrors' => ?_
  have hpeek : u.peek.kind = .elseWord := by rw [peek_of_behind hu]; exact helse
  have hu' : u.advance.behind = vs := behind_advance hu
  rw [if_pos hpeek, meets_bind, meets_advance, meets_bind]
  refine meets_expect_of_behind (by rw [hu']; exact hbrace') ?_
  rw [meets_bind]
  refine (halternative depth u.advance.advance (by omega) hu').meets fun v hv herrors'' => ?_
  exact ⟨rfl, hv, herrors''.trans (herrors'.trans herrors)⟩

/-- A list of parameters and a block. -/
theorem succeeds_function {ps : List Name} {b : Node} {l c : Token} (hword : t.kind = .function)
    (hopening : l.kind = .lparen) (hparameters : (Part.parameters ps).Succeeds ts (c :: us))
    (hclosing : c.kind = .rparen) (hbrace : nextKind us = .lbrace) (hlen : us.length < ts.length)
    (hbody : (Part.block b).Succeeds us rest) :
    (Part.first (.function t ps b)).Succeeds (t :: l :: ts) rest := by
  intro depth r hdepth hr
  rw [List.length_cons, List.length_cons] at hdepth
  have hbehind := behind_of_tokens hr
  rw [current_of_tokens hr, hword]
  refine ⟨parseFunction _, rfl, ?_⟩
  simp only [StopsBefore, parseFunction, meets_bind, meets_current, current_of_tokens hr, meets_pure]
  refine meets_expect_of_behind (by rw [hbehind]; exact hopening) ?_
  refine (hparameters r.advance hclosing (behind_advance hbehind)).meets fun s hs herrors => ?_
  have hs' : s.behind = us := behind_of_tokens hs
  refine meets_expect_of_behind (by rw [hs']; exact hbrace) ?_
  refine (hbody depth s.advance (by omega) hs').meets fun u hu herrors' => ?_
  exact ⟨rfl, hu, herrors'.trans herrors⟩

theorem succeeds_array {es : List Node} {c : Token} (hopening : t.kind = .lbracket)
    (helements : (Part.expressions es).Succeeds ts (c :: rest)) (hclosing : c.kind = .rbracket) :
    (Part.first (.array t es)).Succeeds (t :: ts) rest := by
  intro depth r hdepth hr
  rw [List.length_cons] at hdepth
  rw [current_of_tokens hr, hopening]
  refine ⟨parseArray _, rfl, ?_⟩
  simp only [StopsBefore, parseArray, meets_bind, meets_current, current_of_tokens hr, meets_pure]
  refine (helements .rbracket depth r (.inr rfl) hclosing (by omega) (behind_of_tokens hr)).meets
    fun s hs herrors => ?_
  exact ⟨rfl, behind_of_tokens hs, herrors⟩

theorem succeeds_dictionary {ps : List (Node × Node)} {c : Token} (hopening : t.kind = .lbrace)
    (hpairs : (Part.pairs ps).Succeeds ts (c :: rest)) (hclosing : c.kind = .rbrace) :
    (Part.first (.dictionary t ps)).Succeeds (t :: ts) rest := by
  intro depth r hdepth hr
  rw [List.length_cons] at hdepth
  rw [current_of_tokens hr, hopening]
  refine ⟨parseDictionary _, rfl, ?_⟩
  simp only [StopsBefore, parseDictionary, meets_bind, meets_current, current_of_tokens hr,
    meets_rounds, meets_pure]
  have hbound : r.tokens.length = ts.length + 1 := by rw [hr, List.length_cons]
  refine (hpairs depth _ r hclosing (by omega) (by omega) (behind_of_tokens hr)).meets
    fun s hs herrors => ?_
  refine meets_expect_of_behind (by rw [hs]; exact hclosing) ?_
  exact ⟨rfl, behind_advance hs, herrors⟩

/-! ## Extensions -/

/-- An operator and its right operand, read in the context of the operator. -/
theorem succeeds_infixOp {left e : Node} (hoperator : t.kind.isInfixOperator)
    (hright : (Part.expression (.ofKind t.kind) e).Succeeds ts rest) :
    (Part.link left (.infixOp t t.literal left e)).Succeeds (t :: ts) rest := by
  intro depth r hdepth hr
  rw [List.length_cons] at hdepth
  have hinfix : StopsBefore (parseInfix (.ofDepth depth) left) r (.infixOp t t.literal left e)
      rest := by
    simp only [StopsBefore, parseInfix, meets_bind, meets_current, current_of_tokens hr,
      meets_advance, meets_pure]
    refine (hright depth r.advance (by omega) (behind_of_tokens hr)).meets fun s hs herrors => ?_
    exact ⟨rfl, hs, herrors⟩
  simp only [StopsBefore, parseExtension, meets_bind, meets_current, current_of_tokens hr]
  cases hk : t.kind
  all_goals first
    | exact hinfix
    | (rw [hk] at hoperator; exact absurd hoperator (by decide))

/-- Arguments in parentheses extend an expression to a call. -/
theorem succeeds_call {left : Node} {es : List Node} {c : Token} (hopening : t.kind = .lparen)
    (harguments : (Part.expressions es).Succeeds ts (c :: rest)) (hclosing : c.kind = .rparen) :
    (Part.link left (.call t left es)).Succeeds (t :: ts) rest := by
  intro depth r hdepth hr
  rw [List.length_cons] at hdepth
  simp only [StopsBefore, parseExtension, parseCall, meets_bind, meets_current,
    current_of_tokens hr, hopening, meets_pure]
  refine (harguments .rparen depth r (.inl rfl) hclosing (by omega) (behind_of_tokens hr)).meets
    fun s hs herrors => ?_
  exact ⟨rfl, behind_of_tokens hs, herrors⟩

/-- An expression in brackets extends an expression to an index. -/
theorem succeeds_index {left e : Node} {c : Token} (hopening : t.kind = .lbracket)
    (hinner : (Part.expression .lowest e).Succeeds ts (c :: rest)) (hclosing : c.kind = .rbracket) :
    (Part.link left (.index t left e)).Succeeds (t :: ts) rest := by
  intro depth r hdepth hr
  rw [List.length_cons] at hdepth
  simp only [StopsBefore, parseExtension, parseIndex, meets_bind, meets_current,
    current_of_tokens hr, hopening, meets_advance, meets_pure]
  refine (hinner depth r.advance (by omega) (behind_of_tokens hr)).meets fun s hs herrors => ?_
  refine meets_expect_of_behind (by rw [hs]; exact hclosing) ?_
  exact ⟨rfl, behind_advance hs, herrors⟩

/-- Nothing extends an expression where the next token does not bind tighter than the context. -/
theorem succeeds_unextended {context : Precedence} {e : Node}
    (hloose : ¬Binds context (nextKind ts)) : (Part.extension context e e).Succeeds ts ts := by
  intro depth bound r _ hbound hr
  obtain ⟨bound, rfl⟩ : ∃ k, bound = k + 1 := ⟨bound - 1, by omega⟩
  have hpeek : ¬Binds context r.peek.kind := by rw [kind_peek, hr]; exact hloose
  unfold StopsBefore parseExtensions
  rw [meets_bind]
  refine meets_extends (fun h => absurd h hpeek) fun _ => ?_
  exact ⟨rfl, hr, rfl⟩

/-- What extends an expression is read in one round of the loop, what extends it further in the next
ones. -/
theorem succeeds_extended {context : Precedence} {e e₁ e₂ : Node}
    (htight : Binds context (nextKind ts)) (hlen : us.length < ts.length)
    (hlink : (Part.link e e₁).Succeeds ts us)
    (hmore : (Part.extension context e₁ e₂).Succeeds us rest) :
    (Part.extension context e e₂).Succeeds ts rest := by
  intro depth bound r hdepth hbound hr
  obtain ⟨bound, rfl⟩ : ∃ k, bound = k + 1 := ⟨bound - 1, by omega⟩
  have hpeek : Binds context r.peek.kind := by rw [kind_peek, hr]; exact htight
  unfold StopsBefore parseExtensions
  rw [meets_bind]
  refine meets_extends (fun _ => ?_) fun h => absurd hpeek h
  simp only [if_true, meets_bind, meets_advance, meets_ofOption_some, meets_attempt]
  refine (hlink depth r.advance hdepth hr).meets fun s hs herrors => ?_
  refine (hmore depth bound s (by omega) (by omega) hs).meets fun u hu herrors' => ?_
  exact ⟨rfl, hu, herrors'.trans herrors⟩

/-- An expression is its first part and all that extends it. -/
theorem succeeds_expression {context : Precedence} {e e' : Node} (hlen : us.length < ts.length)
    (hfirst : (Part.first e).Succeeds ts us)
    (hmore : (Part.extension context e e').Succeeds us rest) :
    (Part.expression context e').Succeeds ts rest := by
  intro depth r hdepth hr
  obtain ⟨depth, rfl⟩ : ∃ k, depth = k + 1 := ⟨depth - 1, by omega⟩
  obtain ⟨reading, hreading, hreads⟩ := hfirst depth r (by omega) hr
  simp only [StopsBefore, Level.ofDepth, parseExpression, meets_bind, meets_current, hreading,
    meets_attempt, meets_rounds]
  refine hreads.meets fun s hs herrors => ?_
  have hbound := length_behind s
  rw [hs] at hbound
  refine (hmore depth _ s (by omega) (by omega) hs).meets fun u hu herrors' => ?_
  exact ⟨rfl, hu, herrors'.trans herrors⟩

/-! ## Statements -/

/-- A value, and a semicolon that may follow it, as at the end of most statements. -/
theorem stopsBefore_ended {value : Node} {depth : Nat} (node : Node → Node)
    (hvalue : (Part.expression .lowest value).Succeeds ts us) (hending : Part.ending.Succeeds us rest)
    (hdepth : 2 * ts.length + 1 ≤ depth) (hr : r.tokens = ts) :
    StopsBefore (do
      let value ← (Level.ofDepth depth).expression .lowest
      skipSemicolon
      return node value : Parse Node) r (node value) rest := by
  unfold StopsBefore
  rw [meets_bind]
  refine (hvalue depth r hdepth hr).meets fun s hs herrors => ?_
  rw [meets_bind]
  refine (hending s hs).meets fun u hu herrors' => ?_
  exact ⟨rfl, hu, herrors'.trans herrors⟩

/-- A name, a sign and a value, as in all statements that set a name. -/
theorem stopsBefore_binding {value : Node} {x a : Token} {depth : Nat} (node : Name → Node → Node)
    (hsign : a.kind = .assign) (hvalue : (Part.expression .lowest value).Succeeds ts us)
    (hending : Part.ending.Succeeds us rest) (hdepth : 2 * ts.length + 1 ≤ depth)
    (hr : r.tokens = x :: a :: ts) :
    StopsBefore (parseBinding (.ofDepth depth) node) r (node ⟨x, x.literal⟩ value) rest := by
  have hbehind := behind_of_tokens hr
  unfold StopsBefore parseBinding
  rw [meets_bind, meets_currentName, meets_bind, current_of_tokens hr]
  refine meets_expect_of_behind (by rw [hbehind]; exact hsign) ?_
  rw [meets_bind, meets_advance]
  exact stopsBefore_ended (node ⟨x, x.literal⟩) hvalue hending hdepth (behind_advance hbehind)

/-- The two declarations differ in their word and in the node they make. -/
theorem stopsBefore_declaration {value : Node} {x a : Token} {depth : Nat}
    (node : Token → Name → Node → Node) (hname : x.kind = .ident) (hsign : a.kind = .assign)
    (hvalue : (Part.expression .lowest value).Succeeds ts us)
    (hending : Part.ending.Succeeds us rest) (hdepth : 2 * ts.length + 1 ≤ depth)
    (hr : r.tokens = t :: x :: a :: ts) :
    StopsBefore (do
      let token ← Parse.current
      expect .ident
      parseBinding (.ofDepth depth) (node token)) r (node t ⟨x, x.literal⟩ value) rest := by
  have hbehind := behind_of_tokens hr
  unfold StopsBefore
  rw [meets_bind, meets_current, meets_bind, current_of_tokens hr]
  refine meets_expect_of_behind (by rw [hbehind]; exact hname) ?_
  exact stopsBefore_binding (r := r.advance) (node t) hsign hvalue hending hdepth hbehind

theorem succeeds_letBinding {value : Node} {x a : Token} (hword : t.kind = .letWord)
    (hname : x.kind = .ident) (hsign : a.kind = .assign)
    (hvalue : (Part.expression .lowest value).Succeeds ts us)
    (hending : Part.ending.Succeeds us rest) :
    (Part.statement (.letBinding t ⟨x, x.literal⟩ value)).Succeeds (t :: x :: a :: ts) rest := by
  intro depth r hdepth hr
  simp only [List.length_cons] at hdepth
  obtain ⟨depth, rfl⟩ : ∃ k, depth = k + 1 := ⟨depth - 1, by omega⟩
  simp only [StopsBefore, Level.ofDepth, parseStatement, meets_bind, meets_current,
    current_of_tokens hr, hword]
  exact stopsBefore_declaration .letBinding hname hsign hvalue hending (by omega) hr

theorem succeeds_constBinding {value : Node} {x a : Token} (hword : t.kind = .constWord)
    (hname : x.kind = .ident) (hsign : a.kind = .assign)
    (hvalue : (Part.expression .lowest value).Succeeds ts us)
    (hending : Part.ending.Succeeds us rest) :
    (Part.statement (.constBinding t ⟨x, x.literal⟩ value)).Succeeds (t :: x :: a :: ts) rest := by
  intro depth r hdepth hr
  simp only [List.length_cons] at hdepth
  obtain ⟨depth, rfl⟩ : ∃ k, depth = k + 1 := ⟨depth - 1, by omega⟩
  simp only [StopsBefore, Level.ofDepth, parseStatement, meets_bind, meets_current,
    current_of_tokens hr, hword]
  exact stopsBefore_declaration .constBinding hname hsign hvalue hending (by omega) hr

/-- A name with `=` behind it begins an assignment and no expression. -/
theorem succeeds_assignment {value : Node} {x a : Token} (hname : x.kind = .ident)
    (hsign : a.kind = .assign) (hvalue : (Part.expression .lowest value).Succeeds ts us)
    (hending : Part.ending.Succeeds us rest) :
    (Part.statement (.assignment ⟨.assign, "="⟩ ⟨x, x.literal⟩ value)).Succeeds (x :: a :: ts)
      rest := by
  intro depth r hdepth hr
  simp only [List.length_cons] at hdepth
  obtain ⟨depth, rfl⟩ : ∃ k, depth = k + 1 := ⟨depth - 1, by omega⟩
  have hpeek : r.peek.kind = .assign := by rw [peek_of_behind (behind_of_tokens hr)]; exact hsign
  simp only [StopsBefore, Level.ofDepth, parseStatement, meets_bind, meets_current,
    current_of_tokens hr, hname, meets_peek, if_pos hpeek]
  exact stopsBefore_binding _ hsign hvalue hending (by omega) hr

theorem succeeds_returning {value : Node} (hword : t.kind = .returnWord)
    (hvalue : (Part.expression .lowest value).Succeeds ts us)
    (hending : Part.ending.Succeeds us rest) :
    (Part.statement (.returning t value)).Succeeds (t :: ts) rest := by
  intro depth r hdepth hr
  rw [List.length_cons] at hdepth
  obtain ⟨depth, rfl⟩ : ∃ k, depth = k + 1 := ⟨depth - 1, by omega⟩
  have hended := stopsBefore_ended (r := r.advance) (.returning t) hvalue hending
    (show 2 * ts.length + 1 ≤ depth by omega) (behind_of_tokens hr)
  simp only [StopsBefore, Level.ofDepth, parseStatement, meets_bind, meets_current,
    current_of_tokens hr, hword]
  unfold parseReturn
  rw [meets_bind, meets_current, current_of_tokens hr, meets_bind, meets_advance]
  exact hended

/-- A condition and a block. -/
theorem succeeds_loop {e b : Node} {l c : Token} (hword : t.kind = .whileWord)
    (hopening : l.kind = .lparen)
    (hcondition : (Part.expression .lowest e).Succeeds ts (c :: us)) (hclosing : c.kind = .rparen)
    (hbrace : nextKind us = .lbrace) (hlen : us.length < ts.length)
    (hbody : (Part.block b).Succeeds us rest) :
    (Part.statement (.loop t e b)).Succeeds (t :: l :: ts) rest := by
  intro depth r hdepth hr
  simp only [List.length_cons] at hdepth
  obtain ⟨depth, rfl⟩ : ∃ k, depth = k + 1 := ⟨depth - 1, by omega⟩
  have hstart := stopsAt_condition depth hopening hcondition hclosing hbrace (by omega)
    (behind_of_tokens hr)
  simp only [StopsBefore, Level.ofDepth, parseStatement, parseWhile, meets_bind, meets_current,
    current_of_tokens hr, hword, meets_pure]
  refine hstart.meets fun s hs herrors => ?_
  refine (hbody depth s (by omega) hs).meets fun u hu herrors' => ?_
  exact ⟨rfl, hu, herrors'.trans herrors⟩

/-- An expression is a statement where it does not begin as an assignment does. -/
theorem succeeds_statement {e : Node} (hplain : ¬(t.kind = .ident ∧ nextKind ts = .assign))
    (hbegins : t.kind.beginsExpression)
    (hvalue : (Part.expression .lowest e).Succeeds (t :: ts) us)
    (hending : Part.ending.Succeeds us rest) :
    (Part.statement (.statement t e)).Succeeds (t :: ts) rest := by
  intro depth r hdepth hr
  obtain ⟨depth, rfl⟩ : ∃ k, depth = k + 1 := ⟨depth - 1, by omega⟩
  have hended : StopsBefore (parseExpressionStatement (.ofDepth depth)) r (.statement t e) rest := by
    unfold StopsBefore parseExpressionStatement
    rw [meets_bind, meets_current, current_of_tokens hr]
    exact stopsBefore_ended (.statement t) hvalue hending (by omega) hr
  simp only [StopsBefore, Level.ofDepth, parseStatement, meets_bind, meets_current,
    current_of_tokens hr]
  cases hk : t.kind
  case ident =>
    have hpeek : r.peek.kind ≠ .assign := by
      rw [kind_peek, behind_of_tokens hr]
      exact fun h => hplain ⟨hk, h⟩
    simp only [meets_bind, meets_peek, if_neg hpeek]
    exact hended
  all_goals first
    | exact hended
    | (rw [hk] at hbegins; exact absurd hbegins (by decide))

/-! ## Parts and programs -/

end

/-- A block begins with a brace. -/
theorem Reads.nextKind_block {ts rest : List Token} {b : Node} (h : Reads (.block b) ts rest) :
    nextKind ts = .lbrace := by
  cases h with
  | block opening | blockAtEnd opening => exact opening

/-- **What the grammar reads, the parser reads.** -/
theorem Reads.succeeds {part : Part} {ts rest : List Token} (h : Reads part ts rest) :
    part.Succeeds ts rest := by
  -- where a part stands behind another one, its levels are paid for by the tokens of the first,
  -- so the lengths of the readings go into the lemmas
  induction h with
  | identifier kind => exact succeeds_identifier kind
  | integer kind value noPoint => exact succeeds_integer kind value noPoint
  | float kind whole dot value => exact succeeds_float (_ :: _) kind whole dot value
  | floatAtEnd kind whole dot value => exact succeeds_float [] kind whole dot value
  | boolean kind => exact succeeds_boolean kind
  | string kind => exact succeeds_string kind
  | group opening _ closing ih => exact succeeds_group opening ih closing
  | prefixOp operator _ ih => exact succeeds_prefixOp operator ih
  | ifThen word opening condition closing consequence noElse ihc ihb =>
    have hlen := condition.length_le
    rw [List.length_cons] at hlen
    exact succeeds_ifThen word opening ihc closing consequence.nextKind_block (by omega) ihb noElse
  | ifElse word opening condition closing consequence otherwise alternative ihc ihb₁ ihb₂ =>
    have hlen := condition.length_le
    have hlen' := consequence.length_le
    rw [List.length_cons] at hlen hlen'
    exact succeeds_ifElse word opening ihc closing consequence.nextKind_block (by omega) ihb₁
      otherwise alternative.nextKind_block (by omega) ihb₂
  | function word opening parameters closing body ihps ihb =>
    have hlen := parameters.length_le
    rw [List.length_cons] at hlen
    exact succeeds_function word opening ihps closing body.nextKind_block (by omega) ihb
  | array opening _ closing ih => exact succeeds_array opening ih closing
  | dictionary opening _ closing ih => exact succeeds_dictionary opening ih closing
  | infixOp operator _ ih => exact succeeds_infixOp operator ih
  | call opening _ closing ih => exact succeeds_call opening ih closing
  | index opening _ closing ih => exact succeeds_index opening ih closing
  | unextended loose => exact succeeds_unextended loose
  | extended tight link _ ihlink ihmore => exact succeeds_extended tight link.length_le ihlink ihmore
  | expression first _ ihfirst ihmore => exact succeeds_expression first.length_le ihfirst ihmore
  | noMoreExpressions noComma => exact succeeds_noMoreExpressions noComma
  | oneMoreExpression comma first _ ihfirst ihmore =>
    exact succeeds_oneMoreExpression comma first.length_le ihfirst ihmore
  | noExpressions => exact succeeds_noExpressions
  | someExpressions first _ ihfirst ihmore =>
    exact succeeds_someExpressions first.begins first.length_le ihfirst ihmore
  | noMoreParameters noComma => exact succeeds_noMoreParameters noComma
  | oneMoreParameter comma _ ih => exact succeeds_oneMoreParameter comma ih
  | noParameters => exact succeeds_noParameters
  | someParameters notClosing _ ih => exact succeeds_someParameters notClosing ih
  | noPairs => exact succeeds_noPairs
  | lastPair key colon _ ihk ihv =>
    exact succeeds_lastPair key.begins colon key.length_le ihk ihv
  | onePair key colon value comma _ ihk ihv ihps =>
    exact succeeds_onePair key.begins colon key.length_le value.length_le ihk ihv comma ihps
  | noEnding noSemicolon => exact succeeds_noEnding noSemicolon
  | semicolon kind => exact succeeds_semicolon kind
  | letBinding word name sign _ _ ihv ihend => exact succeeds_letBinding word name sign ihv ihend
  | constBinding word name sign _ _ ihv ihend =>
    exact succeeds_constBinding word name sign ihv ihend
  | assignment name sign _ _ ihv ihend => exact succeeds_assignment name sign ihv ihend
  | returning word _ _ ihv ihend => exact succeeds_returning word ihv ihend
  | loop word opening condition closing body ihc ihb =>
    have hlen := condition.length_le
    rw [List.length_cons] at hlen
    exact succeeds_loop word opening ihc closing body.nextKind_block (by omega) ihb
  | statement plain value _ ihv ihend => exact succeeds_statement plain value.begins ihv ihend
  | noStatements => exact succeeds_noStatements
  | oneStatement first _ ihfirst ihmore =>
    exact succeeds_oneStatement first.begins_statement first.length_le ihfirst ihmore
  | block _ _ closing ih => exact succeeds_block (_ :: _) (.inl closing) ih
  | blockAtEnd _ _ ih => exact succeeds_block [] (.inr rfl) ih

/-- Statements of the resolved grammar up to the end of the input are read as they are. -/
theorem parseTokens_of_reads {ts rest : List Token} {ss : List Node}
    (h : Reads (.statements ss) ts rest) (hend : nextKind rest = .eof) :
    parseTokens ts = ⟨ss, []⟩ := by
  have hprogram : StopsAt (parseProgram (.ofDepth (depthFor ts.length))) ⟨ts, []⟩ ss rest := by
    unfold StopsAt parseProgram
    rw [meets_bind, meets_rounds]
    exact h.succeeds _ _ _ ⟨ts, []⟩ (by simp) (by simpa using hend) (by rw [depthFor]; omega)
      (Nat.lt_succ_self _) rfl
  obtain ⟨statements, s, houtcome, rfl, -, herrors⟩ := Outcome.Meets.exists_done hprogram
  unfold parseTokens
  rw [houtcome]
  exact congrArg (Parsed.mk statements) herrors

end Monkey
