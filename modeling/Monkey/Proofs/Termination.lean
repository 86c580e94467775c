import Monkey.Proofs.Budget
import Monkey.Proofs.ParserSound

/-!
# The end of parsing

Every text is read to its end, in a number of steps that is known in advance (`parse_ends`). A step is
a move to the next token or the beginning of a nested reading. Behind the last token the moves go on
for ever and bring nothing but end-of-input tokens, so the number of tokens does not bound them by
itself.

Each token that is passed pays for four steps: the move that passes it and three others. The account
is the potential of a reading; a production draws on it no more than its `Costs` say.
-/

namespace Monkey

open Parse Reading

/-! ## Potential -/

/-- The number of tokens up to the last one that does not mark the end of the input. -/
def proper : List Token → Nat
  | [] => 0
  | t :: ts => if proper ts = 0 ∧ t.kind = .eof then 0 else proper ts + 1

/-- Each move passes one proper token, as long as there is one. -/
theorem proper_tail (ts : List Token) : proper ts.tail = proper ts - 1 := by
  cases ts with
  | nil => rfl
  | cons t ts =>
    rw [proper]
    split
    · next h => exact h.1
    · rfl

theorem proper_le (ts : List Token) : proper ts ≤ ts.length := by
  induction ts with
  | nil => exact Nat.le_refl 0
  | cons t ts ih =>
    rw [proper, List.length_cons]
    split <;> omega

theorem proper_replicate_eof (more : Nat) : proper (List.replicate more .eof) = 0 := by
  induction more with
  | zero => rfl
  | succ more ih => exact if_pos ⟨ih, rfl⟩

/-- End-of-input tokens behind the last token are not proper. -/
theorem proper_append_eof (ts : List Token) (more : Nat) :
    proper (ts ++ List.replicate more .eof) = proper ts := by
  induction ts with
  | nil => exact proper_replicate_eof more
  | cons t ts ih => rw [List.cons_append, proper, proper, ih]

namespace Reading

variable {r : Reading}

/-- What a reading can still spend: a note takes one, a move takes one, and a token that is passed
brings four. -/
def potential (r : Reading) : Int :=
  r.errors.count .note + 4 * proper r.tokens - r.tokens.length

/-- Where the current token is not the end of the input there is a token to pass. -/
theorem proper_pos (h : r.current.kind ≠ .eof) : 0 < proper r.tokens := by
  rw [tokens_eq_cons h, proper, if_neg fun hc => h hc.2]
  exact Nat.succ_pos _

theorem proper_pos_of_peek (h : r.peek.kind ≠ .eof) : 0 < proper r.tokens := by
  have hpos : 0 < proper r.tokens.tail := proper_pos (r := r.advance) h
  rw [proper_tail] at hpos
  omega

/-- A move that passes a token brings more than it takes. -/
theorem potential_advance (h : 0 < proper r.tokens) :
    r.advance.potential = r.potential - 3 := by
  have htail := proper_tail r.tokens
  have hlength : r.tokens.tail.length = r.tokens.length - 1 := List.length_tail
  have hle := proper_le r.tokens
  simp only [potential, Reading.advance]
  omega

/-- Behind the last token a move only takes. -/
theorem potential_advance_le (r : Reading) : r.advance.potential ≤ r.potential + 1 := by
  have htail := proper_tail r.tokens
  have hlength : r.tokens.tail.length = r.tokens.length - 1 := List.length_tail
  simp only [potential, Reading.advance]
  omega

/-- An error costs nothing. -/
theorem potential_report {e : SyntaxError} (he : e ≠ .note) :
    (r.report e).potential = r.potential := by
  simp [potential, Reading.report, List.count_append, he]

/-- A note costs one. -/
theorem potential_note (r : Reading) : (r.report .note).potential = r.potential + 1 := by
  simp only [potential, Reading.report, List.count_append, List.count_singleton_self]
  omega

end Reading

/-! ## Costs -/

/-- Unless a bound stopped it, a step that began at `r` spent at most `c`, and `post` holds where it
produced something. -/
inductive Outcome.Costs (c : Nat) (r : Reading) (post : Reading → Prop) : Outcome α → Prop where
  | done (spent : s.potential ≤ r.potential + c) (rest : post s) : Costs c r post (.done a s)
  | refused (spent : s.potential ≤ r.potential + c) : Costs c r post (.refused s)
  | exhausted : Costs c r post .exhausted

namespace Outcome.Costs

variable {c c₁ c₂ : Nat} {r : Reading} {post post₁ : Reading → Prop}

/-- The costs of what begins at `s`, seen from an earlier reading. -/
theorem of_le {o : Outcome α} {s : Reading} (h : o.Costs c₁ s post)
    (hs : s.potential + c₁ ≤ r.potential + c) : o.Costs c r post := by
  cases h with
  | done spent rest => exact .done (Int.le_trans spent hs) rest
  | refused spent => exact .refused (Int.le_trans spent hs)
  | exhausted => exact .exhausted

/-- What the first step leaves is there for the others. -/
theorem bind {p : Parse α} {f : α → Parse β} (hp : (p r).Costs c₁ r post₁)
    (hf : ∀ a s, post₁ s → (f a s).Costs c₂ s post) : ((p >>= f) r).Costs (c₂ + c₁) r post := by
  show (Parse.bind p f r).Costs (c₂ + c₁) r post
  unfold Parse.bind
  generalize p r = o at hp ⊢
  cases hp with
  | done spent rest => exact (hf _ _ rest).of_le (by omega)
  | refused spent => exact .refused (by omega)
  | exhausted => exact .exhausted

theorem pure {a : α} (hpost : post r) : ((Pure.pure a : Parse α) r).Costs c r post :=
  .done (by omega) hpost

/-- A refusal with an error. -/
theorem reportRefuse {e : SyntaxError} (he : e ≠ .note) :
    ((do report e; Parse.refuse : Parse α) r).Costs c r post := by
  refine .refused (s := r.report e) ?_
  rw [potential_report he]
  omega

theorem current {f : Token → Parse β} (hf : (f r.current r).Costs c r post) :
    ((Parse.current >>= f) r).Costs c r post := hf

theorem currentName {f : Name → Parse β} (hf : ∀ name, (f name r).Costs c r post) :
    ((Parse.currentName >>= f) r).Costs c r post := hf _

theorem peek {f : Token → Parse β} (hf : (f r.peek r).Costs c r post) :
    ((Parse.peek >>= f) r).Costs c r post := hf

theorem rounds {f : Nat → Parse β} (hf : ∀ n, (f n r).Costs c r post) :
    ((Parse.rounds >>= f) r).Costs c r post := hf _

theorem ite {b : Prop} [Decidable b] {p q : Parse α} (hthen : b → (p r).Costs c r post)
    (helse : ¬b → (q r).Costs c r post) : ((if b then p else q) r).Costs c r post := by
  split
  · exact hthen ‹_›
  · exact helse ‹_›

/-- A token that is passed brings three. -/
theorem advance {f : Unit → Parse β} (hr : 0 < proper r.tokens)
    (hf : (f () r.advance).Costs (c + 3) r.advance post) :
    ((Parse.advance >>= f) r).Costs c r post :=
  hf.of_le (by have := potential_advance hr; omega)

/-- A move behind the last token takes one. -/
theorem advanceBehind {f : Unit → Parse β} (hf : (f () r.advance).Costs c r.advance post) :
    ((Parse.advance >>= f) r).Costs (c + 1) r post :=
  hf.of_le (by have := potential_advance_le r; omega)

/-- The expected token is passed, which pays for three steps; another one is reported. -/
theorem expect {kind : TokenKind} {f : Unit → Parse β} (hkind : kind ≠ .eof)
    (hf : r.peek.kind = kind → (f () r.advance).Costs (c + 3) r.advance post) :
    ((Parse.expect kind >>= f) r).Costs c r post := by
  show (Parse.bind (Parse.expect kind) f r).Costs c r post
  have hstep : Parse.expect kind r = if r.peek.kind = kind then .done () r.advance
      else .refused (r.report (.unexpected kind r.peek.kind)) := by
    show (if r.peek.kind = kind then _ else _ : Parse Unit) r = _
    split <;> rfl
  rw [Parse.bind, hstep]
  by_cases hpeek : r.peek.kind = kind
  · have hmoved := potential_advance (proper_pos_of_peek (hpeek ▸ hkind))
    rw [if_pos hpeek]
    exact (hf hpeek).of_le (by omega)
  · rw [if_neg hpeek]
    exact reportRefuse (α := β) fun he => hkind (SyntaxError.unexpected.inj he).1

theorem skipSemicolon : (Parse.skipSemicolon r).Costs c r fun _ => True := by
  refine .peek <| .ite (fun hsemi => ?_) fun _ => .pure trivial
  have hmoved := potential_advance (proper_pos_of_peek (r := r) (by simp [hsemi]))
  exact .done (s := r.advance) (by omega) trivial

/-- Only a token that is not the end of the input extends an expression. -/
theorem extends? {context : Precedence} {f : Bool → Parse β}
    (htight : r.peek.kind ≠ .eof → (f true r).Costs c r post)
    (hloose : (f false r).Costs c r post) :
    ((Monkey.extends? context >>= f) r).Costs c r post := by
  show (f (decide (r.peek.kind ≠ .semicolon ∧
    context.rank < (Precedence.ofKind r.peek.kind).rank)) r).Costs c r post
  by_cases hbinds : r.peek.kind ≠ .semicolon ∧ context.rank < (Precedence.ofKind r.peek.kind).rank
  · rw [decide_eq_true hbinds]
    refine htight fun hend => ?_
    rw [hend] at hbinds
    exact absurd hbinds.2 (Nat.not_lt_zero _)
  · rw [decide_eq_false hbinds]
    exact hloose

/-- A refusal keeps to the costs as well. -/
theorem attempt {p : Parse α} (h : (p r).Costs c r post) :
    (Parse.attempt p r).Costs c r fun _ => True := by
  unfold Parse.attempt
  generalize p r = o at h ⊢
  cases h with
  | done spent => exact .done spent trivial
  | refused spent => exact .done spent trivial
  | exhausted => exact .exhausted

theorem ofOption {a? : Option α} : (Parse.ofOption a? r).Costs c r fun _ => True := by
  cases a? with
  | none => exact .refused (by omega)
  | some a => exact .pure trivial

end Outcome.Costs

/-- The costs of nested readings: their own notes, and those of a statement that is an expression. -/
structure Level.Costs (level : Level) : Prop where
  expression : ∀ context r, (level.expression context r).Costs 1 r fun _ => True
  statement : ∀ r, (level.statement r).Costs 2 r fun _ => True

/-! ## Productions -/

section Productions

variable {level : Level} {r : Reading}

/-- A number pays for itself: the token that it begins with is passed. -/
theorem costs_number (hr : r.current.kind = .int) :
    (parseNumber r).Costs 0 r fun _ => True := by
  refine .current ?_
  dsimp only
  cases Numeral.readInt? r.current.literal with
  | none => exact .reportRefuse SyntaxError.noConfusion
  | some whole =>
    refine .peek <| .ite (fun hpoint => ?_) fun _ => .pure trivial
    refine .advance (proper_pos (by simp [hr])) ?_
    refine .advance (proper_pos (by simp [hpoint])) <| .current ?_
    cases Numeral.readBinary64? _ with
    | none => exact .reportRefuse SyntaxError.noConfusion
    | some x => exact .pure trivial

/-- Each round passes a comma, which pays for the reading of the expression behind it. -/
theorem costs_moreExpressions (hlevel : level.Costs) (bound : Nat) (r : Reading) :
    (parseMoreExpressions level bound r).Costs 0 r fun _ => True := by
  induction bound generalizing r with
  | zero => exact .exhausted
  | succ bound ih =>
    refine .peek <| .ite (fun hcomma => ?_) fun _ => .pure trivial
    refine .advance (proper_pos_of_peek (by simp [hcomma])) ?_
    refine .advance (proper_pos (by simp [hcomma])) ?_
    refine (hlevel.expression .lowest _).bind fun first s _ => ?_
    exact (ih s).bind fun more t _ => .pure trivial

/-- The opening bracket pays for the reading of the first expression. -/
theorem costs_expressions (hlevel : level.Costs) {closing : TokenKind} (hclosing : closing ≠ .eof)
    (hr : r.current.kind ≠ .eof) :
    (parseExpressions level closing r).Costs 0 r fun _ => True := by
  refine .peek <| .ite (fun _ => .advance (proper_pos hr) (.pure trivial)) fun _ => ?_
  refine .advance (proper_pos hr) ?_
  refine (hlevel.expression .lowest _).bind fun first s _ => .rounds fun n => ?_
  refine (costs_moreExpressions hlevel n s).bind fun more t _ => ?_
  exact .expect hclosing fun _ => .pure trivial

/-- Each round passes a comma and moves to the parameter behind it. -/
theorem costs_moreParameters (bound : Nat) (r : Reading) :
    (parseMoreParameters bound r).Costs 0 r fun _ => True := by
  induction bound generalizing r with
  | zero => exact .exhausted
  | succ bound ih =>
    refine .peek <| .ite (fun hcomma => ?_) fun _ => .pure trivial
    refine .advance (proper_pos_of_peek (by simp [hcomma])) ?_
    refine .advance (proper_pos (by simp [hcomma])) <| .currentName fun first => ?_
    exact (ih _).bind fun more s _ => .pure trivial

theorem costs_parameters (hr : r.current.kind ≠ .eof) :
    (parseParameters r).Costs 0 r fun _ => True := by
  refine .peek <| .ite (fun _ => .advance (proper_pos hr) (.pure trivial)) fun _ => ?_
  refine .advance (proper_pos hr) <| .currentName fun first => .rounds fun n => ?_
  refine (costs_moreParameters n _).bind fun more s _ => ?_
  exact .expect TokenKind.noConfusion fun _ => .pure trivial

/-- A round begins at a token that is passed, or the dictionary ends here. -/
theorem costs_pairs (hlevel : level.Costs) (bound : Nat) {r : Reading}
    (hr : r.peek.kind = .rbrace ∨ r.current.kind ≠ .eof) :
    (parsePairs level bound r).Costs 0 r fun _ => True := by
  induction bound generalizing r with
  | zero => exact .exhausted
  | succ bound ih =>
    refine .peek <| .ite (fun _ => .pure trivial) fun hpeek => ?_
    refine .advance (proper_pos (hr.resolve_left hpeek)) ?_
    refine (hlevel.expression .lowest _).attempt.bind fun key? s _ => ?_
    refine .expect TokenKind.noConfusion fun hcolon => ?_
    refine .advance (proper_pos (by simp [hcolon])) ?_
    refine (hlevel.expression .lowest _).attempt.bind fun value? t _ => ?_
    refine (Outcome.Costs.ofOption (c := 0)).bind fun key u _ => ?_
    refine (Outcome.Costs.ofOption (c := 0)).bind fun value v _ => .peek ?_
    refine .ite (fun _ => .expect TokenKind.noConfusion fun hcomma => ?_) fun hbrace => ?_
    · exact (ih (.inr (by simp [hcomma]))).bind fun more w _ => .pure trivial
    · exact (ih (.inl (Decidable.not_not.mp hbrace))).bind fun more w _ =>
        .pure trivial

/-- Nothing is read where the statements stop at once. -/
theorem costs_statements_of_stop {stop : TokenKind → Bool} (bound : Nat)
    (hr : stop r.current.kind) :
    (parseStatements level stop bound r).Costs 0 r fun _ => True := by
  cases bound with
  | zero => exact .exhausted
  | succ bound => exact .current <| .ite (fun _ => .pure trivial) fun h => absurd hr h

/-- Only the last move can be one behind the last token, because it ends the loop. -/
theorem costs_statements (hlevel : level.Costs) {stop : TokenKind → Bool} (hstop : stop .eof)
    (bound : Nat) (r : Reading) :
    (parseStatements level stop bound r).Costs 3 r fun _ => True := by
  induction bound generalizing r with
  | zero => exact .exhausted
  | succ bound ih =>
    refine .current <| .ite (fun _ => .pure trivial) fun _ => ?_
    refine (hlevel.statement r).attempt.bind fun first? s _ => ?_
    by_cases hs : 0 < proper s.tokens
    · refine .advance hs ?_
      exact (ih _).bind fun more t _ => .pure trivial
    · have hend : s.advance.current.kind = .eof :=
        Decidable.byContradiction fun h => hs (proper_pos_of_peek h)
      refine .advanceBehind ?_
      exact (costs_statements_of_stop bound (hend ▸ hstop)).bind fun more t _ =>
        .pure trivial

/-- The opening brace pays for the move to the first statement and what it may leave unpaid. -/
theorem costs_block (hlevel : level.Costs) (hr : r.current.kind ≠ .eof) :
    (parseBlock level r).Costs 0 r fun _ => True := by
  refine .current <| .advance (proper_pos hr) <| .rounds fun n => ?_
  exact (costs_statements hlevel (by decide) n _).bind fun statements s _ =>
    .pure trivial

/-- The operator pays for the reading of its operand. -/
theorem costs_prefixOp (hlevel : level.Costs) (hr : r.current.kind ≠ .eof) :
    (parsePrefix level r).Costs 0 r fun _ => True := by
  refine .current <| .advance (proper_pos hr) ?_
  exact (hlevel.expression _ _).bind fun right s _ => .pure trivial

theorem costs_group (hlevel : level.Costs) (hr : r.current.kind ≠ .eof) :
    (parseGroup level r).Costs 0 r fun _ => True := by
  refine .advance (proper_pos hr) ?_
  refine (hlevel.expression _ _).attempt.bind fun content? s _ => ?_
  exact .expect TokenKind.noConfusion fun _ => .ofOption

/-- A condition ends at the brace of the block behind it. -/
theorem costs_condition (hlevel : level.Costs) :
    (parseCondition level r).Costs 0 r fun s => s.current.kind = .lbrace := by
  refine .expect TokenKind.noConfusion fun hparen => ?_
  refine .advance (proper_pos (by simp [hparen])) ?_
  refine (hlevel.expression _ _).bind fun condition s _ => ?_
  refine .expect TokenKind.noConfusion fun _ => ?_
  exact .expect TokenKind.noConfusion fun hbrace => .pure hbrace

/-- Parentheses and braces are passed, and pay for what they enclose. -/
theorem costs_if (hlevel : level.Costs) : (parseIf level r).Costs 0 r fun _ => True := by
  refine .current ?_
  refine (costs_condition hlevel).bind fun condition s hbrace => ?_
  refine (costs_block hlevel (by simp [hbrace])).bind fun consequence t _ => ?_
  refine .peek <| .ite (fun hword => ?_) fun _ => .pure trivial
  refine .advance (proper_pos_of_peek (by simp [hword])) ?_
  refine .expect TokenKind.noConfusion fun hbrace => ?_
  exact (costs_block hlevel (by simp [hbrace])).bind fun alternative u _ =>
    .pure trivial

theorem costs_function (hlevel : level.Costs) :
    (parseFunction level r).Costs 0 r fun _ => True := by
  refine .current <| .expect TokenKind.noConfusion fun hparen => ?_
  refine (costs_parameters (by simp [hparen])).bind fun parameters s _ => ?_
  refine .expect TokenKind.noConfusion fun hbrace => ?_
  exact (costs_block hlevel (by simp [hbrace])).bind fun body t _ =>
    .pure trivial

theorem costs_array (hlevel : level.Costs) (hr : r.current.kind ≠ .eof) :
    (parseArray level r).Costs 0 r fun _ => True :=
  .current <| (costs_expressions hlevel TokenKind.noConfusion hr).bind fun _ _ _ =>
    .pure trivial

theorem costs_dictionary (hlevel : level.Costs) (hr : r.current.kind ≠ .eof) :
    (parseDictionary level r).Costs 0 r fun _ => True := by
  refine .current <| .rounds fun n => ?_
  refine (costs_pairs hlevel n (.inr hr)).bind fun pairs s _ => ?_
  exact .expect TokenKind.noConfusion fun _ => .pure trivial

/-- Whatever extends an expression begins with a token that is passed. -/
theorem costs_extension (hlevel : level.Costs) (hr : r.current.kind ≠ .eof) (left : Node) :
    (parseExtension level left r).Costs 0 r fun _ => True := by
  refine .current ?_
  cases hk : r.current.kind
  case lparen =>
    exact .current <| (costs_expressions hlevel TokenKind.noConfusion hr).bind fun _ _ _ =>
      .pure trivial
  case lbracket =>
    refine .current <| .advance (proper_pos hr) ?_
    refine (hlevel.expression _ _).bind fun position s _ => ?_
    exact .expect TokenKind.noConfusion fun _ => .pure trivial
  all_goals
    refine .current <| .advance (proper_pos hr) ?_
    exact (hlevel.expression _ _).bind fun right s _ => .pure trivial

/-- By induction on the rounds: each one passes the token that an extension begins with. -/
theorem costs_extensions (hlevel : level.Costs) (context : Precedence) (bound : Nat)
    (left? : Option Node) (r : Reading) :
    (parseExtensions level context bound left? r).Costs 0 r fun _ => True := by
  induction bound generalizing left? r with
  | zero => exact .exhausted
  | succ bound ih =>
    refine .extends? (fun hpeek => ?_) .ofOption
    refine .advance (proper_pos_of_peek hpeek) ?_
    cases left? with
    | none => exact .refused (s := r.advance) (by omega)
    | some left =>
      refine (costs_extension (r := r.advance) hlevel hpeek left).attempt.bind fun extended? s _ => ?_
      exact (ih extended? s).of_le (by omega)

/-- What an expression begins with is passed before a part is read. -/
theorem costs_expression (hlevel : level.Costs) (context : Precedence) (r : Reading) :
    (parseExpression level context r).Costs 0 r fun _ => True := by
  have hextended {first : Parse Node} (hfirst : (first r).Costs 0 r fun _ => True) :
      ((do
        let first? ← attempt first
        parseExtensions level context (← rounds) first? : Parse Node) r).Costs 0 r
        fun _ => True :=
    hfirst.attempt.bind fun first? s _ => .rounds fun n =>
      costs_extensions hlevel context n first? s
  refine .current ?_
  cases hk : r.current.kind
  case ident => exact hextended <| .currentName fun name => .pure trivial
  case int => exact hextended (costs_number hk)
  case bang | minus => exact hextended (costs_prefixOp hlevel (by simp [hk]))
  case trueWord | falseWord => exact hextended <| .current <| .pure trivial
  case string => exact hextended <| .current <| .pure trivial
  case lparen => exact hextended (costs_group hlevel (by simp [hk]))
  case ifWord => exact hextended (costs_if hlevel)
  case function => exact hextended (costs_function hlevel)
  case lbracket => exact hextended (costs_array hlevel (by simp [hk]))
  case lbrace => exact hextended (costs_dictionary hlevel (by simp [hk]))
  all_goals exact .reportRefuse SyntaxError.noConfusion

/-- The sign pays for the reading of the value. -/
theorem costs_binding (hlevel : level.Costs) (node : Name → Node → Node) :
    (parseBinding level node r).Costs 0 r fun _ => True := by
  refine .currentName fun name => .expect TokenKind.noConfusion fun hsign => ?_
  refine .advance (proper_pos (by simp [hsign])) ?_
  refine (hlevel.expression _ _).bind fun value s _ => ?_
  exact (Outcome.Costs.skipSemicolon (c := 0)).bind fun _ t _ =>
    .pure trivial

/-- A statement that is an expression is the only one that passes no token before it reads a part. -/
theorem costs_statement (hlevel : level.Costs) (r : Reading) :
    (parseStatement level r).Costs 1 r fun _ => True := by
  have hexpression : (parseExpressionStatement level r).Costs 1 r fun _ => True := by
    refine .current <| (hlevel.expression _ _).bind fun value s _ => ?_
    exact (Outcome.Costs.skipSemicolon (c := 0)).bind fun _ t _ =>
      .pure trivial
  refine .current ?_
  cases hk : r.current.kind
  case letWord =>
    exact .current <| .expect TokenKind.noConfusion fun _ =>
      (costs_binding hlevel _).of_le (by omega)
  case constWord =>
    exact .current <| .expect TokenKind.noConfusion fun _ =>
      (costs_binding hlevel _).of_le (by omega)
  case returnWord =>
    refine .current <| .advance (proper_pos (by simp [hk])) ?_
    refine (hlevel.expression _ _).bind fun value s _ => ?_
    exact (Outcome.Costs.skipSemicolon (c := 0)).bind fun _ t _ =>
      .pure trivial
  case whileWord =>
    refine .current <| (costs_condition hlevel).bind fun condition s hbrace => ?_
    exact (costs_block hlevel (by simp [hbrace])).bind fun body t _ =>
      .pure trivial
  case ident =>
    exact .peek <| .ite (fun _ => (costs_binding hlevel _).of_le (by omega)) fun _ => hexpression
  all_goals exact hexpression

end Productions

/-- Each nested reading leaves a note, which takes one; statements that are expressions take
another. -/
theorem noting_costs (depth : Nat) : (Level.noting depth).Costs := by
  induction depth with
  | zero => exact ⟨fun _ _ => .exhausted, fun _ => .exhausted⟩
  | succ depth ih =>
    refine ⟨fun context r => ?_, fun r => ?_⟩
    · have hnote := potential_note r
      exact (costs_expression ih context (r.report .note)).of_le (by omega)
    · have hnote := potential_note r
      exact (costs_statement ih (r.report .note)).of_le (by omega)

/-! ## The end -/

/-- **Parsing ends.** A text of `n` characters is read with nested readings no deeper than `depthFor n`
and in at most `4 * n + 3` steps. A larger bound and more end-of-input tokens behind the last token,
of which every move behind it takes one, change neither the result nor this number. Every round of a
loop and every nested reading is a step or takes one. -/
theorem parse_ends (text : String) (deeper more : Nat) :
    let depth := depthFor text.length + deeper
    let start : Reading := ⟨tokenize text ++ List.replicate more .eof, []⟩
    (∃ rest, parseProgram (.ofDepth depth) start =
      .done (parse text).statements ⟨rest, (parse text).errors⟩) ∧
    ∃ rest, parseProgram (.noting depth) start = .done (parse text).statements rest ∧
      rest.errors.filter (· ≠ .note) = (parse text).errors ∧
      start.tokens.length + rest.errors.count .note ≤ rest.tokens.length + (4 * text.length + 3) := by
  intro depth start
  have hlength := length_tokenize_le text
  have hdepth : depthFor (tokenize text).length ≤ depth := by
    show depthFor _ ≤ depthFor _ + deeper
    unfold depthFor
    omega
  refine ⟨?_, ?_⟩
  · obtain ⟨rest, hrun, herrors, -⟩ := parseProgram_padded text (ofDepth_refines hdepth) more
    refine ⟨rest.tokens, ?_⟩
    -- this level leaves no notes, as it shows when it is compared with itself
    have hspelled : ∀ t ∈ start.tokens, t.Spelled := by
      intro t ht
      rcases List.mem_append.mp ht with ht | ht
      · exact spelled_of_mem_tokenize ht
      · rw [List.eq_of_mem_replicate ht]
        exact fun hsign => Bool.noConfusion hsign
    have hself := refines_program (ofDepth_refines (Nat.le_refl depth))
      (⟨⟨0, (List.append_nil _).symm⟩, rfl, hspelled⟩ : start.Padded start)
    rw [hrun] at hself ⊢
    cases hself with
    | done _ hrest => rw [← herrors, hrest.errors]
  · obtain ⟨rest, hrun, herrors, -⟩ := parseProgram_padded text (noting_refines hdepth) more
    refine ⟨rest, hrun, herrors, ?_⟩
    have hcosts : (parseProgram (.noting depth) start).Costs 3 start fun _ => True :=
      .rounds fun n => costs_statements (noting_costs depth) (by decide) n start
    rw [hrun] at hcosts
    cases hcosts with
    | done spent =>
      have hproper : proper start.tokens ≤ text.length := by
        rw [proper_append_eof]
        exact Nat.le_trans (proper_le _) hlength
      have hzero : start.errors.count .note = 0 := rfl
      unfold potential at spent
      omega

end Monkey
