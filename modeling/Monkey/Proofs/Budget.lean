import Monkey.Proofs.ParserSound
import Monkey.Proofs.Parts

/-!
# The budget of the parser

The bounds on nesting and on loops decide whether the parser gets to the end, but not what it reads:
if it ends within some bounds, it ends in the same way within larger ones (`ofDepth_refines`). The
same holds with more end-of-input tokens behind the last token, and if every nested reading leaves a
note among the errors when it begins (`noting_refines`); the notes count the nested readings.

In the same pass over the productions, what is read is seen to be complete: each part that a node
must have is there and stands for what it should (`Node.intact`).
-/

namespace Monkey

open Parse Reading

/-! ## Complete trees -/

namespace Node

/-- Whether a node is a statement. -/
def isStatement : Node → Bool
  | letBinding .. | constBinding .. | assignment .. | returning .. | loop .. | statement .. => true
  | _ => false

/-- Whether a node is a block. -/
def isBlock : Node → Bool
  | block .. => true
  | _ => false

/-- Whether a node is there and each of its parts is what it should be: a statement, a block or an
expression. Only an `else` may be left out. The operators are those of the language. -/
def intact : Node → Bool
  | missing => false
  | program statements | block _ statements => statements.all isStatement
  | letBinding _ _ e | constBinding _ _ e | assignment _ _ e | returning _ e | statement _ e =>
    e.isExpression
  | loop _ condition body | ifThen _ condition body => condition.isExpression && body.isBlock
  | ifElse _ condition consequence alternative =>
    condition.isExpression && consequence.isBlock && alternative.isBlock
  | prefixOp _ operator right => ["!", "-"].contains operator && right.isExpression
  | infixOp _ operator left right =>
    ["+", "-", "*", "/", "%", "<", ">", "==", "!="].contains operator &&
      left.isExpression && right.isExpression
  | function _ _ body => body.isBlock
  | call _ callee arguments => callee.isExpression && arguments.all isExpression
  | array _ elements => elements.all isExpression
  | index _ left position => left.isExpression && position.isExpression
  | dictionary _ pairs => pairs.all fun pair => pair.1.isExpression && pair.2.isExpression
  | identifier _ | integer .. | float .. | boolean .. | string .. => true

/-- A tree of the given sort in which every node is intact. -/
structure Complete (sort : Node → Bool) (node : Node) : Prop where
  sort : sort node
  all : node.all intact

/-- A tree is complete if its node is intact and its parts are complete. -/
theorem Complete.of_parts {sort : Node → Bool} {node : Node} (hsort : sort node)
    (hintact : node.intact) (hparts : ∀ part ∈ node.parts, part.all intact) :
    node.Complete sort :=
  ⟨hsort, all_iff.mpr ⟨hintact, hparts⟩⟩

theorem all_sort {sort : Node → Bool} {nodes : List Node} (h : ∀ node ∈ nodes, node.Complete sort) :
    nodes.all sort :=
  List.all_eq_true.mpr fun node hnode => (h node hnode).sort

end Node

open Node

/-! ## Readings with more behind them -/

/-- An error that no production records: nothing is said to be expected where the input ends. -/
def SyntaxError.note : SyntaxError := .unexpected .eof .eof

namespace Reading

/-- `r'` is the reading `r` with more end-of-input tokens behind it and with notes among its errors.
-/
structure Padded (r r' : Reading) : Prop where
  tokens : ∃ more, r'.tokens = r.tokens ++ List.replicate more .eof
  errors : r'.errors.filter (· ≠ .note) = r.errors
  spelled : ∀ t ∈ r.tokens, t.Spelled

namespace Padded

variable {r r' : Reading}

/-- Behind the last token comes the end of the input, with or without a token for it. -/
theorem headD_append_eof (ts : List Token) (more : Nat) :
    (ts ++ List.replicate more Token.eof).headD .eof = ts.headD .eof := by
  cases ts with
  | cons => rfl
  | nil => cases more <;> rfl

theorem tail_append_eof (ts : List Token) (more : Nat) :
    ∃ more', (ts ++ List.replicate more Token.eof).tail = ts.tail ++ List.replicate more' .eof := by
  cases ts with
  | cons => exact ⟨more, rfl⟩
  | nil => exact ⟨more - 1, List.tail_replicate ..⟩

/-- The current token is the same. -/
theorem current (h : r.Padded r') : r'.current = r.current := by
  obtain ⟨more, htokens⟩ := h.tokens
  rw [Reading.current, htokens]
  exact headD_append_eof ..

/-- Both readings go on to the same token. -/
theorem advance (h : r.Padded r') : r.advance.Padded r'.advance := by
  obtain ⟨more, htokens⟩ := h.tokens
  refine ⟨?_, h.errors, fun t ht => h.spelled t (List.mem_of_mem_tail ht)⟩
  rw [Reading.advance, htokens]
  exact tail_append_eof ..

/-- The next token is the same. -/
theorem peek (h : r.Padded r') : r'.peek = r.peek := h.advance.current

/-- Both readings record an error. -/
theorem report (h : r.Padded r') {e : SyntaxError} (he : e ≠ .note) :
    (r.report e).Padded (r'.report e) := by
  refine ⟨h.tokens, ?_, h.spelled⟩
  simp [Reading.report, ← h.errors, he]

/-- A note makes no difference. -/
theorem note (h : r.Padded r') : r.Padded (r'.report .note) := by
  refine ⟨h.tokens, ?_, h.spelled⟩
  simp [Reading.report, ← h.errors]

/-- A loop is given at least as many rounds. -/
theorem length_le (h : r.Padded r') : r.tokens.length ≤ r'.tokens.length := by
  obtain ⟨more, htokens⟩ := h.tokens
  simp [htokens]

/-- The end of the input is spelled by nothing, any other token is one of the tokens. -/
theorem spelled_current (h : r.Padded r') : r.current.Spelled := by
  cases htokens : r.tokens with
  | nil =>
    rw [Reading.current, htokens]
    exact fun hsign => Bool.noConfusion hsign
  | cons t ts =>
    rw [Reading.current, htokens]
    exact h.spelled t (by simp [htokens])

end Padded

end Reading

/-! ## Steps with larger bounds -/

/-- Unless a bound stopped the first step, both steps produced the same, of which `post` holds, or
both refused. -/
inductive Outcome.Refines (post : α → Prop) : Outcome α → Outcome α → Prop where
  | done (value : post a) (rest : s.Padded s') : Refines post (.done a s) (.done a s')
  | refused (rest : s.Padded s') : Refines post (.refused s) (.refused s')
  | exhausted : Refines post .exhausted o

namespace Outcome.Refines

variable {r r' : Reading} {P : α → Prop} {Q : β → Prop}

/-- If both parts of a step refine their counterparts, so does the step. -/
theorem bind {p p' : Parse α} {f f' : α → Parse β} (hp : (p r).Refines P (p' r'))
    (hf : ∀ a s s', P a → s.Padded s' → (f a s).Refines Q (f' a s')) :
    ((p >>= f) r).Refines Q ((p' >>= f') r') := by
  show (Parse.bind p f r).Refines Q (Parse.bind p' f' r')
  unfold Parse.bind
  generalize p r = o at hp ⊢
  generalize p' r' = o' at hp ⊢
  cases hp with
  | done value rest => exact hf _ _ _ value rest
  | refused rest => exact .refused rest
  | exhausted => exact .exhausted

theorem pure {a : α} (ha : P a) (h : r.Padded r') :
    ((Pure.pure a : Parse α) r).Refines P ((Pure.pure a : Parse α) r') := .done ha h

theorem current {f f' : Token → Parse β} (h : r.Padded r')
    (hf : (f r.current r).Refines Q (f' r.current r')) :
    ((Parse.current >>= f) r).Refines Q ((Parse.current >>= f') r') := by
  show (f r.current r).Refines Q (f' r'.current r')
  rwa [h.current]

/-- A step that looks at a name sees the same name. -/
theorem currentName {f f' : Name → Parse β} (h : r.Padded r')
    (hf : ∀ name, (f name r).Refines Q (f' name r')) :
    ((Parse.currentName >>= f) r).Refines Q ((Parse.currentName >>= f') r') := by
  show (f ⟨r.current, _⟩ r).Refines Q (f' ⟨r'.current, r'.current.literal⟩ r')
  rw [h.current]
  exact hf _

theorem peek {f f' : Token → Parse β} (h : r.Padded r')
    (hf : (f r.peek r).Refines Q (f' r.peek r')) :
    ((Parse.peek >>= f) r).Refines Q ((Parse.peek >>= f') r') := by
  show (f r.peek r).Refines Q (f' r'.peek r')
  rwa [h.peek]

theorem advance {f f' : Unit → Parse β} (h : r.Padded r')
    (hf : r.advance.Padded r'.advance → (f () r.advance).Refines Q (f' () r'.advance)) :
    ((Parse.advance >>= f) r).Refines Q ((Parse.advance >>= f') r') := hf h.advance

/-- A loop may be given more rounds. -/
theorem rounds {f f' : Nat → Parse β} (h : r.Padded r')
    (hf : ∀ n n', n ≤ n' → (f n r).Refines Q (f' n' r')) :
    ((Parse.rounds >>= f) r).Refines Q ((Parse.rounds >>= f') r') :=
  hf _ _ (Nat.succ_le_succ h.length_le)

/-- A refusal with an error. -/
theorem reportRefuse {e : SyntaxError} (h : r.Padded r') (he : e ≠ .note) :
    ((do report e; refuse : Parse α) r).Refines P ((do report e; refuse : Parse α) r') :=
  .refused (h.report he)

theorem ite {c : Prop} [Decidable c] {p q p' q' : Parse α}
    (hthen : c → (p r).Refines P (p' r')) (helse : ¬c → (q r).Refines P (q' r')) :
    ((if c then p else q) r).Refines P ((if c then p' else q') r') := by
  split
  · exact hthen ‹_›
  · exact helse ‹_›

/-- The end of the input is never expected, so no error that is recorded is a note. -/
theorem expect {kind : TokenKind} (h : r.Padded r') (hkind : kind ≠ .eof) :
    (Parse.expect kind r).Refines (fun _ => True) (Parse.expect kind r') :=
  .peek h <| .ite (fun _ => .done trivial h.advance) fun _ =>
    .reportRefuse h fun he => hkind (SyntaxError.unexpected.inj he).1

theorem skipSemicolon (h : r.Padded r') :
    (Parse.skipSemicolon r).Refines (fun _ => True) (Parse.skipSemicolon r') :=
  .peek h <| .ite (fun _ => .done trivial h.advance) fun _ => .done trivial h

/-- Both readings see whether an expression is extended. -/
theorem extends? {context : Precedence} {f f' : Bool → Parse β} (h : r.Padded r')
    (htight : Binds context r.peek.kind → (f true r).Refines Q (f' true r'))
    (hloose : (f false r).Refines Q (f' false r')) :
    ((Monkey.extends? context >>= f) r).Refines Q ((Monkey.extends? context >>= f') r') := by
  show (f (decide (r.peek.kind ≠ .semicolon ∧ context.rank < (Precedence.ofKind r.peek.kind).rank))
    r).Refines Q (f' (decide (r'.peek.kind ≠ .semicolon ∧
      context.rank < (Precedence.ofKind r'.peek.kind).rank)) r')
  rw [h.peek]
  by_cases hbinds : r.peek.kind ≠ .semicolon ∧ context.rank < (Precedence.ofKind r.peek.kind).rank
  · rw [decide_eq_true hbinds]
    exact htight hbinds.2
  · rw [decide_eq_false hbinds]
    exact hloose

/-- A refusal is passed on as nothing read. -/
theorem attempt {p p' : Parse α} (h : (p r).Refines P (p' r')) :
    (Parse.attempt p r).Refines (fun a? => ∀ a ∈ a?, P a) (Parse.attempt p' r') := by
  unfold Parse.attempt
  generalize p r = o at h ⊢
  generalize p' r' = o' at h ⊢
  cases h with
  | done value rest => exact .done (by simpa using value) rest
  | refused rest => exact .done (by simp) rest
  | exhausted => exact .exhausted

theorem ofOption {a? : Option α} (ha : ∀ a ∈ a?, P a) (h : r.Padded r') :
    (Parse.ofOption a? r).Refines P (Parse.ofOption a? r') := by
  cases a? with
  | none => exact .refused h
  | some a => exact .done (ha a rfl) h

end Outcome.Refines

/-- The readings of the first level are those of the second one, within smaller bounds. -/
structure Level.Refines (level level' : Level) : Prop where
  expression : ∀ context {r r' : Reading}, r.Padded r' →
    (level.expression context r).Refines (Complete isExpression) (level'.expression context r')
  statement : ∀ {r r' : Reading}, r.Padded r' →
    (level.statement r).Refines (Complete isStatement) (level'.statement r')

/-! ## Productions -/

section Productions

variable {level level' : Level} {r r' : Reading}

/-- A number is read alike: it depends on three tokens. -/
theorem refines_number (h : r.Padded r') :
    (parseNumber r).Refines (Complete isExpression) (parseNumber r') := by
  refine .current h ?_
  dsimp only
  cases Numeral.readInt? r.current.literal with
  | none => exact .reportRefuse h SyntaxError.noConfusion
  | some whole =>
    refine .peek h <| .ite (fun _ => ?_) fun _ => .pure (.of_parts rfl rfl (List.forall_mem_nil _)) h
    refine .advance h fun h => .advance h fun h => .current h ?_
    cases Numeral.readBinary64? _ with
    | none => exact .reportRefuse h SyntaxError.noConfusion
    | some x => exact .pure (.of_parts rfl rfl (List.forall_mem_nil _)) h

/-- By induction on the smaller number of rounds. -/
theorem refines_moreExpressions (hlevel : level.Refines level') {bound bound' : Nat}
    (hbound : bound ≤ bound') (h : r.Padded r') :
    (parseMoreExpressions level bound r).Refines (∀ e ∈ ·, e.Complete isExpression)
      (parseMoreExpressions level' bound' r') := by
  induction bound generalizing bound' r r' with
  | zero => exact .exhausted
  | succ bound ih =>
    obtain ⟨bound', rfl⟩ : ∃ n, bound' = n + 1 := ⟨bound' - 1, by omega⟩
    refine .peek h <| .ite (fun _ => ?_) fun _ => .pure (List.forall_mem_nil _) h
    refine .advance h fun h => .advance h fun h => ?_
    refine (hlevel.expression .lowest h).bind fun first s s' hfirst h => ?_
    refine (ih (by omega) h).bind fun more s s' hmore h => .pure ?_ h
    exact List.forall_mem_cons.mpr ⟨hfirst, hmore⟩

/-- The closing token is expected, so it is not the end of the input. -/
theorem refines_expressions (hlevel : level.Refines level') {closing : TokenKind}
    (hclosing : closing ≠ .eof) (h : r.Padded r') :
    (parseExpressions level closing r).Refines (∀ e ∈ ·, e.Complete isExpression)
      (parseExpressions level' closing r') := by
  refine .peek h <| .ite (fun _ => ?_) fun _ => ?_
  · exact .advance h fun h => .pure (List.forall_mem_nil _) h
  · refine .advance h fun h => ?_
    refine (hlevel.expression .lowest h).bind fun first s s' hfirst h => ?_
    refine .rounds h fun n n' hn => ?_
    refine (refines_moreExpressions hlevel hn h).bind fun more s s' hmore h => ?_
    refine (Outcome.Refines.expect h hclosing).bind fun _ s s' _ h => .pure ?_ h
    exact List.forall_mem_cons.mpr ⟨hfirst, hmore⟩

theorem refines_moreParameters {bound bound' : Nat} (hbound : bound ≤ bound')
    (h : r.Padded r') :
    (parseMoreParameters bound r).Refines (fun _ => True) (parseMoreParameters bound' r') := by
  induction bound generalizing bound' r r' with
  | zero => exact .exhausted
  | succ bound ih =>
    obtain ⟨bound', rfl⟩ : ∃ n, bound' = n + 1 := ⟨bound' - 1, by omega⟩
    refine .peek h <| .ite (fun _ => ?_) fun _ => .pure trivial h
    refine .advance h fun h => .advance h fun h => .currentName h fun first => ?_
    exact (ih (by omega) h).bind fun more s s' _ h => .pure trivial h

theorem refines_parameters (h : r.Padded r') :
    (parseParameters r).Refines (fun _ => True) (parseParameters r') := by
  refine .peek h <| .ite (fun _ => ?_) fun _ => ?_
  · exact .advance h fun h => .pure trivial h
  · refine .advance h fun h => .currentName h fun first => .rounds h fun n n' hn => ?_
    refine (refines_moreParameters hn h).bind fun more s s' _ h => ?_
    exact (Outcome.Refines.expect h TokenKind.noConfusion).bind fun _ s s' _ h => .pure trivial h

/-- By induction on the smaller number of rounds; a key or a value that is read is complete. -/
theorem refines_pairs (hlevel : level.Refines level') {bound bound' : Nat}
    (hbound : bound ≤ bound') (h : r.Padded r') :
    (parsePairs level bound r).Refines
      (∀ pair ∈ ·, pair.1.Complete isExpression ∧ pair.2.Complete isExpression)
      (parsePairs level' bound' r') := by
  induction bound generalizing bound' r r' with
  | zero => exact .exhausted
  | succ bound ih =>
    obtain ⟨bound', rfl⟩ : ∃ n, bound' = n + 1 := ⟨bound' - 1, by omega⟩
    refine .peek h <| .ite (fun _ => .pure (List.forall_mem_nil _) h) fun _ => ?_
    refine .advance h fun h => ?_
    refine (hlevel.expression .lowest h).attempt.bind fun key? s s' hkey? h => ?_
    refine (Outcome.Refines.expect h TokenKind.noConfusion).bind fun _ s s' _ h =>
      .advance h fun h => ?_
    refine (hlevel.expression .lowest h).attempt.bind fun value? s s' hvalue? h => ?_
    refine (Outcome.Refines.ofOption hkey? h).bind fun key s s' hkey h => ?_
    refine (Outcome.Refines.ofOption hvalue? h).bind fun value s s' hvalue h => .peek h ?_
    have hmore {s s' : Reading} (h : s.Padded s') :
        ((do
          let more ← parsePairs level bound
          return (key, value) :: more : Parse _) s).Refines
          (∀ pair ∈ ·, pair.1.Complete isExpression ∧ pair.2.Complete isExpression)
          ((do
            let more ← parsePairs level' bound'
            return (key, value) :: more : Parse _) s') :=
      (ih (by omega) h).bind fun more s s' hmore h =>
        .pure (List.forall_mem_cons.mpr ⟨⟨hkey, hvalue⟩, hmore⟩) h
    refine .ite (fun _ => ?_) fun _ => hmore h
    exact (Outcome.Refines.expect h TokenKind.noConfusion).bind fun _ s s' _ h => hmore h

/-- Statements that are refused are left out. -/
theorem refines_statements (hlevel : level.Refines level') (stop : TokenKind → Bool)
    {bound bound' : Nat} (hbound : bound ≤ bound') (h : r.Padded r') :
    (parseStatements level stop bound r).Refines (∀ s ∈ ·, s.Complete isStatement)
      (parseStatements level' stop bound' r') := by
  induction bound generalizing bound' r r' with
  | zero => exact .exhausted
  | succ bound ih =>
    obtain ⟨bound', rfl⟩ : ∃ n, bound' = n + 1 := ⟨bound' - 1, by omega⟩
    refine .current h <| .ite (fun _ => .pure (List.forall_mem_nil _) h) fun _ => ?_
    refine (hlevel.statement h).attempt.bind fun first? s s' hfirst h => .advance h fun h => ?_
    refine (ih (by omega) h).bind fun more s s' hmore h => .pure ?_ h
    intro s hs
    rcases List.mem_append.mp hs with hs | hs
    · exact hfirst s (Option.mem_toList.mp hs)
    · exact hmore s hs

/-- What is read between braces are complete statements. -/
theorem refines_block (hlevel : level.Refines level') (h : r.Padded r') :
    (parseBlock level r).Refines (Complete isBlock) (parseBlock level' r') := by
  refine .current h <| .advance h fun h => .rounds h fun n n' hn => ?_
  refine (refines_statements hlevel _ hn h).bind fun statements s s' hall h => .pure ?_ h
  exact .of_parts rfl (all_sort hall) fun part hpart => (hall part hpart).all

/-- The token is spelled, so that the operator is one of the language. -/
theorem refines_prefixOp (hlevel : level.Refines level') (h : r.Padded r')
    (hr : r.current.kind.isPrefixOperator) :
    (parsePrefix level r).Refines (Complete isExpression) (parsePrefix level' r') := by
  have hoperator : r.current.literal = "!" ∨ r.current.literal = "-" := by
    rcases TokenKind.isPrefixOperator_iff.mp hr with hk | hk
    · exact .inl (by rw [h.spelled_current (by rw [hk]; rfl), hk]; rfl)
    · exact .inr (by rw [h.spelled_current (by rw [hk]; rfl), hk]; rfl)
  refine .current h <| .advance h fun h => ?_
  refine (hlevel.expression .prefixed h).bind fun right s s' hright h => .pure ?_ h
  refine .of_parts rfl ?_ (by simpa [parts] using hright.all)
  simpa [intact, hright.sort] using hoperator

/-- A group is the expression in it. -/
theorem refines_group (hlevel : level.Refines level') (h : r.Padded r') :
    (parseGroup level r).Refines (Complete isExpression) (parseGroup level' r') := by
  refine .advance h fun h => ?_
  refine (hlevel.expression .lowest h).attempt.bind fun content? s s' hcontent h => ?_
  exact (Outcome.Refines.expect h TokenKind.noConfusion).bind fun _ s s' _ h => .ofOption hcontent h

theorem refines_condition (hlevel : level.Refines level') (h : r.Padded r') :
    (parseCondition level r).Refines (Complete isExpression) (parseCondition level' r') := by
  refine (Outcome.Refines.expect h TokenKind.noConfusion).bind fun _ s s' _ h =>
    .advance h fun h => ?_
  refine (hlevel.expression .lowest h).bind fun condition s s' hcondition h => ?_
  refine (Outcome.Refines.expect h TokenKind.noConfusion).bind fun _ s s' _ h => ?_
  exact (Outcome.Refines.expect h TokenKind.noConfusion).bind fun _ s s' _ h => .pure hcondition h

/-- Only an `else` may be missing. -/
theorem refines_if (hlevel : level.Refines level') (h : r.Padded r') :
    (parseIf level r).Refines (Complete isExpression) (parseIf level' r') := by
  refine .current h ?_
  refine (refines_condition hlevel h).bind fun condition s s' hcondition h => ?_
  refine (refines_block hlevel h).bind fun consequence s s' hconsequence h => ?_
  refine .peek h <| .ite (fun _ => .advance h fun h => ?_) fun _ => .pure ?_ h
  · refine (Outcome.Refines.expect h TokenKind.noConfusion).bind fun _ s s' _ h => ?_
    refine (refines_block hlevel h).bind fun alternative s s' halternative h => .pure ?_ h
    refine .of_parts rfl ?_ ?_
    · simp [intact, hcondition.sort, hconsequence.sort, halternative.sort]
    · simp [parts, hcondition.all, hconsequence.all, halternative.all]
  · refine .of_parts rfl ?_ ?_
    · simp [intact, hcondition.sort, hconsequence.sort]
    · simp [parts, hcondition.all, hconsequence.all]

theorem refines_function (hlevel : level.Refines level') (h : r.Padded r') :
    (parseFunction level r).Refines (Complete isExpression) (parseFunction level' r') := by
  refine .current h ?_
  refine (Outcome.Refines.expect h TokenKind.noConfusion).bind fun _ s s' _ h => ?_
  refine (refines_parameters h).bind fun parameters s s' _ h => ?_
  refine (Outcome.Refines.expect h TokenKind.noConfusion).bind fun _ s s' _ h => ?_
  refine (refines_block hlevel h).bind fun body s s' hbody h => .pure ?_ h
  exact .of_parts rfl hbody.sort (by simpa [parts] using hbody.all)

theorem refines_array (hlevel : level.Refines level') (h : r.Padded r') :
    (parseArray level r).Refines (Complete isExpression) (parseArray level' r') := by
  refine .current h ?_
  refine (refines_expressions hlevel TokenKind.noConfusion h).bind fun elements s s' hall h =>
    .pure ?_ h
  exact .of_parts rfl (all_sort hall) fun part hpart => (hall part hpart).all

theorem refines_dictionary (hlevel : level.Refines level') (h : r.Padded r') :
    (parseDictionary level r).Refines (Complete isExpression) (parseDictionary level' r') := by
  refine .current h <| .rounds h fun n n' hn => ?_
  refine (refines_pairs hlevel hn h).bind fun pairs s s' hall h => ?_
  refine (Outcome.Refines.expect h TokenKind.noConfusion).bind fun _ s s' _ h => .pure ?_ h
  refine .of_parts rfl ?_ ?_
  · refine List.all_eq_true.mpr fun pair hpair => ?_
    simp [(hall pair hpair).1.sort, (hall pair hpair).2.sort]
  · intro part hpart
    rcases List.mem_append.mp hpart with hpart | hpart
    · obtain ⟨pair, hpair, rfl⟩ := List.mem_map.mp hpart
      exact (hall pair hpair).1.all
    · obtain ⟨pair, hpair, rfl⟩ := List.mem_map.mp hpart
      exact (hall pair hpair).2.all

/-- The operator is one of the language, and the left operand has been read before. -/
theorem refines_infixOp (hlevel : level.Refines level') (h : r.Padded r')
    (hr : r.current.kind.isInfixOperator) {left : Node} (hleft : left.Complete isExpression) :
    (parseInfix level left r).Refines (Complete isExpression) (parseInfix level' left r') := by
  have hoperator : ["+", "-", "*", "/", "%", "<", ">", "==", "!="].contains r.current.literal := by
    cases hk : r.current.kind
    all_goals first
      | (rw [h.spelled_current (by rw [hk]; rfl), hk]; decide)
      | exact absurd (hk ▸ hr) (by decide)
  refine .current h <| .advance h fun h => ?_
  refine (hlevel.expression _ h).bind fun right s s' hright h => .pure ?_ h
  refine .of_parts rfl ?_ (by simp [parts, hleft.all, hright.all])
  simp only [intact, hoperator, hleft.sort, hright.sort, Bool.and_self]

theorem refines_call (hlevel : level.Refines level') (h : r.Padded r') {callee : Node}
    (hcallee : callee.Complete isExpression) :
    (parseCall level callee r).Refines (Complete isExpression) (parseCall level' callee r') := by
  refine .current h ?_
  refine (refines_expressions hlevel TokenKind.noConfusion h).bind fun arguments s s' hall h =>
    .pure ?_ h
  refine .of_parts rfl (Bool.and_eq_true_iff.mpr ⟨hcallee.sort, all_sort hall⟩) ?_
  exact List.forall_mem_cons.mpr ⟨hcallee.all, fun part hpart => (hall part hpart).all⟩

theorem refines_index (hlevel : level.Refines level') (h : r.Padded r') {left : Node}
    (hleft : left.Complete isExpression) :
    (parseIndex level left r).Refines (Complete isExpression) (parseIndex level' left r') := by
  refine .current h <| .advance h fun h => ?_
  refine (hlevel.expression .lowest h).bind fun position s s' hposition h => ?_
  refine (Outcome.Refines.expect h TokenKind.noConfusion).bind fun _ s s' _ h => .pure ?_ h
  refine .of_parts rfl ?_ (by simp [parts, hleft.all, hposition.all])
  simp [intact, hleft.sort, hposition.sort]

/-- One operator, call or index, by the token that it begins with. -/
theorem refines_extension (hlevel : level.Refines level') (h : r.Padded r')
    (hr : r.current.kind = .lparen ∨ r.current.kind = .lbracket ∨ r.current.kind.isInfixOperator)
    {left : Node} (hleft : left.Complete isExpression) :
    (parseExtension level left r).Refines (Complete isExpression) (parseExtension level' left r') := by
  have hoperator (hparen : r.current.kind ≠ .lparen) (hbracket : r.current.kind ≠ .lbracket) :=
    (hr.resolve_left hparen).resolve_left hbracket
  refine .current h ?_
  cases hk : r.current.kind
  case lparen => exact refines_call hlevel h hleft
  case lbracket => exact refines_index hlevel h hleft
  all_goals exact refines_infixOp hlevel h (hoperator (by simp [hk]) (by simp [hk])) hleft

/-- By induction on the smaller number of rounds; nothing is read where there is nothing to extend.
-/
theorem refines_extensions (hlevel : level.Refines level') (context : Precedence)
    {bound bound' : Nat} (hbound : bound ≤ bound') (h : r.Padded r') {left? : Option Node}
    (hleft : ∀ left ∈ left?, left.Complete isExpression) :
    (parseExtensions level context bound left? r).Refines (Complete isExpression)
      (parseExtensions level' context bound' left? r') := by
  induction bound generalizing bound' r r' left? with
  | zero => exact .exhausted
  | succ bound ih =>
    obtain ⟨bound', rfl⟩ : ∃ n, bound' = n + 1 := ⟨bound' - 1, by omega⟩
    refine .extends? h (fun htight => ?_) (.ofOption hleft h)
    refine .advance h fun h => ?_
    cases left? with
    | none => exact .refused h
    | some left =>
      have hextension := refines_extension hlevel h htight.kind (hleft left rfl)
      exact hextension.attempt.bind fun extended? s s' hextended h => ih (by omega) h hextended

/-- The first part and what extends it. -/
theorem refines_expression (hlevel : level.Refines level') (context : Precedence)
    (h : r.Padded r') :
    (parseExpression level context r).Refines (Complete isExpression)
      (parseExpression level' context r') := by
  have hextended {first first' : Parse Node}
      (hfirst : (first r).Refines (Complete isExpression) (first' r')) :
      ((do
        let first? ← attempt first
        parseExtensions level context (← rounds) first? : Parse Node) r).Refines
        (Complete isExpression)
        ((do
          let first? ← attempt first'
          parseExtensions level' context (← rounds) first? : Parse Node) r') :=
    hfirst.attempt.bind fun first? s s' hfirst h =>
      .rounds h fun n n' hn => refines_extensions hlevel context hn h hfirst
  have hleaf {node : Node} (hsort : node.isExpression) (hintact : node.intact)
      (hparts : node.parts = []) : node.Complete isExpression :=
    .of_parts hsort hintact (by simp [hparts])
  refine .current h ?_
  cases hk : r.current.kind
  case ident => exact hextended <| .currentName h fun name => .pure (hleaf rfl rfl rfl) h
  case int => exact hextended (refines_number h)
  case bang | minus => exact hextended (refines_prefixOp hlevel h (by simp [hk]; rfl))
  case trueWord | falseWord => exact hextended <| .current h <| .pure (hleaf rfl rfl rfl) h
  case string => exact hextended <| .current h <| .pure (hleaf rfl rfl rfl) h
  case lparen => exact hextended (refines_group hlevel h)
  case ifWord => exact hextended (refines_if hlevel h)
  case function => exact hextended (refines_function hlevel h)
  case lbracket => exact hextended (refines_array hlevel h)
  case lbrace => exact hextended (refines_dictionary hlevel h)
  all_goals exact .reportRefuse h SyntaxError.noConfusion

/-- The name, the equality sign and the value of a binding make a statement. -/
theorem refines_binding (hlevel : level.Refines level') (h : r.Padded r')
    {node : Name → Node → Node} (hsort : ∀ name e, (node name e).isStatement)
    (hintact : ∀ name e, (node name e).intact = e.isExpression)
    (hparts : ∀ name e, (node name e).parts = [e]) :
    (parseBinding level node r).Refines (Complete isStatement) (parseBinding level' node r') := by
  refine .currentName h fun name => ?_
  refine (Outcome.Refines.expect h TokenKind.noConfusion).bind fun _ s s' _ h =>
    .advance h fun h => ?_
  refine (hlevel.expression .lowest h).bind fun value s s' hvalue h => ?_
  refine (Outcome.Refines.skipSemicolon h).bind fun _ s s' _ h => .pure ?_ h
  refine .of_parts (hsort name value) (by rw [hintact]; exact hvalue.sort) ?_
  simpa [hparts] using hvalue.all

theorem refines_let (hlevel : level.Refines level') (h : r.Padded r') :
    (parseLet level r).Refines (Complete isStatement) (parseLet level' r') := by
  refine .current h ?_
  refine (Outcome.Refines.expect h TokenKind.noConfusion).bind fun _ s s' _ h => ?_
  exact refines_binding hlevel h (fun _ _ => rfl) (fun _ _ => rfl) fun _ _ => rfl

theorem refines_const (hlevel : level.Refines level') (h : r.Padded r') :
    (parseConst level r).Refines (Complete isStatement) (parseConst level' r') := by
  refine .current h ?_
  refine (Outcome.Refines.expect h TokenKind.noConfusion).bind fun _ s s' _ h => ?_
  exact refines_binding hlevel h (fun _ _ => rfl) (fun _ _ => rfl) fun _ _ => rfl

/-- An assignment is a binding that no word announces. -/
theorem refines_assignment (hlevel : level.Refines level') (h : r.Padded r') :
    (parseAssignment level r).Refines (Complete isStatement) (parseAssignment level' r') :=
  refines_binding hlevel h (fun _ _ => rfl) (fun _ _ => rfl) fun _ _ => rfl

theorem refines_return (hlevel : level.Refines level') (h : r.Padded r') :
    (parseReturn level r).Refines (Complete isStatement) (parseReturn level' r') := by
  refine .current h <| .advance h fun h => ?_
  refine (hlevel.expression .lowest h).bind fun value s s' hvalue h => ?_
  refine (Outcome.Refines.skipSemicolon h).bind fun _ s s' _ h => .pure ?_ h
  exact .of_parts rfl hvalue.sort (by simpa [parts] using hvalue.all)

/-- A loop is a condition and a block. -/
theorem refines_while (hlevel : level.Refines level') (h : r.Padded r') :
    (parseWhile level r).Refines (Complete isStatement) (parseWhile level' r') := by
  refine .current h ?_
  refine (refines_condition hlevel h).bind fun condition s s' hcondition h => ?_
  refine (refines_block hlevel h).bind fun body s s' hbody h => .pure ?_ h
  refine .of_parts rfl ?_ (by simp [parts, hcondition.all, hbody.all])
  simp [intact, hcondition.sort, hbody.sort]

theorem refines_expressionStatement (hlevel : level.Refines level') (h : r.Padded r') :
    (parseExpressionStatement level r).Refines (Complete isStatement)
      (parseExpressionStatement level' r') := by
  refine .current h ?_
  refine (hlevel.expression .lowest h).bind fun value s s' hvalue h => ?_
  refine (Outcome.Refines.skipSemicolon h).bind fun _ s s' _ h => .pure ?_ h
  exact .of_parts rfl hvalue.sort (by simpa [parts] using hvalue.all)

/-- The word in front decides which statement is read; a name is looked at with the token behind it.
-/
theorem refines_statement (hlevel : level.Refines level') (h : r.Padded r') :
    (parseStatement level r).Refines (Complete isStatement) (parseStatement level' r') := by
  refine .current h ?_
  cases hk : r.current.kind
  case letWord => exact refines_let hlevel h
  case returnWord => exact refines_return hlevel h
  case constWord => exact refines_const hlevel h
  case whileWord => exact refines_while hlevel h
  case ident =>
    exact .peek h <| .ite (fun _ => refines_assignment hlevel h) fun _ =>
      refines_expressionStatement hlevel h
  all_goals exact refines_expressionStatement hlevel h

/-- A program is read like the statements of a block. -/
theorem refines_program (hlevel : level.Refines level') (h : r.Padded r') :
    (parseProgram level r).Refines (∀ s ∈ ·, s.Complete isStatement) (parseProgram level' r') :=
  .rounds h fun _ _ hn => refines_statements hlevel _ hn h

end Productions

/-! ## Levels -/

/-- With no depth left nothing is read, so there is nothing to compare. -/
theorem Level.Refines.zero (level : Level) : (ofDepth 0).Refines level :=
  ⟨fun _ _ _ _ => .exhausted, fun _ => .exhausted⟩

/-- **A larger bound changes nothing** in what a smaller one sufficed for. -/
theorem ofDepth_refines {depth depth' : Nat} (hdepth : depth ≤ depth') :
    (Level.ofDepth depth).Refines (.ofDepth depth') := by
  induction depth generalizing depth' with
  | zero => exact .zero _
  | succ depth ih =>
    obtain ⟨depth', rfl⟩ : ∃ n, depth' = n + 1 := ⟨depth' - 1, by omega⟩
    have hbelow := ih (Nat.le_of_succ_le_succ hdepth)
    exact ⟨fun context _ _ h => refines_expression hbelow context h,
      fun h => refines_statement hbelow h⟩

/-- The readings of parts that are nested at most the given number of times; each of them leaves a
note when it begins. -/
def Level.noting : Nat → Level
  | 0 => ⟨fun _ => exhausted, exhausted⟩
  | depth + 1 =>
    ⟨fun context => do
      report .note
      parseExpression (noting depth) context,
    do
      report .note
      parseStatement (noting depth)⟩

/-- Notes change nothing in what is read. -/
theorem noting_refines {depth depth' : Nat} (hdepth : depth ≤ depth') :
    (Level.ofDepth depth).Refines (.noting depth') := by
  induction depth generalizing depth' with
  | zero => exact .zero _
  | succ depth ih =>
    obtain ⟨depth', rfl⟩ : ∃ n, depth' = n + 1 := ⟨depth' - 1, by omega⟩
    have hbelow := ih (Nat.le_of_succ_le_succ hdepth)
    exact ⟨fun context _ _ h => refines_expression hbelow context h.note,
      fun h => refines_statement hbelow h.note⟩

/-! ## Programs -/

/-- A step in two parts does not refuse if neither part does. -/
theorem bind_ne_refused {p : Parse α} {f : α → Parse β} {r s : Reading} (hp : ∀ t, p r ≠ .refused t)
    (hf : ∀ a t, f a t ≠ .refused s) : (p >>= f) r ≠ .refused s := by
  show Parse.bind p f r ≠ _
  unfold Parse.bind
  cases hstep : p r with
  | done a t => exact hf a t
  | refused t => exact absurd hstep (hp t)
  | exhausted => simp

/-- A refusal does not leave an attempt. -/
theorem attempt_ne_refused (p : Parse α) (r s : Reading) : attempt p r ≠ .refused s := by
  unfold attempt
  cases p r <;> simp

/-- Statements in a row are never refused. -/
theorem parseStatements_ne_refused (level : Level) (stop : TokenKind → Bool) (bound : Nat)
    (r s : Reading) : parseStatements level stop bound r ≠ .refused s := by
  induction bound generalizing r s with
  | zero => simp [parseStatements, exhausted]
  | succ bound ih =>
    show (if stop r.current.kind then _ else _ : Parse _) r ≠ _
    split
    · simp [Pure.pure, Parse.pure]
    · refine bind_ne_refused (attempt_ne_refused level.statement r) fun first? t => ?_
      refine bind_ne_refused (fun u => by simp [Parse.advance]) fun _ u => ?_
      exact bind_ne_refused (ih u) fun more v => by simp [Pure.pure, Parse.pure]

/-- A program is read the same way by every level above the one that suffices, and with any number of
end-of-input tokens behind its own. -/
theorem parseProgram_padded {level : Level} (text : String)
    (hlevel : (Level.ofDepth (depthFor (tokenize text).length)).Refines level) (more : Nat) :
    ∃ rest, parseProgram level ⟨tokenize text ++ List.replicate more .eof, []⟩ =
        .done (parse text).statements rest ∧
      rest.errors.filter (· ≠ .note) = (parse text).errors ∧
      ∀ s ∈ (parse text).statements, s.Complete isStatement := by
  have hstart : Padded ⟨tokenize text, []⟩ ⟨tokenize text ++ List.replicate more .eof, []⟩ :=
    ⟨⟨more, rfl⟩, rfl, fun t => spelled_of_mem_tokenize⟩
  have hrefines := refines_program hlevel hstart
  have hmeets := meets_program (tokenize text)
  unfold parse parseTokens
  cases houtcome : parseProgram (.ofDepth (depthFor (tokenize text).length)) ⟨tokenize text, []⟩ with
  | done statements s =>
    rw [houtcome] at hrefines
    generalize parseProgram level _ = o at hrefines ⊢
    cases hrefines with
    | done hall hrest => exact ⟨_, rfl, hrest.errors, hall⟩
  | refused s => exact absurd houtcome (parseStatements_ne_refused _ _ _ _ s)
  | exhausted =>
    rw [houtcome] at hmeets
    exact hmeets.elim

end Monkey
