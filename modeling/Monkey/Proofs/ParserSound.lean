import Monkey.Proofs.Lexing
import Monkey.Proofs.ParserParts

/-!
# What is read without an error is a derivation

Every production of the parser either reads a part of the resolved grammar, from the token it begins
at to the token it stops at, or records an error. The productions are taken one by one, over a level
whose nested readings have this property; the levels follow by induction on their depth, and with
them the whole program.
-/

namespace Monkey

open Parse Reading

variable {level : Level} {n : Nat} {r : Reading}

/-! ## Expressions -/

/-- An operator in front of an expression. -/
theorem parses_prefix (hlevel : level.ReadsExpressions n) (hn : r.tokens.length ≤ n + 1)
    (hr : r.current.kind.isPrefixOperator) : Parses .first (parsePrefix level) r := by
  have hcons := tokens_eq_cons (r := r) (by intro h; simp [h, TokenKind.isPrefixOperator] at hr)
  have hmoved : r.Precedes r.advance := (Precedes.refl r).advance
  simp only [Parses, parsePrefix, meets_bind, meets_current, meets_advance, meets_pure]
  refine (hlevel .prefixed r.advance (length_advance_le hn)).mono ?_ fun s hs => hmoved.refused hs
  intro right s hright
  refine ⟨hmoved.trans hright.precedes, fun hunbroken hclean => ?_⟩
  rw [hcons]
  exact .prefixOp hr (hright.reads (hmoved.unbroken hunbroken) hclean)

/-- An expression in parentheses. -/
theorem parses_group (hlevel : level.ReadsExpressions n) (hn : r.tokens.length ≤ n + 1)
    (hr : r.current.kind = .lparen) : Parses .first (parseGroup level) r := by
  have hcons := tokens_eq_cons (r := r) (by simp [hr])
  have hmoved : r.Precedes r.advance := (Precedes.refl r).advance
  simp only [Parses, parseGroup, meets_bind, meets_advance, meets_attempt, meets_expect,
    meets_ofOption_some, meets_ofOption_none]
  refine (hlevel .lowest r.advance (length_advance_le hn)).mono ?_ ?_
  · intro inner s hinner
    have hs : r.Precedes s := hmoved.trans hinner.precedes
    refine ⟨fun hclosing => ⟨hs.advance, fun hunbroken hclean => ?_⟩, fun _ => hs.report _⟩
    have hreads := hinner.reads (hmoved.unbroken hunbroken) hclean
    rw [behind_eq_cons (r := s) (by simp [hclosing])] at hreads
    rw [hcons]
    exact .group hr hreads hclosing
  · intro s hs
    refine ⟨fun _ => ?_, fun _ => (hmoved.trans hs.precedes).report _⟩
    exact ⟨(hmoved.trans hs.precedes).advance, hs.errors_ne⟩

/-- A condition in parentheses is read behind the current token, up to an opening brace. -/
theorem meets_condition (hlevel : level.ReadsExpressions n) (hn : r.tokens.length ≤ n + 1) :
    (parseCondition level r).Meets
      (fun c s => s.current.kind = .lbrace ∧ r.Precedes s ∧
        (Unbroken r.tokens → s.errors = [] → ∃ opening closing ts,
          opening.kind = .lparen ∧ closing.kind = .rparen ∧ r.behind = opening :: ts ∧
            Reads (.expression .lowest c) ts (closing :: s.tokens)))
      (Refused r) := by
  simp only [parseCondition, meets_bind, meets_expect, meets_advance, meets_pure]
  refine ⟨fun hopening => ?_, fun _ => (Precedes.refl r).report _⟩
  have hmoved : r.Precedes r.advance.advance := (Precedes.refl r).advance.advance
  have hlen := length_of_peek (r := r) (by simp [hopening])
  refine (hlevel .lowest r.advance.advance (by omega)).mono ?_ fun s hs => hmoved.refused hs
  intro condition s hcondition
  have hs : r.Precedes s := hmoved.trans hcondition.precedes
  refine ⟨fun hclosing => ⟨fun hbrace => ?_, fun _ => hs.advance.report _⟩, fun _ => hs.report _⟩
  refine ⟨hbrace, hs.advance.advance, fun hunbroken hclean => ?_⟩
  refine ⟨r.peek, s.peek, r.advance.behind, hopening, hclosing,
    behind_eq_cons (by simp [hopening]), ?_⟩
  have hreads := hcondition.reads (hmoved.unbroken hunbroken) hclean
  rw [behind_eq_cons (r := s) (by simp [hclosing])] at hreads
  exact hreads

theorem parses_if (hexpr : level.ReadsExpressions n) (hstmt : level.ReadsStatements n)
    (hn : r.tokens.length ≤ n + 1) (hr : r.current.kind = .ifWord) :
    Parses .first (parseIf level) r := by
  have hcons := tokens_eq_cons (r := r) (by simp [hr])
  simp only [Parses, parseIf, meets_bind, meets_current, meets_peek, meets_ite, meets_advance,
    meets_expect, meets_pure]
  refine (meets_condition hexpr hn).mono ?_ fun s hs => hs
  rintro condition s ⟨hbrace, hs, hcondition⟩
  have hsn := hs.length_le
  refine (parses_block hstmt (by omega) hbrace).mono ?_ fun t ht => hs.refused ht
  intro consequence t hconsequence
  have ht : r.Precedes t := hs.trans hconsequence.precedes
  refine ⟨fun helse => ⟨fun hbrace₂ => ?_, fun _ => ht.advance.report _⟩, fun helse => ?_⟩
  · have htn := ht.advance.advance.length_le
    refine (parses_block (r := t.advance.advance) hstmt (by omega) hbrace₂).mono ?_
      fun u hu => ht.advance.advance.refused hu
    intro alternative u halternative
    refine ⟨ht.advance.advance.trans halternative.precedes, fun hunbroken hclean => ?_⟩
    have htclean : t.errors = [] := halternative.precedes.errors hclean
    obtain ⟨opening, closing, ts, hopening, hclosing, hts, hc⟩ :=
      hcondition hunbroken (hconsequence.precedes.errors htclean)
    have hfirst := hconsequence.reads (hs.unbroken hunbroken) htclean
    rw [behind_eq_cons (r := t) (by simp [helse])] at hfirst
    rw [hcons, hts]
    exact .ifElse hr hopening hc hclosing hfirst helse
      (halternative.reads (ht.advance.advance.unbroken hunbroken) hclean)
  · refine ⟨ht, fun hunbroken hclean => ?_⟩
    obtain ⟨opening, closing, ts, hopening, hclosing, hts, hc⟩ :=
      hcondition hunbroken (hconsequence.precedes.errors hclean)
    rw [hcons, hts]
    exact .ifThen hr hopening hc hclosing (hconsequence.reads (hs.unbroken hunbroken) hclean) helse

/-- Parameters in parentheses, and a block. -/
theorem parses_function (hlevel : level.ReadsStatements n) (hn : r.tokens.length ≤ n + 1)
    (hr : r.current.kind = .function) : Parses .first (parseFunction level) r := by
  have hcons := tokens_eq_cons (r := r) (by simp [hr])
  have hmoved : r.Precedes r.advance := (Precedes.refl r).advance
  simp only [Parses, parseFunction, meets_bind, meets_current, meets_expect, meets_pure]
  refine ⟨fun hopening => ?_, fun _ => (Precedes.refl r).report _⟩
  refine (meets_parameters (r := r.advance)).mono ?_ fun s hs => hmoved.refused hs
  rintro parameters s ⟨hclosing, hparameters⟩
  have hs : r.Precedes s := hmoved.trans hparameters.precedes
  refine ⟨fun hbrace => ?_, fun _ => hs.report _⟩
  have hsn := hs.advance.length_le
  refine (parses_block (r := s.advance) hlevel (by omega) hbrace).mono ?_
    fun t ht => hs.advance.refused ht
  intro body t hbody
  refine ⟨hs.advance.trans hbody.precedes, fun hunbroken hclean => ?_⟩
  have hinner := hparameters.reads (hmoved.unbroken hunbroken) (hbody.precedes.errors hclean)
  rw [tokens_eq_cons (r := s) (by simp [hclosing])] at hinner
  rw [hcons, behind_eq_cons (r := r) (by simp [hopening])]
  exact .function hr hopening hinner hclosing
    (hbody.reads (hs.advance.unbroken hunbroken) hclean)

theorem parses_array (hlevel : level.ReadsExpressions n) (hn : r.tokens.length ≤ n + 1)
    (hr : r.current.kind = .lbracket) : Parses .first (parseArray level) r := by
  have hcons := tokens_eq_cons (r := r) (by simp [hr])
  simp only [Parses, parseArray, meets_bind, meets_current, meets_pure]
  refine (meets_expressions hlevel .rbracket hn).mono ?_ fun s hs => hs
  rintro elements s ⟨hclosing, helements⟩
  refine ⟨helements.precedes, fun hunbroken hclean => ?_⟩
  have hinner := helements.reads hunbroken hclean
  rw [tokens_eq_cons (r := s) (by simp [hclosing])] at hinner
  rw [hcons]
  exact .array hr hinner hclosing

theorem parses_dictionary (hlevel : level.ReadsExpressions n) (hn : r.tokens.length ≤ n + 1)
    (hr : r.current.kind = .lbrace) : Parses .first (parseDictionary level) r := by
  have hcons := tokens_eq_cons (r := r) (by simp [hr])
  simp only [Parses, parseDictionary, meets_bind, meets_current, meets_rounds, meets_expect,
    meets_pure]
  refine (meets_pairs hlevel _ r hn (Nat.lt_succ_self _)).mono ?_ fun s hs => hs
  rintro pairs s ⟨hclosing, hpairs⟩
  refine ⟨fun _ => ⟨hpairs.precedes.advance, fun hunbroken hclean => ?_⟩,
    fun hne => absurd hclosing hne⟩
  have hinner := hpairs.reads hunbroken hclean
  rw [behind_eq_cons (r := s) (by simp [hclosing])] at hinner
  rw [hcons]
  exact .dictionary hr hinner hclosing

/-- How an expression begins decides how it is read. -/
theorem parses_firstReading (hexpr : level.ReadsExpressions n) (hstmt : level.ReadsStatements n)
    (hn : r.tokens.length ≤ n + 1) {reading : Parse Node}
    (hreading : firstReading? level r.current.kind = some reading) :
    Parses .first reading r := by
  unfold firstReading? at hreading
  split at hreading <;> cases hreading
  case h_1 hk => exact parses_identifier hk
  case h_2 hk => exact parses_number hk
  case h_3 hk => exact parses_prefix hexpr hn (by simp [hk, TokenKind.isPrefixOperator])
  case h_4 hk => exact parses_prefix hexpr hn (by simp [hk, TokenKind.isPrefixOperator])
  case h_5 hk => exact parses_boolean (by simp [hk, TokenKind.isTruthWord])
  case h_6 hk => exact parses_boolean (by simp [hk, TokenKind.isTruthWord])
  case h_7 hk => exact parses_group hexpr hn hk
  case h_8 hk => exact parses_if hexpr hstmt hn hk
  case h_9 hk => exact parses_function hstmt hn hk
  case h_10 hk => exact parses_string hk
  case h_11 hk => exact parses_array hexpr hn hk
  case h_12 hk => exact parses_dictionary hexpr hn hk

/-! ## Extensions -/

section Extension

variable {left : Node}

theorem parses_infix (hlevel : level.ReadsExpressions n) (hn : r.tokens.length ≤ n + 1)
    (hr : r.current.kind.isInfixOperator) : Parses (.link left) (parseInfix level left) r := by
  have hcons := tokens_eq_cons (r := r) (by intro h; simp [h, TokenKind.isInfixOperator] at hr)
  have hmoved : r.Precedes r.advance := (Precedes.refl r).advance
  simp only [Parses, parseInfix, meets_bind, meets_current, meets_advance, meets_pure]
  refine (hlevel _ r.advance (length_advance_le hn)).mono ?_ fun s hs => hmoved.refused hs
  intro right s hright
  refine ⟨hmoved.trans hright.precedes, fun hunbroken hclean => ?_⟩
  rw [hcons]
  exact .infixOp hr (hright.reads (hmoved.unbroken hunbroken) hclean)

theorem parses_call (hlevel : level.ReadsExpressions n) (hn : r.tokens.length ≤ n + 1)
    (hr : r.current.kind = .lparen) : Parses (.link left) (parseCall level left) r := by
  have hcons := tokens_eq_cons (r := r) (by simp [hr])
  simp only [Parses, parseCall, meets_bind, meets_current, meets_pure]
  refine (meets_expressions hlevel .rparen hn).mono ?_ fun s hs => hs
  rintro arguments s ⟨hclosing, harguments⟩
  refine ⟨harguments.precedes, fun hunbroken hclean => ?_⟩
  have hinner := harguments.reads hunbroken hclean
  rw [tokens_eq_cons (r := s) (by simp [hclosing])] at hinner
  rw [hcons]
  exact .call hr hinner hclosing

theorem parses_index (hlevel : level.ReadsExpressions n) (hn : r.tokens.length ≤ n + 1)
    (hr : r.current.kind = .lbracket) : Parses (.link left) (parseIndex level left) r := by
  have hcons := tokens_eq_cons (r := r) (by simp [hr])
  have hmoved : r.Precedes r.advance := (Precedes.refl r).advance
  simp only [Parses, parseIndex, meets_bind, meets_current, meets_advance, meets_expect, meets_pure]
  refine (hlevel .lowest r.advance (length_advance_le hn)).mono ?_ fun s hs => hmoved.refused hs
  intro index s hindex
  have hs : r.Precedes s := hmoved.trans hindex.precedes
  refine ⟨fun hclosing => ⟨hs.advance, fun hunbroken hclean => ?_⟩, fun _ => hs.report _⟩
  have hinner := hindex.reads (hmoved.unbroken hunbroken) hclean
  rw [behind_eq_cons (r := s) (by simp [hclosing])] at hinner
  rw [hcons]
  exact .index hr hinner hclosing

/-- The token decides whether an operator, a call or an index extends the expression. -/
theorem parses_extension (hlevel : level.ReadsExpressions n) (hn : r.tokens.length ≤ n + 1)
    {context : Precedence} (hr : Binds context r.current.kind) :
    Parses (.link left) (parseExtension level left) r := by
  have hkind := hr.kind
  simp only [Parses, parseExtension, meets_bind, meets_current]
  -- a token that binds is a bracket or an operator, so the default reads an operator
  cases hk : r.current.kind
  case lparen => exact parses_call hlevel hn hk
  case lbracket => exact parses_index hlevel hn hk
  all_goals exact parses_infix hlevel hn (by simpa [hk] using hkind)

end Extension

/-- Without an expression on the left there is nothing to extend, and there was an error. -/
theorem meets_extensions_none {context : Precedence} {bound : Nat} (hbound : 0 < bound)
    (hr : r.errors ≠ []) {Q : Node → Reading → Prop} :
    (parseExtensions level context bound none r).Meets Q (Refused r) := by
  obtain ⟨bound, rfl⟩ : ∃ k, bound = k + 1 := ⟨bound - 1, by omega⟩
  simp only [parseExtensions, meets_bind]
  refine meets_extends (fun _ => ?_) (fun _ => ?_)
  · exact ⟨(Precedes.refl r).advance, hr⟩
  · exact ⟨.refl r, hr⟩

/-- An expression is extended as long as the next token binds tighter than the context. -/
theorem meets_extensions (hlevel : level.ReadsExpressions n) (context : Precedence) :
    ∀ (bound : Nat) (left : Node) (r : Reading), r.tokens.length ≤ n + 1 →
      r.tokens.length < bound →
      (parseExtensions level context bound (some left) r).Meets
        (fun e s => Reached r s (.extension context left e) r.behind s.behind) (Refused r) := by
  intro bound
  induction bound with
  | zero => intro _ r _ hbound; exact absurd hbound (Nat.not_lt_zero _)
  | succ bound ih =>
    intro left r hn hbound
    simp only [parseExtensions, meets_bind]
    refine meets_extends (fun htight => ?_) (fun hloose => ?_)
    · have hmoved : r.Precedes r.advance := (Precedes.refl r).advance
      have hadvance : r.advance.tokens.length = r.tokens.length - 1 := length_behind r
      have hpeek : r.peek.kind ≠ .eof := by
        intro h
        rw [h] at htight
        exact absurd htight (Nat.not_lt_zero _)
      have hlen := length_of_peek hpeek
      simp only [if_true, meets_bind, meets_advance, meets_ofOption_some, meets_attempt]
      refine (parses_extension (r := r.advance) hlevel (by omega) htight).mono ?_ ?_
      · intro extended s hextended
        have hs := hextended.precedes.length_le
        refine (ih extended s (by omega) (by omega)).mono ?_
          fun t ht => (hmoved.trans hextended.precedes).refused ht
        intro e t he
        refine ⟨hmoved.trans (hextended.precedes.trans he.precedes), fun hunbroken hclean => ?_⟩
        have hreads := hmoved.unbroken hunbroken
        exact .extended htight (hextended.reads hreads (he.precedes.errors hclean))
          (he.reads (hextended.precedes.unbroken hreads) hclean)
      · intro s hs
        have hlen := hs.precedes.length_le
        refine (meets_extensions_none (by omega) hs.errors_ne).mono (fun _ _ h => h)
          fun t ht => (hmoved.trans hs.precedes).refused ht
    · exact ⟨.refl r, fun _ _ => .unextended hloose⟩

/-- At the end of the input no expression begins. -/
theorem parses_expression_nil (level : Level) (context : Precedence) (hr : r.tokens = []) :
    Parses (.expression context) (parseExpression level context) r := by
  have hk : r.current.kind = .eof := by simp [Reading.current, hr, Token.eof]
  simp only [Parses, parseExpression, meets_bind, meets_current, hk, firstReading?, meets_report,
    meets_refuse]
  exact (Precedes.refl r).report _

theorem parses_expression (hexpr : level.ReadsExpressions n) (hstmt : level.ReadsStatements n)
    (hn : r.tokens.length ≤ n + 1) (context : Precedence) :
    Parses (.expression context) (parseExpression level context) r := by
  simp only [Parses, parseExpression, meets_bind, meets_current]
  cases hreading : firstReading? level r.current.kind with
  | none =>
    simp only [meets_bind, meets_report, meets_refuse]
    exact (Precedes.refl r).report _
  | some reading =>
    simp only [meets_bind, meets_attempt, meets_rounds]
    refine (parses_firstReading hexpr hstmt hn hreading).mono ?_ ?_
    · intro first s hfirst
      have hs := hfirst.precedes.length_le
      refine (meets_extensions hexpr context _ first s (by omega) (Nat.lt_succ_self _)).mono ?_
        fun t ht => hfirst.precedes.refused ht
      intro e t he
      refine ⟨hfirst.precedes.trans he.precedes, fun hunbroken hclean => ?_⟩
      exact .expression (hfirst.reads hunbroken (he.precedes.errors hclean))
        (he.reads (hfirst.precedes.unbroken hunbroken) hclean)
    · intro s hs
      exact (meets_extensions_none (Nat.succ_pos _) hs.errors_ne).mono (fun _ _ h => h)
        fun t ht => hs.precedes.refused ht

/-! ## Statements -/

/-- An expression and the semicolon that may stand behind it. -/
def ReachedEnding (r s : Reading) (ts : List Token) (value : Node) : Prop :=
  r.Precedes s ∧ (Unbroken r.tokens → s.errors = [] →
    ∃ us, Reads (.expression .lowest value) ts us ∧ Reads .ending us s.behind)

/-- A value, and a semicolon that may follow it. -/
theorem meets_ended (hlevel : level.ReadsExpressions n) (hn : r.tokens.length ≤ n)
    (node : Node → Node) :
    ((do
      let value ← level.expression .lowest
      skipSemicolon
      return node value : Parse Node) r).Meets
      (fun e s => ∃ value, e = node value ∧ ReachedEnding r s r.tokens value) (Refused r) := by
  simp only [meets_bind, meets_skipSemicolon, meets_pure]
  refine (hlevel .lowest r hn).mono ?_ fun s hs => hs
  intro value s hvalue
  refine ⟨fun hsemi => ?_, fun hsemi => ?_⟩
  · refine ⟨value, rfl, hvalue.precedes.advance, fun hunbroken hclean => ?_⟩
    refine ⟨s.behind, hvalue.reads hunbroken hclean, ?_⟩
    rw [behind_eq_cons (r := s) (by simp [hsemi])]
    exact .semicolon hsemi
  · refine ⟨value, rfl, hvalue.precedes, fun hunbroken hclean => ?_⟩
    exact ⟨s.behind, hvalue.reads hunbroken hclean, .noEnding hsemi⟩

/-- A binding from its name on: the equality sign, the value and the semicolon. -/
theorem meets_binding (hlevel : level.ReadsExpressions n) (hn : r.tokens.length ≤ n)
    (node : Name → Node → Node) :
    (parseBinding level node r).Meets
      (fun e s => ∃ sign ts value, r.behind = sign :: ts ∧ sign.kind = .assign ∧
        e = node ⟨r.current, r.current.literal⟩ value ∧ ReachedEnding r s ts value)
      (Refused r) := by
  unfold parseBinding
  rw [meets_bind, meets_currentName, meets_bind, meets_expect]
  refine ⟨fun hsign => ?_, fun _ => (Precedes.refl r).report _⟩
  have hmoved : r.Precedes r.advance.advance := (Precedes.refl r).advance.advance
  have hlen := hmoved.length_le
  rw [meets_bind, meets_advance]
  refine (meets_ended (r := r.advance.advance) hlevel (by omega)
    (node ⟨r.current, r.current.literal⟩)).mono ?_ fun s hs => hmoved.refused hs
  rintro e s ⟨value, rfl, hs, hreads⟩
  refine ⟨r.peek, r.advance.behind, value, behind_eq_cons (by simp [hsign]), hsign, rfl,
    hmoved.trans hs, fun hunbroken => hreads (hmoved.unbroken hunbroken)⟩

/-- The two declarations differ in their word and in the node they make. -/
theorem parses_declaration (hlevel : level.ReadsExpressions n) (hn : r.tokens.length ≤ n)
    {word : TokenKind} (node : Token → Name → Node → Node) (hword : word ≠ .eof)
    (hr : r.current.kind = word)
    (hnode : ∀ t x a ts us rest value, t.kind = word → x.kind = .ident → a.kind = .assign →
      Reads (.expression .lowest value) ts us → Reads .ending us rest →
      Reads (.statement (node t ⟨x, x.literal⟩ value)) (t :: x :: a :: ts) rest) :
    Parses .statement (do
      let token ← Parse.current
      expect .ident
      parseBinding level (node token)) r := by
  have hcons := tokens_eq_cons (r := r) (by rw [hr]; exact hword)
  have hmoved : r.Precedes r.advance := (Precedes.refl r).advance
  have hlen := hmoved.length_le
  unfold Parses
  rw [meets_bind, meets_current, meets_bind, meets_expect]
  refine ⟨fun hname => ?_, fun _ => (Precedes.refl r).report _⟩
  refine (meets_binding (r := r.advance) hlevel (by omega) _).mono ?_ fun s hs => hmoved.refused hs
  rintro e s ⟨sign, ts, value, hts, hsign, rfl, hs, hreads⟩
  refine ⟨hmoved.trans hs, fun hunbroken hclean => ?_⟩
  obtain ⟨us, hvalue, hending⟩ := hreads (hmoved.unbroken hunbroken) hclean
  rw [hcons, behind_eq_cons (r := r) (by simp [hname]), hts]
  exact hnode _ _ _ _ _ _ _ hr hname hsign hvalue hending

theorem parses_let (hlevel : level.ReadsExpressions n) (hn : r.tokens.length ≤ n)
    (hr : r.current.kind = .letWord) : Parses .statement (parseLet level) r :=
  parses_declaration hlevel hn .letBinding (by decide) hr
    fun _ _ _ _ _ _ _ hword hname hsign => .letBinding hword hname hsign

theorem parses_const (hlevel : level.ReadsExpressions n) (hn : r.tokens.length ≤ n)
    (hr : r.current.kind = .constWord) : Parses .statement (parseConst level) r :=
  parses_declaration hlevel hn .constBinding (by decide) hr
    fun _ _ _ _ _ _ _ hword hname hsign => .constBinding hword hname hsign

/-- A name and a sign, where no word announces them. -/
theorem parses_assignment (hlevel : level.ReadsExpressions n) (hn : r.tokens.length ≤ n)
    (hr : r.current.kind = .ident) : Parses .statement (parseAssignment level) r := by
  have hcons := tokens_eq_cons (r := r) (by simp [hr])
  refine (meets_binding hlevel hn _).mono ?_ fun s hs => hs
  rintro e s ⟨sign, ts, value, hts, hsign, rfl, hs, hreads⟩
  refine ⟨hs, fun hunbroken hclean => ?_⟩
  obtain ⟨us, hvalue, hending⟩ := hreads hunbroken hclean
  rw [hcons, hts]
  exact .assignment hr hsign hvalue hending

theorem parses_return (hlevel : level.ReadsExpressions n) (hn : r.tokens.length ≤ n)
    (hr : r.current.kind = .returnWord) : Parses .statement (parseReturn level) r := by
  have hcons := tokens_eq_cons (r := r) (by simp [hr])
  have hmoved : r.Precedes r.advance := (Precedes.refl r).advance
  have hlen := hmoved.length_le
  unfold Parses parseReturn
  rw [meets_bind, meets_current, meets_bind, meets_advance]
  refine (meets_ended (r := r.advance) hlevel (by omega) _).mono ?_ fun s hs => hmoved.refused hs
  rintro e s ⟨value, rfl, hs, hreads⟩
  refine ⟨hmoved.trans hs, fun hunbroken hclean => ?_⟩
  obtain ⟨us, hvalue, hending⟩ := hreads (hmoved.unbroken hunbroken) hclean
  rw [hcons]
  exact .returning hr hvalue hending

theorem parses_while (hexpr : level.ReadsExpressions n) (hstmt : level.ReadsStatements n)
    (hn : r.tokens.length ≤ n + 1) (hr : r.current.kind = .whileWord) :
    Parses .statement (parseWhile level) r := by
  have hcons := tokens_eq_cons (r := r) (by simp [hr])
  simp only [Parses, parseWhile, meets_bind, meets_current, meets_pure]
  refine (meets_condition hexpr hn).mono ?_ fun s hs => hs
  rintro condition s ⟨hbrace, hs, hcondition⟩
  have hsn := hs.length_le
  refine (parses_block hstmt (by omega) hbrace).mono ?_ fun t ht => hs.refused ht
  intro body t hbody
  refine ⟨hs.trans hbody.precedes, fun hunbroken hclean => ?_⟩
  obtain ⟨opening, closing, ts, hopening, hclosing, hts, hc⟩ :=
    hcondition hunbroken (hbody.precedes.errors hclean)
  rw [hcons, hts]
  exact .loop hr hopening hc hclosing (hbody.reads (hs.unbroken hunbroken) hclean)

theorem parses_expressionStatement (hlevel : level.ReadsExpressions n)
    (hn : r.tokens.length ≤ n) (hplain : ¬(r.current.kind = .ident ∧ r.peek.kind = .assign)) :
    Parses .statement (parseExpressionStatement level) r := by
  unfold Parses parseExpressionStatement
  rw [meets_bind, meets_current]
  refine (meets_ended hlevel hn _).mono ?_ fun s hs => hs
  rintro e s ⟨value, rfl, hs, hreads⟩
  refine ⟨hs, fun hunbroken hclean => ?_⟩
  obtain ⟨us, hvalue, hending⟩ := hreads hunbroken hclean
  have hcons : r.tokens = r.current :: r.behind := by
    refine tokens_eq_cons fun h => absurd hvalue.begins ?_
    rw [show nextKind r.tokens = .eof from h]
    decide
  rw [hcons] at hvalue ⊢
  exact .statement hplain hvalue hending

/-- A statement begins where its expression begins, so the level has to read expressions from all of
its tokens; blocks begin further on. -/
theorem parses_statement (hexpr : level.ReadsExpressions n)
    (hstmt : ∀ m < n, level.ReadsStatements m) (hn : r.tokens.length ≤ n) :
    Parses .statement (parseStatement level) r := by
  simp only [Parses, parseStatement, meets_bind, meets_current]
  cases hk : r.current.kind
  case letWord => exact parses_let hexpr hn hk
  case returnWord => exact parses_return hexpr hn hk
  case constWord => exact parses_const hexpr hn hk
  case whileWord =>
    have hpos := length_pos_of_current (r := r) (by simp [hk])
    have hless : level.ReadsExpressions (n - 1) := fun context s hs =>
      hexpr context s (by omega)
    exact parses_while hless (hstmt (n - 1) (by omega)) (by omega) hk
  case ident =>
    simp only [meets_bind, meets_peek, meets_ite]
    exact ⟨fun _ => parses_assignment hexpr hn hk,
      fun hsign => parses_expressionStatement hexpr hn fun h => hsign h.2⟩
  all_goals exact parses_expressionStatement hexpr hn (by simp [hk])

/-! ## Levels -/

/-- **A level reads what fits its depth.** An expression takes a level from at least one token, and a
statement takes one more. -/
theorem ofDepth_reads (depth : Nat) :
    (∀ n, 2 * n + 1 ≤ depth → (Level.ofDepth depth).ReadsExpressions n) ∧
      ∀ n, 2 * n + 2 ≤ depth → (Level.ofDepth depth).ReadsStatements n := by
  induction depth with
  | zero => exact ⟨fun n h => absurd h (by omega), fun n h => absurd h (by omega)⟩
  | succ depth ih =>
    obtain ⟨ihexpr, ihstmt⟩ := ih
    refine ⟨fun n hn context r hr => ?_, fun n hn r hr => ?_⟩
    · cases n with
      | zero => exact parses_expression_nil _ context (List.length_eq_zero_iff.mp (by omega))
      | succ n =>
        exact parses_expression (ihexpr n (by omega)) (ihstmt n (by omega)) hr context
    · exact parses_statement (ihexpr n (by omega)) (fun m hm => ihstmt m (by omega)) hr

/-- A program is read to its end, and without an error it is read as the resolved grammar says. -/
theorem meets_program (tokens : List Token) :
    (parseProgram (.ofDepth (depthFor tokens.length)) ⟨tokens, []⟩).Meets
      (fun statements s => s.current.kind = .eof ∧
        Reached ⟨tokens, []⟩ s (.statements statements) tokens s.tokens)
      (Refused ⟨tokens, []⟩) := by
  have hstmt : (Level.ofDepth (depthFor tokens.length)).ReadsStatements tokens.length :=
    (ofDepth_reads _).2 _ (by rw [depthFor]; omega)
  unfold parseProgram
  rw [meets_bind, meets_rounds]
  refine (meets_statements hstmt (by decide) _ ⟨tokens, []⟩ (Nat.le_refl _)
    (Nat.lt_succ_self _)).mono ?_ fun s hs => hs
  rintro statements s ⟨hend, hs⟩
  exact ⟨by simpa using hend, hs⟩

/-- **What is read without an error is all of the tokens.** -/
theorem reads_parseTokens {tokens : List Token} (hunbroken : Unbroken tokens)
    (hclean : (parseTokens tokens).errors = []) :
    Reads (.statements (parseTokens tokens).statements) tokens [] := by
  have hmeets := meets_program tokens
  unfold parseTokens at hclean ⊢
  cases houtcome : parseProgram (.ofDepth (depthFor tokens.length)) ⟨tokens, []⟩ with
  | done statements s =>
    rw [houtcome] at hmeets hclean
    obtain ⟨hend, hs⟩ := hmeets
    have hnil : s.tokens = [] := (hs.precedes.unbroken hunbroken).eq_nil hend
    have hreads := hs.reads hunbroken hclean
    rw [hnil] at hreads
    exact hreads
  | refused s =>
    rw [houtcome] at hmeets hclean
    exact absurd hclean hmeets.errors_ne
  | exhausted =>
    rw [houtcome] at hmeets
    exact absurd hmeets id

/-- **Nothing is skipped.** A text without a null character that is read without an error is, token
by token, a derivation of the statements that were read. -/
theorem derives_of_parse_clean (text : String) (hnull : '\x00' ∉ text.toList)
    (hclean : (parse text).errors = []) :
    Derives (.statements (parse text).statements) (tokenize text) [] :=
  (reads_parseTokens (unbroken_tokenize hnull) hclean).derives

/-- A function whose parameter is no name, a dictionary with a comma too many, a loop that is cut off
and a point without a fraction. -/
theorem derives_of_parse_clean_cut_off :
    '\x00' ∉ "fn(1) \x7b\x7d while (f(-a)[0]) \x7b x = \x7b1: !x,\x7d; 2.".toList ∧
    (parse "fn(1) \x7b\x7d while (f(-a)[0]) \x7b x = \x7b1: !x,\x7d; 2.").errors = [] ∧
    Derives
      (.statements (parse "fn(1) \x7b\x7d while (f(-a)[0]) \x7b x = \x7b1: !x,\x7d; 2.").statements)
      (tokenize "fn(1) \x7b\x7d while (f(-a)[0]) \x7b x = \x7b1: !x,\x7d; 2.") [] := by
  refine ⟨by decide, by decide +kernel, derives_of_parse_clean _ ?_ ?_⟩
  · decide
  · decide +kernel

end Monkey
