import Monkey.Proofs.ParserStep

/-!
# Literals, lists and blocks

What the parser reads as literals, as lists with commas and as blocks, over a level whose nested
readings are parts of the resolved grammar. The bounds are part of it: what begins at `n + 1` tokens
asks the level below only about `n` tokens, and no loop makes more rounds than there are tokens left.
-/

namespace Monkey

open Parse Reading

variable {level : Level} {n : Nat} {r : Reading}

/-! ## Literals and names -/

theorem parses_identifier (hr : r.current.kind = .ident) :
    Parses .first parseIdentifier r := by
  have hcons := tokens_eq_cons (r := r) (by simp [hr])
  simp only [Parses, parseIdentifier, meets_bind, meets_currentName, meets_pure]
  refine ⟨.refl r, fun _ _ => ?_⟩
  rw [hcons]
  exact .identifier hr

theorem parses_boolean (hr : r.current.kind.isTruthWord) :
    Parses .first parseBoolean r := by
  have hcons := tokens_eq_cons (r := r) (by intro h; simp [h, TokenKind.isTruthWord] at hr)
  simp only [Parses, parseBoolean, meets_bind, meets_current, meets_pure]
  refine ⟨.refl r, fun _ _ => ?_⟩
  rw [hcons]
  exact .boolean hr

theorem parses_string (hr : r.current.kind = .string) : Parses .first parseString r := by
  have hcons := tokens_eq_cons (r := r) (by simp [hr])
  simp only [Parses, parseString, meets_bind, meets_current, meets_pure]
  refine ⟨.refl r, fun _ _ => ?_⟩
  rw [hcons]
  exact .string hr

/-- The fraction behind the point is a token, or the end of the input. -/
theorem reads_float {whole : Int} {x : Binary64} (hr : r.current.kind = .int)
    (hwhole : Numeral.readInt? r.current.literal = some whole) (hpoint : r.peek.kind = .dot)
    (hx : fractionValue? whole r.advance.advance.current.literal = some x) :
    Reads (.first (.float r.peek x)) r.tokens r.advance.advance.behind := by
  rw [tokens_eq_cons (r := r) (by simp [hr]), behind_eq_cons (by simp [hpoint])]
  cases hrest : r.advance.behind with
  | nil =>
    have hlast : r.advance.advance.current = .eof := by
      show r.advance.behind.headD .eof = .eof
      rw [hrest]
      rfl
    rw [hlast] at hx
    have hend : r.advance.advance.behind = [] := by
      show r.advance.behind.tail = []
      rw [hrest]
      rfl
    rw [hend]
    exact .floatAtEnd hr hwhole hpoint hx
  | cons fraction rest =>
    have hfraction : r.advance.advance.current = fraction := by
      show r.advance.behind.headD .eof = fraction
      rw [hrest]
      rfl
    rw [hfraction] at hx
    have hbehind : r.advance.advance.behind = rest := by
      show r.advance.behind.tail = rest
      rw [hrest]
      rfl
    rw [hbehind]
    exact .float hr hwhole hpoint hx

/-- A number is an integer, or one with a point and a fraction behind it. -/
theorem parses_number (hr : r.current.kind = .int) : Parses .first parseNumber r := by
  simp only [Parses, parseNumber, meets_bind, meets_current]
  cases hwhole : Numeral.readInt? r.current.literal with
  | none =>
    simp only [meets_bind, meets_report, meets_refuse]
    exact (Precedes.refl r).report _
  | some whole =>
    simp only [meets_bind, meets_peek, meets_ite, meets_advance, meets_current, meets_pure]
    refine ⟨fun hpoint => ?_, fun hpoint => ?_⟩
    · have hmoved : r.Precedes r.advance.advance := (Precedes.refl r).advance.advance
      cases hx : fractionValue? whole r.advance.advance.current.literal with
      | none =>
        rw [fractionValue?] at hx
        simp only [hx, meets_bind, meets_report, meets_refuse]
        exact hmoved.report _
      | some x =>
        have hreads := reads_float hr hwhole hpoint hx
        rw [fractionValue?] at hx
        simp only [hx, meets_pure]
        exact ⟨hmoved, fun _ _ => hreads⟩
    · refine ⟨.refl r, fun _ _ => ?_⟩
      rw [tokens_eq_cons (r := r) (by simp [hr])]
      exact .integer hr hwhole hpoint

/-! ## Lists -/

/-- What is read behind the current token, up to and with the token the reading stops at. -/
theorem meets_moreExpressions (hlevel : level.ReadsExpressions n) :
    ∀ (bound : Nat) (r : Reading), r.tokens.length ≤ n + 1 → r.tokens.length < bound →
      (parseMoreExpressions level bound r).Meets
        (fun es s => Reached r s (.moreExpressions es) r.behind s.behind) (Refused r) := by
  intro bound
  induction bound with
  | zero => intro r _ hbound; exact absurd hbound (Nat.not_lt_zero _)
  | succ bound ih =>
    intro r hn hbound
    simp only [parseMoreExpressions, meets_bind, meets_peek, meets_ite, meets_advance, meets_pure]
    refine ⟨fun hcomma => ?_, fun hcomma => ⟨.refl r, fun _ _ => .noMoreExpressions hcomma⟩⟩
    have hcons : r.behind = r.peek :: r.advance.behind := behind_eq_cons (by simp [hcomma])
    have hmoved : r.Precedes r.advance.advance := (Precedes.refl r).advance.advance
    have hlen := length_of_peek (r := r) (by simp [hcomma])
    refine (hlevel .lowest r.advance.advance (by omega)).mono ?_ fun s hs => hmoved.refused hs
    intro first s hfirst
    have hs := hfirst.precedes.length_le
    refine (ih s (by omega) (by omega)).mono ?_ fun t ht =>
      (hmoved.trans hfirst.precedes).refused ht
    intro more t hmore
    refine ⟨hmoved.trans (hfirst.precedes.trans hmore.precedes), fun hr ht => ?_⟩
    have hclean : s.errors = [] := hmore.precedes.errors ht
    rw [hcons]
    exact .oneMoreExpression hcomma (hfirst.reads (hmoved.unbroken hr) hclean)
      (hmore.reads (hfirst.precedes.unbroken (hmoved.unbroken hr)) ht)

/-- A list in brackets: nothing, or an expression and the ones behind commas. -/
theorem meets_expressions (hlevel : level.ReadsExpressions n) (closing : TokenKind)
    (hn : r.tokens.length ≤ n + 1) :
    (parseExpressions level closing r).Meets
      (fun es s => s.current.kind = closing ∧ Reached r s (.expressions es) r.behind s.tokens)
      (Refused r) := by
  simp only [parseExpressions, meets_bind, meets_peek, meets_ite, meets_advance, meets_pure]
  refine ⟨fun hpeek => ⟨hpeek, (Precedes.refl r).advance, fun _ _ => .noExpressions⟩, fun _ => ?_⟩
  have hmoved : r.Precedes r.advance := (Precedes.refl r).advance
  refine (hlevel .lowest r.advance (length_advance_le hn)).mono ?_ fun s hs => hmoved.refused hs
  intro first s hfirst
  simp only [meets_rounds]
  have hs := (hmoved.trans hfirst.precedes).length_le
  refine (meets_moreExpressions hlevel _ s (by omega) (Nat.lt_succ_self _)).mono ?_
    fun t ht => (hmoved.trans hfirst.precedes).refused ht
  intro more t hmore
  have hall : r.Precedes t := hmoved.trans (hfirst.precedes.trans hmore.precedes)
  simp only [meets_expect]
  refine ⟨fun hpeek => ⟨hpeek, hall.advance, fun hr ht => ?_⟩, fun _ => hall.report _⟩
  exact .someExpressions (hfirst.reads (hmoved.unbroken hr) (hmore.precedes.errors ht))
    (hmore.reads ((hmoved.trans hfirst.precedes).unbroken hr) ht)

/-- If a token stands behind `s`, there is one at every reading before it. -/
theorem parameter_eq_cons {s : Reading} (hs : r.Precedes s) (hpeek : s.peek.kind ≠ .eof) :
    r.tokens = r.current :: r.behind := by
  refine tokens_eq_cons_of_ne_nil fun hr => ?_
  have hlen := hs.length_le
  have hbehind := length_behind s
  rw [behind_eq_cons hpeek, List.length_cons] at hbehind
  rw [hr, List.length_nil] at hlen
  omega

/-- A parameter is a token that is there, because a token behind it is demanded. -/
theorem meets_moreParameters :
    ∀ (bound : Nat) (r : Reading), r.tokens.length < bound →
      (parseMoreParameters bound r).Meets
        (fun ps s => r.Precedes s ∧
          (s.peek.kind ≠ .eof → Reads (.moreParameters ps) r.behind s.behind))
        (Refused r) := by
  intro bound
  induction bound with
  | zero => intro r hbound; exact absurd hbound (Nat.not_lt_zero _)
  | succ bound ih =>
    intro r hbound
    simp only [parseMoreParameters, meets_bind, meets_peek, meets_ite, meets_advance,
      meets_currentName, meets_pure]
    refine ⟨fun hcomma => ?_, fun hcomma => ⟨.refl r, fun _ => .noMoreParameters hcomma⟩⟩
    have hcons : r.behind = r.peek :: r.advance.behind := behind_eq_cons (by simp [hcomma])
    have hmoved : r.Precedes r.advance.advance := (Precedes.refl r).advance.advance
    have hlen := length_of_peek (r := r) (by simp [hcomma])
    refine (ih r.advance.advance (by omega)).mono ?_ fun s hs => hmoved.refused hs
    rintro more s ⟨hs, hmore⟩
    refine ⟨hmoved.trans hs, fun hpeek => ?_⟩
    rw [hcons, ← tokens_advance r.advance, parameter_eq_cons hs hpeek]
    exact .oneMoreParameter hcomma (hmore hpeek)

/-- Parameters are read behind the current token, up to a closing parenthesis. -/
theorem meets_parameters :
    (parseParameters r).Meets
      (fun ps s => s.current.kind = .rparen ∧ Reached r s (.parameters ps) r.behind s.tokens)
      (Refused r) := by
  simp only [parseParameters, meets_bind, meets_peek, meets_ite, meets_advance, meets_currentName,
    meets_rounds, meets_pure]
  refine ⟨fun hpeek => ⟨hpeek, (Precedes.refl r).advance, fun _ _ => .noParameters⟩,
    fun hopen => ?_⟩
  have hmoved : r.Precedes r.advance := (Precedes.refl r).advance
  refine (meets_moreParameters _ r.advance (Nat.lt_succ_self _)).mono ?_
    fun s hs => hmoved.refused hs
  rintro more s ⟨hs, hmore⟩
  have hall : r.Precedes s := hmoved.trans hs
  simp only [meets_expect]
  refine ⟨fun hpeek => ⟨hpeek, hall.advance, fun _ _ => ?_⟩, fun _ => hall.report _⟩
  have hpeek : s.peek.kind ≠ .eof := by simp [hpeek]
  rw [← tokens_advance, parameter_eq_cons hs hpeek]
  exact .someParameters hopen (hmore hpeek)

/-- A closing brace ends the pairs. -/
theorem parsePairs_of_rbrace {bound : Nat} (hr : r.peek.kind = .rbrace) :
    parsePairs level (bound + 1) r = .done [] r := by
  show (if r.peek.kind = .rbrace then _ else _ : Parse _) r = _
  rw [if_pos hr]
  rfl

/-- Between `r` and `s` a key, a colon and a value were read, behind the current token of `r`. -/
structure PairReached (r s : Reading) (key value : Node) : Prop where
  precedes : r.Precedes s
  reads : Unbroken r.tokens → s.errors = [] → ∃ colon rest, colon.kind = .colon ∧
    Reads (.expression .lowest key) r.behind (colon :: rest) ∧
    Reads (.expression .lowest value) rest s.behind

/-- A key, a colon and a value make a pair. -/
theorem PairReached.of_reached {s t : Reading} {key value : Node}
    (hkey : Reached r.advance s (.expression .lowest key) r.behind s.behind)
    (hcolon : s.peek.kind = .colon)
    (hvalue : Reached s.advance.advance t (.expression .lowest value) s.advance.behind t.behind) :
    PairReached r t key value := by
  have hmoved : r.Precedes r.advance := (Precedes.refl r).advance
  have hs : r.Precedes s.advance.advance := (hmoved.trans hkey.precedes).advance.advance
  refine ⟨hs.trans hvalue.precedes, fun hr ht => ⟨s.peek, s.advance.behind, hcolon, ?_, ?_⟩⟩
  · have hreads := hkey.reads (hmoved.unbroken hr) (hvalue.precedes.errors ht)
    rwa [behind_eq_cons (r := s) (by simp [hcolon])] at hreads
  · exact hvalue.reads (hs.unbroken hr) ht

theorem PairReached.last {s : Reading} {key value : Node} (h : PairReached r s key value) :
    Reached r s (.pairs [(key, value)]) r.behind s.behind := by
  refine ⟨h.precedes, fun hr hs => ?_⟩
  obtain ⟨colon, rest, hcolon, hkey, hvalue⟩ := h.reads hr hs
  exact .lastPair hkey hcolon hvalue

/-- A comma, and the pairs behind it. -/
theorem PairReached.cons {s t : Reading} {key value : Node} {more : List (Node × Node)}
    (h : PairReached r s key value) (hcomma : s.peek.kind = .comma)
    (hmore : Reached s.advance t (.pairs more) s.advance.behind t.behind) :
    Reached r t (.pairs ((key, value) :: more)) r.behind t.behind := by
  refine ⟨h.precedes.advance.trans hmore.precedes, fun hr ht => ?_⟩
  obtain ⟨colon, rest, hcolon, hkey, hvalue⟩ := h.reads hr (hmore.precedes.errors ht)
  rw [behind_eq_cons (r := s) (by simp [hcomma])] at hvalue
  exact .onePair hkey hcolon hvalue hcomma (hmore.reads (h.precedes.advance.unbroken hr) ht)

/-- The pairs of a dictionary are read behind the current token, up to a closing brace. -/
theorem meets_pairs (hlevel : level.ReadsExpressions n) :
    ∀ (bound : Nat) (r : Reading), r.tokens.length ≤ n + 1 → r.tokens.length < bound →
      (parsePairs level bound r).Meets
        (fun ps s => s.peek.kind = .rbrace ∧ Reached r s (.pairs ps) r.behind s.behind)
        (Refused r) := by
  intro bound
  induction bound with
  | zero => intro r _ hbound; exact absurd hbound (Nat.not_lt_zero _)
  | succ bound ih =>
    intro r hn hbound
    simp only [parsePairs, meets_bind, meets_peek, meets_ite, meets_advance, meets_pure,
      meets_attempt, meets_expect]
    refine ⟨fun hpeek => ⟨hpeek, .refl r, fun _ _ => .noPairs⟩, fun _ => ?_⟩
    have hmoved : r.Precedes r.advance := (Precedes.refl r).advance
    have hvalueBound : ∀ s, r.Precedes s → s.peek.kind = .colon →
        s.advance.advance.tokens.length + 2 ≤ r.tokens.length := by
      intro s hs hcolon
      rw [length_of_peek (by simp [hcolon])]
      exact hs.length_le
    refine (hlevel .lowest r.advance (length_advance_le hn)).mono ?_ ?_
    · intro key s hkey
      have hs : r.Precedes s := hmoved.trans hkey.precedes
      refine ⟨fun hcolon => ?_, fun _ => hs.report _⟩
      have hlen := hvalueBound s hs hcolon
      refine (hlevel .lowest s.advance.advance (by omega)).mono ?_ ?_
      · intro value t hvalue
        have hpair : PairReached r t key value := .of_reached hkey hcolon hvalue
        have htlen := hvalue.precedes.length_le
        simp only [meets_ofOption_some]
        refine ⟨fun _ => ⟨fun hcomma => ?_, fun _ => hpair.precedes.report _⟩, fun hpeek => ?_⟩
        · have hnext := (Precedes.refl t).advance.length_le
          refine (ih t.advance (by omega) (by omega)).mono ?_
            fun u hu => hpair.precedes.advance.refused hu
          rintro more u ⟨hu, hmore⟩
          exact ⟨hu, hpair.cons hcomma hmore⟩
        · -- a round is left that ends at the brace, because the key and the colon took tokens
          have hbrace : t.peek.kind = .rbrace := Decidable.not_not.mp hpeek
          obtain ⟨rounds, rfl⟩ : ∃ rounds, bound = rounds + 1 := ⟨bound - 1, by omega⟩
          rw [parsePairs_of_rbrace hbrace]
          exact ⟨hbrace, hpair.last⟩
      · intro t ht
        simp only [meets_ofOption_some, meets_ofOption_none]
        exact hs.advance.advance.refused ht
    · -- without a key the colon and the value are still read, and then the dictionary is refused
      intro s hs
      have hkey : Refused r s := hmoved.refused hs
      refine ⟨fun hcolon => ?_, fun _ => hkey.precedes.report _⟩
      have hlen := hvalueBound s hkey.precedes hcolon
      have hskipped : Refused r s.advance.advance := hkey.trans (Precedes.refl s).advance.advance
      refine (hlevel .lowest s.advance.advance (by omega)).mono ?_ ?_
      · intro value t hvalue
        exact hskipped.trans hvalue.precedes
      · intro t ht
        exact hskipped.trans ht.precedes

/-! ## Statements in a row -/

/-- Statements are read from the current token on, up to the token at which they stop. A statement
that is refused is left out, but not without an error. -/
theorem meets_statements (hlevel : level.ReadsStatements n) {stop : TokenKind → Bool}
    (hstop : stop .eof) :
    ∀ (bound : Nat) (r : Reading), r.tokens.length ≤ n → r.tokens.length < bound →
      (parseStatements level stop bound r).Meets
        (fun ss s => stop s.current.kind ∧ Reached r s (.statements ss) r.tokens s.tokens)
        (Refused r) := by
  intro bound
  induction bound with
  | zero => intro r _ hbound; exact absurd hbound (Nat.not_lt_zero _)
  | succ bound ih =>
    intro r hn hbound
    simp only [parseStatements, meets_bind, meets_current, meets_ite, meets_pure, meets_attempt,
      meets_advance]
    refine ⟨fun hend => ⟨hend, .refl r, fun _ _ => .noStatements⟩, fun hgoes => ?_⟩
    have hpos : 0 < r.tokens.length := length_pos_of_current fun h => hgoes (h ▸ hstop)
    have hshorter : ∀ s, r.Precedes s → s.advance.tokens.length < r.tokens.length := by
      intro s hs
      have hlen := hs.length_le
      rw [tokens_advance, length_behind]
      omega
    refine (hlevel r hn).mono ?_ ?_
    · intro first s hfirst
      have hlen := hshorter s hfirst.precedes
      refine (ih s.advance (by omega) (by omega)).mono ?_
        fun t ht => hfirst.precedes.advance.refused ht
      rintro more t ⟨ht, hmore⟩
      refine ⟨ht, hfirst.precedes.advance.trans hmore.precedes, fun hr hclean => ?_⟩
      exact .oneStatement (hfirst.reads hr (hmore.precedes.errors hclean))
        (hmore.reads (hfirst.precedes.advance.unbroken hr) hclean)
    · intro s hs
      have hlen := hshorter s hs.precedes
      refine (ih s.advance (by omega) (by omega)).mono ?_ fun t ht => hs.precedes.advance.refused ht
      rintro more t ⟨ht, hmore⟩
      refine ⟨ht, hs.precedes.advance.trans hmore.precedes, fun _ hclean => ?_⟩
      exact absurd (hmore.precedes.errors hclean) hs.errors_ne

/-- A block ends with a brace or with the input. -/
theorem parses_block (hlevel : level.ReadsStatements n) (hn : r.tokens.length ≤ n + 1)
    (hr : r.current.kind = .lbrace) : Parses .block (parseBlock level) r := by
  have hcons := tokens_eq_cons (r := r) (by simp [hr])
  have hmoved : r.Precedes r.advance := (Precedes.refl r).advance
  simp only [Parses, parseBlock, meets_bind, meets_current, meets_advance, meets_rounds, meets_pure]
  refine (meets_statements hlevel (by decide) _ r.advance (length_advance_le hn)
    (Nat.lt_succ_self _)).mono ?_ fun s hs => hmoved.refused hs
  rintro statements s ⟨hend, hs⟩
  refine ⟨hmoved.trans hs.precedes, fun hunbroken hclean => ?_⟩
  have hinner := hs.reads (hmoved.unbroken hunbroken) hclean
  rw [hcons]
  rcases (by simpa using hend : s.current.kind = .rbrace ∨ s.current.kind = .eof) with hbrace | heof
  · rw [tokens_eq_cons (r := s) (by simp [hbrace])] at hinner
    exact .block hr hinner hbrace
  · -- only the end of the input can mark the end
    have hnil : s.tokens = [] := (hs.precedes.unbroken (hmoved.unbroken hunbroken)).eq_nil heof
    rw [hnil] at hinner
    have hbehind : s.behind = [] := by rw [Reading.behind, hnil]; rfl
    rw [hbehind]
    exact .blockAtEnd hr hinner

end Monkey
