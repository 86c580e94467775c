import Monkey.Proofs.ParserSound

/-!
# Where expressions stop

The parser stops at the last token of what it has read. For an expression this is never a semicolon
(`ofDepth_stopsShort`): no expression ends with one, except that any token is taken for the fraction
behind a point, and no number has a delimiter in its fraction.
-/

namespace Monkey

open Parse Reading Text

/-! ## No numeral has a delimiter in it -/

namespace Numeral

variable {cs : List Char} {c : Char}

/-- The semicolon and the brackets. None of them stands in a numeral. -/
def delimiters : List Char := [';', '(', ')', '[', ']', '\x7b', '\x7d']

/-- What is dropped in front are characters of the run only. -/
theorem mem_dropWhile {p : Char → Bool} (h : c ∈ cs) (hc : ¬p c) : c ∈ cs.dropWhile p := by
  rw [← List.takeWhile_append_dropWhile (p := p) (l := cs), List.mem_append] at h
  exact h.resolve_left fun htaken => hc (List.all_eq_true.mp List.all_takeWhile c htaken)

section

variable (hc : c ∈ delimiters)
include hc

/-- What holds of each delimiter holds of the one at hand. -/
theorem of_mem_delimiters (P : Char → Prop) [DecidablePred P]
    (hall : delimiters.all fun c => P c) : P c :=
  of_decide_eq_true (List.all_eq_true.mp hall c hc)

/-- A delimiter is no blank. -/
theorem mem_trim (h : c ∈ cs) : c ∈ trim cs := by
  have hblank : ¬isMarginBlank c := of_mem_delimiters hc (¬isMarginBlank ·) (by decide)
  have hleft : c ∈ cs.dropWhile isMarginBlank := mem_dropWhile h hblank
  rw [trim, List.mem_reverse]
  exact mem_dropWhile (List.mem_reverse.mpr hleft) hblank

/-- A delimiter is no underscore between digits, so it stays where digits are joined. -/
theorem mem_of_joinGroups {cs' : List Char} {afterDigit : Bool} (h : c ∈ cs)
    (hjoin : joinGroups afterDigit cs = some cs') : c ∈ cs' := by
  induction cs generalizing afterDigit cs' with
  | nil => cases h
  | cons first cs ih =>
    rw [joinGroups] at hjoin
    split at hjoin
    · next hfirst =>
      split at hjoin
      · refine ih ?_ hjoin
        rcases List.mem_cons.mp h with rfl | hmem
        · rw [hfirst] at hc
          exact absurd hc (by decide)
        · exact hmem
      · cases hjoin
    · obtain ⟨more, hmore, rfl⟩ := Option.map_eq_some_iff.mp hjoin
      rcases List.mem_cons.mp h with rfl | hmem
      · exact List.mem_cons_self
      · exact List.mem_cons_of_mem _ (ih hmem hmore)

/-- A delimiter is no sign. -/
theorem mem_splitSign (h : c ∈ cs) : c ∈ (splitSign cs).2 := by
  have hsigns : c ≠ '+' ∧ c ≠ '-' :=
    of_mem_delimiters hc (fun c => c ≠ '+' ∧ c ≠ '-') (by decide)
  unfold splitSign
  split
  · exact (List.mem_cons.mp h).resolve_left hsigns.2
  · exact (List.mem_cons.mp h).resolve_left hsigns.1
  · exact h

/-- A delimiter stands behind the digits in front of it. -/
theorem mem_splitDigits (h : c ∈ cs) : c ∈ (splitDigits cs).2 :=
  mem_dropWhile h (of_mem_delimiters hc (fun c => ¬(decimalValue? c).isSome) (by decide))

theorem mem_splitFraction (h : c ∈ cs) : c ∈ (splitFraction cs).2 := by
  have hpoint : c ≠ '.' := of_mem_delimiters hc (· ≠ '.') (by decide)
  unfold splitFraction
  split
  · exact mem_splitDigits hc ((List.mem_cons.mp h).resolve_left hpoint)
  · exact h

/-- No signed integer has a delimiter in it. -/
theorem readSigned?_eq_none (h : c ∈ cs) : readSigned? cs = none := by
  have hrest := mem_splitDigits hc (mem_splitSign hc h)
  unfold readSigned?
  dsimp only
  split
  · rfl
  · next hsplit =>
    rw [hsplit] at hrest
    cases hrest
  · rfl

/-- No exponent has a delimiter in it. -/
theorem readExponent?_eq_none (h : c ∈ cs) : readExponent? cs = none := by
  cases cs with
  | nil => cases h
  | cons mark cs =>
    rw [readExponent?]
    split
    · next hmark =>
      have hmem : c ∈ cs := by
        rcases List.mem_cons.mp h with rfl | hmem
        · exact absurd hmark (of_mem_delimiters hc (fun c => ¬(c = 'e' ∨ c = 'E')) (by decide))
        · exact hmem
      rw [readSigned?_eq_none hc hmem]
      rfl
    · rfl

/-- Neither `inf` nor `nan` in any spelling has a delimiter in it. -/
theorem namedMagnitude?_eq_none (h : c ∈ cs) : namedMagnitude? cs = none := by
  have hlower : c ∈ (String.ofList (cs.map Char.toLower)).toList := by
    rw [String.toList_ofList]
    exact List.mem_map.mpr ⟨c, h, of_mem_delimiters hc (fun c => c.toLower = c) (by decide)⟩
  unfold namedMagnitude?
  split
  case h_4 => rfl
  all_goals
    next hword =>
      rw [hword] at hlower
      exact absurd hlower (of_mem_delimiters hc (· ∉ String.toList _) (by decide))

/-- No decimal numeral has a delimiter in it, whatever its sign. -/
theorem readMagnitude?_eq_none (negative : Bool) (h : c ∈ cs) :
    readMagnitude? negative cs = none := by
  have hrest := mem_splitFraction hc (mem_splitDigits hc h)
  unfold readMagnitude?
  dsimp only
  rw [readExponent?_eq_none hc hrest]
  split <;> rfl

/-- **No numeral has a delimiter in it.** -/
theorem readBinary64?_eq_none {text : String} (h : c ∈ text.toList) : readBinary64? text = none := by
  unfold readBinary64?
  cases hjoin : joinGroups false (trim text.toList) with
  | none => rfl
  | some cs =>
    have hmem := mem_splitSign hc (mem_of_joinGroups hc (mem_trim hc h) hjoin)
    simp only [Option.bind_eq_bind, Option.bind_some, namedMagnitude?_eq_none hc hmem]
    exact readMagnitude?_eq_none hc _ hmem

end

end Numeral

/-- No fraction has a delimiter in it. -/
theorem fractionValue?_eq_none {c : Char} (hc : c ∈ Numeral.delimiters) {fraction : String}
    (h : c ∈ fraction.toList) (whole : Int) : fractionValue? whole fraction = none :=
  Numeral.readBinary64?_eq_none hc (by simp [h])

/-! ## Expressions -/

/-- A semicolon that is no fraction. -/
structure Token.Closes (t : Token) : Prop where
  kind : t.kind = .semicolon
  noFraction : ∀ whole, fractionValue? whole t.literal = none

/-- Only a semicolon closes. -/
theorem Token.not_closes {t : Token} (h : t.kind ≠ .semicolon) : ¬t.Closes := fun hcloses =>
  h hcloses.kind

/-- A reading stops at a token that is no closing semicolon. -/
def StopsShort (p : Parse α) (r : Reading) : Prop :=
  (p r).Meets (fun _ s => ¬s.current.Closes) fun _ => True

/-- From as many tokens the expressions of a level are read up to such a token. -/
def Level.StopsShort (level : Level) (n : Nat) : Prop :=
  ∀ context r, r.tokens.length ≤ n → Monkey.StopsShort (level.expression context) r

/-- Two facts about one outcome hold together. -/
theorem Outcome.Meets.and {o : Outcome α} {P Q : α → Reading → Prop} {E F : Reading → Prop}
    (h : o.Meets P E) (h' : o.Meets Q F) :
    o.Meets (fun a s => P a s ∧ Q a s) fun s => E s ∧ F s := by
  cases o with
  | done a s => exact ⟨h, h'⟩
  | refused s => exact ⟨h, h'⟩
  | exhausted => exact h

section

variable {level : Level} {n : Nat} {r : Reading}

/-- A number stops at its last digit. Where a semicolon stands behind the point there is no
fraction, so there is no number. -/
theorem stopsShort_number (hr : r.current.kind = .int) : StopsShort parseNumber r := by
  simp only [StopsShort, parseNumber, meets_bind, meets_current]
  cases hwhole : Numeral.readInt? r.current.literal with
  | none => simp only [meets_bind, meets_report, meets_refuse]
  | some whole =>
    simp only [meets_bind, meets_peek, meets_ite, meets_advance, meets_current, meets_pure]
    refine ⟨fun _ => ?_, fun _ => Token.not_closes (by simp [hr])⟩
    cases hx : fractionValue? whole r.advance.advance.current.literal with
    | none =>
      rw [fractionValue?] at hx
      simp only [hx, meets_bind, meets_report, meets_refuse]
    | some x =>
      have hvalue := hx
      rw [fractionValue?] at hx
      simp only [hx, meets_pure]
      intro hcloses
      rw [hcloses.noFraction whole] at hvalue
      cases hvalue

/-- A block stops at its closing brace or at the end of the input. -/
theorem stopsShort_block (hlevel : level.ReadsStatements n) (hn : r.tokens.length ≤ n + 1) :
    StopsShort (parseBlock level) r := by
  simp only [StopsShort, parseBlock, meets_bind, meets_current, meets_advance, meets_rounds,
    meets_pure]
  refine (meets_statements hlevel (by decide) _ r.advance (length_advance_le hn)
    (Nat.lt_succ_self _)).mono ?_ fun _ _ => trivial
  rintro statements s ⟨hend, -⟩
  refine Token.not_closes fun hsemi => ?_
  rw [hsemi] at hend
  exact absurd hend (by decide)

/-- An operator and its operand stop where the operand stops. -/
theorem stopsShort_prefix (hshort : level.StopsShort n) (hn : r.tokens.length ≤ n + 1) :
    StopsShort (parsePrefix level) r := by
  simp only [StopsShort, parsePrefix, meets_bind, meets_current, meets_advance, meets_pure]
  exact hshort .prefixed r.advance (length_advance_le hn)

/-- A group stops at its closing parenthesis. -/
theorem stopsShort_group (hlevel : level.ReadsExpressions n) (hn : r.tokens.length ≤ n + 1) :
    StopsShort (parseGroup level) r := by
  simp only [StopsShort, parseGroup, meets_bind, meets_advance, meets_attempt, meets_expect,
    meets_ofOption_some, meets_ofOption_none]
  refine (hlevel .lowest r.advance (length_advance_le hn)).mono ?_ ?_
  · intro content s _
    exact ⟨fun hclosing => Token.not_closes (by simp [hclosing]), fun _ => trivial⟩
  · intro s _
    exact ⟨fun _ => trivial, fun _ => trivial⟩

/-- An `if` stops where its last block stops. -/
theorem stopsShort_if (hexpr : level.ReadsExpressions n) (hstmt : level.ReadsStatements n)
    (hn : r.tokens.length ≤ n + 1) : StopsShort (parseIf level) r := by
  simp only [StopsShort, parseIf, meets_bind, meets_current, meets_peek, meets_ite, meets_advance,
    meets_expect, meets_pure]
  refine (meets_condition hexpr hn).mono ?_ fun _ _ => trivial
  rintro condition s ⟨hbrace, hs, -⟩
  have hsn := hs.length_le
  have hblock := parses_block hstmt (by omega) hbrace
  refine (hblock.and (stopsShort_block hstmt (by omega))).mono ?_ fun _ _ => trivial
  rintro consequence t ⟨hconsequence, hshort⟩
  refine ⟨fun _ => ⟨fun _ => ?_, fun _ => trivial⟩, fun _ => hshort⟩
  have htn := (hs.trans hconsequence.precedes).advance.advance.length_le
  exact stopsShort_block hstmt (by omega)

/-- A function stops where its body stops. -/
theorem stopsShort_function (hlevel : level.ReadsStatements n) (hn : r.tokens.length ≤ n + 1) :
    StopsShort (parseFunction level) r := by
  simp only [StopsShort, parseFunction, meets_bind, meets_current, meets_expect, meets_pure]
  refine ⟨fun _ => ?_, fun _ => trivial⟩
  refine (meets_parameters (r := r.advance)).mono ?_ fun _ _ => trivial
  rintro parameters s ⟨-, hparameters⟩
  have hsn := ((Precedes.refl r).advance.trans hparameters.precedes).advance.length_le
  exact ⟨fun _ => stopsShort_block hlevel (by omega), fun _ => trivial⟩

theorem stopsShort_array (hlevel : level.ReadsExpressions n) (hn : r.tokens.length ≤ n + 1) :
    StopsShort (parseArray level) r := by
  simp only [StopsShort, parseArray, meets_bind, meets_current, meets_pure]
  refine (meets_expressions hlevel .rbracket hn).mono ?_ fun _ _ => trivial
  rintro elements s ⟨hclosing, -⟩
  exact Token.not_closes (by simp [hclosing])

theorem stopsShort_dictionary (hlevel : level.ReadsExpressions n) (hn : r.tokens.length ≤ n + 1) :
    StopsShort (parseDictionary level) r := by
  simp only [StopsShort, parseDictionary, meets_bind, meets_current, meets_rounds, meets_expect,
    meets_pure]
  refine (meets_pairs hlevel _ r hn (Nat.lt_succ_self _)).mono ?_ fun _ _ => trivial
  rintro pairs s -
  exact ⟨fun hclosing => Token.not_closes (by simp [hclosing]), fun _ => trivial⟩

/-- Whatever an expression begins with stops short of a semicolon. -/
theorem stopsShort_firstReading (hexpr : level.ReadsExpressions n)
    (hstmt : level.ReadsStatements n) (hshort : level.StopsShort n) (hn : r.tokens.length ≤ n + 1)
    {reading : Parse Node} (hreading : firstReading? level r.current.kind = some reading) :
    StopsShort reading r := by
  unfold firstReading? at hreading
  split at hreading <;> cases hreading
  case h_1 hk | h_5 hk | h_6 hk | h_10 hk => exact Token.not_closes (by simp [hk])
  case h_2 hk => exact stopsShort_number hk
  case h_3 hk | h_4 hk => exact stopsShort_prefix hshort hn
  case h_7 hk => exact stopsShort_group hexpr hn
  case h_8 hk => exact stopsShort_if hexpr hstmt hn
  case h_9 hk => exact stopsShort_function hstmt hn
  case h_11 hk => exact stopsShort_array hexpr hn
  case h_12 hk => exact stopsShort_dictionary hexpr hn

/-- An operation stops where its right operand stops. -/
theorem stopsShort_infix (hshort : level.StopsShort n) (hn : r.tokens.length ≤ n + 1)
    (left : Node) : StopsShort (parseInfix level left) r := by
  simp only [StopsShort, parseInfix, meets_bind, meets_current, meets_advance, meets_pure]
  exact hshort _ r.advance (length_advance_le hn)

/-- A call stops at its closing parenthesis. -/
theorem stopsShort_call (hlevel : level.ReadsExpressions n) (hn : r.tokens.length ≤ n + 1)
    (callee : Node) : StopsShort (parseCall level callee) r := by
  simp only [StopsShort, parseCall, meets_bind, meets_current, meets_pure]
  refine (meets_expressions hlevel .rparen hn).mono ?_ fun _ _ => trivial
  rintro arguments s ⟨hclosing, -⟩
  exact Token.not_closes (by simp [hclosing])

theorem stopsShort_index (hlevel : level.ReadsExpressions n) (hn : r.tokens.length ≤ n + 1)
    (left : Node) : StopsShort (parseIndex level left) r := by
  simp only [StopsShort, parseIndex, meets_bind, meets_current, meets_advance, meets_expect,
    meets_pure]
  refine (hlevel .lowest r.advance (length_advance_le hn)).mono ?_ fun _ _ => trivial
  intro index s _
  exact ⟨fun hclosing => Token.not_closes (by simp [hclosing]), fun _ => trivial⟩

theorem stopsShort_extension (hlevel : level.ReadsExpressions n) (hshort : level.StopsShort n)
    (hn : r.tokens.length ≤ n + 1) (left : Node) : StopsShort (parseExtension level left) r := by
  simp only [StopsShort, parseExtension, meets_bind, meets_current]
  cases r.current.kind
  case lparen => exact stopsShort_call hlevel hn left
  case lbracket => exact stopsShort_index hlevel hn left
  all_goals exact stopsShort_infix hshort hn left

/-- What is not extended stops where it stopped before. -/
theorem stopsShort_extensions (hlevel : level.ReadsExpressions n) (hshort : level.StopsShort n)
    (context : Precedence) :
    ∀ (bound : Nat) (left : Node) (r : Reading), r.tokens.length ≤ n + 1 →
      r.tokens.length < bound → ¬r.current.Closes →
      StopsShort (parseExtensions level context bound (some left)) r := by
  intro bound
  induction bound with
  | zero => intro _ r _ hbound; exact absurd hbound (Nat.not_lt_zero _)
  | succ bound ih =>
    intro left r hn hbound hr
    simp only [StopsShort, parseExtensions, meets_bind]
    refine meets_extends (fun htight => ?_) (fun _ => hr)
    have hpeek : r.peek.kind ≠ .eof := by
      intro h
      rw [h] at htight
      exact absurd htight (Nat.not_lt_zero _)
    have hadvance : r.advance.tokens.length = r.tokens.length - 1 := length_behind r
    have hlen := length_of_peek hpeek
    have hextension : Parses (.link left) (parseExtension level left) r.advance :=
      parses_extension hlevel (by omega) htight
    have hstops := stopsShort_extension (r := r.advance) hlevel hshort (by omega) left
    simp only [if_true, meets_bind, meets_advance, meets_ofOption_some, meets_attempt]
    refine (hextension.and hstops).mono ?_ ?_
    · rintro extended s ⟨hextended, hs⟩
      have hsn := hextended.precedes.length_le
      exact ih extended s (by omega) (by omega) hs
    · rintro s ⟨hrefused, -⟩
      exact (meets_extensions_none (by omega) hrefused.errors_ne).mono (fun _ _ h => h)
        fun _ _ => trivial

/-- An expression stops where its first part stops, or where the last extension does. -/
theorem stopsShort_expression (hexpr : level.ReadsExpressions n) (hstmt : level.ReadsStatements n)
    (hshort : level.StopsShort n) (hn : r.tokens.length ≤ n + 1) (context : Precedence) :
    StopsShort (parseExpression level context) r := by
  simp only [StopsShort, parseExpression, meets_bind, meets_current]
  cases hreading : firstReading? level r.current.kind with
  | none => simp only [meets_bind, meets_report, meets_refuse]
  | some reading =>
    simp only [meets_bind, meets_attempt, meets_rounds]
    have hfirst := parses_firstReading hexpr hstmt hn hreading
    refine (hfirst.and (stopsShort_firstReading hexpr hstmt hshort hn hreading)).mono ?_ ?_
    · rintro first s ⟨hreached, hs⟩
      have hsn := hreached.precedes.length_le
      exact stopsShort_extensions hexpr hshort context _ first s (by omega) (Nat.lt_succ_self _) hs
    · rintro s ⟨hrefused, -⟩
      exact (meets_extensions_none (Nat.succ_pos _) hrefused.errors_ne).mono (fun _ _ h => h)
        fun _ _ => trivial

end

/-- **No expression stops at a semicolon.** -/
theorem ofDepth_stopsShort (depth : Nat) :
    ∀ n, 2 * n + 1 ≤ depth → (Level.ofDepth depth).StopsShort n := by
  induction depth with
  | zero => intro n h; exact absurd h (by omega)
  | succ depth ih =>
    intro n hn context r hr
    obtain ⟨hexpr, hstmt⟩ := ofDepth_reads depth
    cases n with
    | zero =>
      -- no expression begins at the end of the input
      have hnil := List.length_eq_zero_iff.mp (Nat.le_zero.mp hr)
      have hk : r.current.kind = .eof := by simp [Reading.current, hnil, Token.eof]
      simp only [StopsShort, Level.ofDepth, parseExpression, meets_bind, meets_current, hk,
        firstReading?, meets_report, meets_refuse]
    | succ n =>
      exact stopsShort_expression (hexpr n (by omega)) (hstmt n (by omega)) (ih n (by omega)) hr
        context

end Monkey
