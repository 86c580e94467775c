import Mathlib
import Monkey.Proofs.Nesting
import Monkey.Proofs.Spelling
import Monkey.Proofs.Stops

/-!
# Programs one after the other

A text that ends with the semicolon of its last statement and the text on the lines behind it can be
run one after the other or at once (`evaluate_joined`).

Neither the lexer nor the parser looks further than one token ahead, so what is read up to a token
does not depend on what stands behind it (`Reads.append`). But the end of the input closes a block and
a string, and it ends an expression that could go on; the semicolon excludes all of this.
-/

namespace Monkey

open Parse Reading Text

/-! ## Tokens behind the rest -/

theorem nextKind_append {ts : List Token} (h : ts ≠ []) (vs : List Token) :
    nextKind (ts ++ vs) = nextKind ts := by
  obtain ⟨t, ts, rfl⟩ := List.exists_cons_of_ne_nil h
  rfl

namespace Reads

variable {part : Part} {ts rest : List Token}

theorem ne_nil (h : Reads part ts rest) (hrest : rest ≠ []) : ts ≠ [] := by
  rintro rfl
  have hlength := h.length_le
  exact hrest (List.length_eq_zero_iff.mp (by rw [List.length_nil] at hlength; omega))

/-- A statement that is an expression begins with two tokens if something stands behind it. -/
theorem ne_nil_of_cons {context : Precedence} {e : Node} {t : Token} {us : List Token}
    (h : Reads (.expression context e) (t :: ts) us) (hus : us ≠ []) : ts ≠ [] := by
  rintro rfl
  have hlength := h.length_le
  simp only [List.length_cons, List.length_nil, Part.weight] at hlength
  exact hus (List.length_eq_zero_iff.mp (by omega))

/-- **One token behind a part decides where it ends.** What stands further behind is not looked at.
-/
theorem append (h : Reads part ts rest) (hrest : rest ≠ []) (vs : List Token) :
    Reads part (ts ++ vs) (rest ++ vs) := by
  -- A part inside another one has a token behind it as well: one of the other part, or the rest.
  have hcons {t : Token} {ts : List Token} : t :: ts ≠ [] := List.cons_ne_nil t ts
  induction h with
  | floatAtEnd | blockAtEnd => exact absurd rfl hrest
  | float kind whole dot value => exact .float kind whole dot value
  | identifier | boolean | string | semicolon | noExpressions | noParameters | noPairs
  | noStatements => constructor <;> assumption
  -- The first token behind the part is looked at
  | integer kind value noPoint =>
    rw [List.cons_append]
    exact .integer kind value (by rwa [nextKind_append hrest])
  | unextended | noMoreExpressions | noMoreParameters | noEnding =>
    constructor
    rwa [nextKind_append hrest]
  -- The part ends with a bracket
  | group opening _ closing ih => exact .group opening (ih hcons) closing
  | array opening _ closing ih => exact .array opening (ih hcons) closing
  | dictionary opening _ closing ih => exact .dictionary opening (ih hcons) closing
  | call opening _ closing ih => exact .call opening (ih hcons) closing
  | index opening _ closing ih => exact .index opening (ih hcons) closing
  | block opening _ closing ih => exact .block opening (ih hcons) closing
  -- The part ends with another one, behind a token
  | prefixOp operator _ ih => exact .prefixOp operator (ih hrest)
  | infixOp operator _ ih => exact .infixOp operator (ih hrest)
  | ifThen word opening _ closing _ noElse ihc ihb =>
    exact .ifThen word opening (ihc hcons) closing (ihb hrest) (by rwa [nextKind_append hrest])
  | ifElse word opening _ closing _ otherwise _ ihc ihb₁ ihb₂ =>
    exact .ifElse word opening (ihc hcons) closing (ihb₁ hcons) otherwise (ihb₂ hrest)
  | function word opening _ closing _ ihps ihb =>
    exact .function word opening (ihps hcons) closing (ihb hrest)
  | loop word opening _ closing _ ihc ihb =>
    exact .loop word opening (ihc hcons) closing (ihb hrest)
  | oneMoreParameter comma _ ih => exact .oneMoreParameter comma (ih hrest)
  | someParameters notClosing _ ih => exact .someParameters notClosing (ih hrest)
  | lastPair _ colon _ ihk ihv => exact .lastPair (ihk hcons) colon (ihv hrest)
  | onePair _ colon _ comma _ ihk ihv ihps =>
    exact .onePair (ihk hcons) colon (ihv hcons) comma (ihps hrest)
  -- The part ends with another one, behind a part
  | extended tight link more ihfirst ihmore =>
    have hus := more.ne_nil hrest
    exact .extended (by rwa [nextKind_append (link.ne_nil hus)]) (ihfirst hus) (ihmore hrest)
  | statement plain value ending ihfirst ihmore =>
    have hus := ending.ne_nil hrest
    rw [List.cons_append] at ihfirst ⊢
    refine .statement ?_ (ihfirst hus) (ihmore hrest)
    rwa [nextKind_append (value.ne_nil_of_cons hus)]
  | expression _ more ihfirst ihmore | oneMoreExpression _ _ more ihfirst ihmore
  | someExpressions _ more ihfirst ihmore | oneStatement _ more ihfirst ihmore
  | letBinding _ _ _ _ more ihfirst ihmore | constBinding _ _ _ _ more ihfirst ihmore
  | assignment _ _ _ more ihfirst ihmore | returning _ _ more ihfirst ihmore =>
    have hus := more.ne_nil hrest
    constructor <;> first | assumption | exact ihfirst hus | exact ihmore hrest

/-- Statements behind statements. -/
theorem statements_append {us : List Token} {ss ss' : List Node} (h : Reads (.statements ss) ts us)
    (h' : Reads (.statements ss') us rest) : Reads (.statements (ss ++ ss')) ts rest := by
  induction ss generalizing ts with
  | nil =>
    cases h
    exact h'
  | cons s ss ih =>
    cases h with
    | oneStatement first more => exact .oneStatement first (ih more)

end Reads

/-! ## A text and the lines behind it -/

/-- A run of characters ends at a character that does not belong to it, whatever stands behind. -/
theorem run_append {p : Char → Bool} {d : Char} (hd : ¬p d) (cs ds : List Char) :
    (cs ++ d :: ds).takeWhile p = cs.takeWhile p ∧
      (cs ++ d :: ds).dropWhile p = cs.dropWhile p ++ d :: ds := by
  induction cs with
  | nil => exact ⟨List.takeWhile_cons_of_neg hd, List.dropWhile_cons_of_neg hd⟩
  | cons c cs ih =>
    rw [List.cons_append]
    by_cases hc : p c
    · rw [List.takeWhile_cons_of_pos hc, List.takeWhile_cons_of_pos hc, ih.1,
        List.dropWhile_cons_of_pos hc, List.dropWhile_cons_of_pos hc]
      exact ⟨rfl, ih.2⟩
    · rw [List.takeWhile_cons_of_neg hc, List.takeWhile_cons_of_neg hc,
        List.dropWhile_cons_of_neg hc, List.dropWhile_cons_of_neg hc]
      exact ⟨rfl, rfl⟩

namespace Cursor

/-- A new line ends every token but a string that is still open. -/
theorem tokenAt_append {ch : Char} {cs : List Char} (ds : List Char)
    (hstring : ch = '"' → ∃ c ∈ cs, ¬isStringChar c) :
    ((Cursor.mk 0 (ch :: (cs ++ '\n' :: ds))).tokenAt ch).1 =
        ((Cursor.mk 0 (ch :: cs)).tokenAt ch).1 ∧
      ((Cursor.mk 0 (ch :: (cs ++ '\n' :: ds))).tokenAt ch).2.rest =
        ((Cursor.mk 0 (ch :: cs)).tokenAt ch).2.rest ++ '\n' :: ds := by
  have hpeek : (Cursor.mk 0 (ch :: (cs ++ '\n' :: ds))).peek? = some '=' ↔
      (Cursor.mk 0 (ch :: cs)).peek? = some '=' := by
    cases cs <;> simp [peek?]
  have hsecond (h : (Cursor.mk 0 (ch :: cs)).peek? = some '=') :
      (cs ++ '\n' :: ds).tail = cs.tail ++ '\n' :: ds := by
    cases cs with
    | nil => cases h
    | cons c cs => rfl
  unfold tokenAt
  simp only [hpeek]
  split
  · exact ⟨rfl, rfl⟩
  split
  · next h => exact ⟨rfl, hsecond h.2⟩
  split
  · next h => exact ⟨rfl, hsecond h.2⟩
  split
  · next h =>
    obtain ⟨c, hc, hquote⟩ := hstring h
    obtain ⟨before, behind, rfl⟩ := List.append_of_mem hc
    obtain ⟨htext, hrest⟩ := run_append hquote before behind
    obtain ⟨htext', hrest'⟩ := run_append hquote before (behind ++ '\n' :: ds)
    simp only [readString, readWhile, skipWhile, advance, List.tail_cons, List.append_assoc,
      List.cons_append, htext, htext', hrest, hrest']
    refine ⟨trivial, ?_⟩
    cases before.dropWhile isStringChar <;> simp
  split
  · have hline : ¬isNameChar '\n' := by decide
    obtain ⟨hname, hrest⟩ := run_append hline (ch :: cs) ds
    rw [List.cons_append] at hname hrest
    simp only [readName, readWhile, skipWhile, hname, hrest]
    exact ⟨trivial, trivial⟩
  split
  · have hline : ¬isDigit '\n' := by decide
    obtain ⟨hdigits, hrest⟩ := run_append hline (ch :: cs) ds
    rw [List.cons_append] at hdigits hrest
    simp only [readNumber, readWhile, skipWhile, hdigits, hrest]
    exact ⟨trivial, trivial⟩
  · exact ⟨rfl, rfl⟩

/-- A string that is still open is the last token. -/
theorem tokenAt_open {cs : List Char} (h : ∀ c ∈ cs, isStringChar c) :
    ((Cursor.mk 0 ('"' :: cs)).tokenAt '"').1.kind = .string ∧
      ((Cursor.mk 0 ('"' :: cs)).tokenAt '"').2.rest = [] := by
  refine ⟨rfl, ?_⟩
  have hdrop : (cs ++ []).dropWhile isStringChar = [] := List.dropWhile_append_of_pos h
  rw [List.append_nil] at hdrop
  show (cs.dropWhile isStringChar).tail = []
  rw [hdrop]
  rfl

end Cursor

theorem closes_of_mem_tokenize {text : String} {t : Token} (ht : t ∈ tokenize text)
    (hkind : t.kind = .semicolon) : t.Closes := by
  have hliteral : t.literal = ";" := by
    rw [spelled_of_mem_tokenize ht (by simp [hkind, TokenKind.isSign]), hkind]
    rfl
  refine ⟨hkind, fun whole => ?_⟩
  rw [hliteral]
  exact fractionValue?_eq_none (c := ';') (by decide) (by decide) whole

/-- **The tokens of a text and of the lines behind it** stand one after the other, unless the text
ends with a string, which may be open. -/
theorem tokensOf_append {cs : List Char} (ds : List Char)
    (h : ∀ ts t, tokensOf cs = ts ++ [t] → t.kind ≠ .string) :
    tokensOf (cs ++ '\n' :: ds) = tokensOf cs ++ tokensOf ds := by
  induction hn : cs.length using Nat.strongRecOn generalizing cs with
  | ind n ih =>
    cases cs with
    | nil => rw [List.nil_append, tokensOf_blank (by decide), tokensOf_nil, List.nil_append]
    | cons ch cs =>
      rw [List.length_cons] at hn
      rw [List.cons_append]
      by_cases hblank : isBlank ch
      · rw [tokensOf_blank hblank] at h ⊢
        rw [tokensOf_blank hblank]
        exact ih cs.length (by omega) h rfl
      · have hcons := tokensOf_cons hblank cs
        have hstring : ch = '"' → ∃ c ∈ cs, ¬isStringChar c := by
          rintro rfl
          refine Classical.byContradiction fun hall => ?_
          obtain ⟨hkind, hrest⟩ := Cursor.tokenAt_open fun c hc =>
            Classical.byContradiction fun hquote => hall ⟨c, hc, hquote⟩
          rw [hrest, tokensOf_nil] at hcons
          exact h [] _ hcons hkind
        obtain ⟨htoken, hrest⟩ := Cursor.tokenAt_append ds hstring
        have hlength := Cursor.length_rest_tokenAt (c := Cursor.mk 0 (ch :: cs)) rfl
        rw [List.length_cons] at hlength
        rw [tokensOf_cons hblank, htoken, hrest, hcons, List.cons_append]
        refine congrArg _ (ih _ (by omega) (fun ts t hts => ?_) rfl)
        exact h (_ :: ts) t (by rw [hcons, hts]; rfl)

/-! ## Statements that end with a semicolon -/

section

variable {level : Level} {n : Nat} {r s : Reading}

/-- A statement that begins at `r` goes on with an expression at `s` and ends with that or with the
semicolon behind it. -/
structure Heads (r s : Reading) (node : Node → Node) : Prop where
  precedes : r.Precedes s
  reads : ∀ {value us vs rest}, us ≠ [] →
    Reads (.expression .lowest value) (s.tokens ++ vs) (us ++ vs) → Reads .ending (us ++ vs) rest →
    Reads (.statement (node value)) (r.tokens ++ vs) rest

theorem heads_plain (hplain : ¬(r.current.kind = .ident ∧ r.peek.kind = .assign)) :
    Heads r r (.statement r.current) := by
  refine ⟨.refl r, fun {value us vs rest} hus hvalue hending => ?_⟩
  have hlength := hvalue.length_le
  have hpos := List.length_pos_iff.mpr hus
  simp only [List.length_append, Part.weight] at hlength
  have hbehind : r.behind ≠ [] := by
    intro hnil
    have := length_behind r
    rw [hnil, List.length_nil] at this
    omega
  have hcons : r.tokens = r.current :: r.behind := tokens_eq_cons_of_ne_nil fun hnil => by
    rw [hnil, List.length_nil] at hlength
    omega
  rw [hcons, List.cons_append] at hvalue ⊢
  refine .statement ?_ hvalue hending
  rw [nextKind_append hbehind]
  exact hplain

theorem heads_returning (hr : r.current.kind = .returnWord) :
    Heads r r.advance (.returning r.current) := by
  refine ⟨(Precedes.refl r).advance, fun _ hvalue hending => ?_⟩
  rw [tokens_eq_cons (r := r) (by simp [hr]), List.cons_append]
  exact .returning hr hvalue hending

theorem heads_assignment (hr : r.current.kind = .ident) (hsign : r.peek.kind = .assign) :
    Heads r r.advance.advance (.assignment ⟨.assign, "="⟩ ⟨r.current, r.current.literal⟩) := by
  refine ⟨(Precedes.refl r).advance.advance, fun _ hvalue hending => ?_⟩
  rw [tokens_eq_cons (r := r) (by simp [hr]), behind_eq_cons (r := r) (by simp [hsign])]
  exact .assignment hr hsign hvalue hending

/-- The two declarations differ in their word and in the node they make. -/
theorem heads_declaration {word : TokenKind} (node : Token → Name → Node → Node)
    (hword : word ≠ .eof) (hr : r.current.kind = word) (hname : r.peek.kind = .ident)
    (hsign : r.advance.peek.kind = .assign)
    (hnode : ∀ t x a ts us rest value, t.kind = word → x.kind = .ident → a.kind = .assign →
      Reads (.expression .lowest value) ts us → Reads .ending us rest →
      Reads (.statement (node t ⟨x, x.literal⟩ value)) (t :: x :: a :: ts) rest) :
    Heads r r.advance.advance.advance (node r.current ⟨r.peek, r.peek.literal⟩) := by
  refine ⟨(Precedes.refl r).advance.advance.advance, fun _ hvalue hending => ?_⟩
  rw [tokens_eq_cons (r := r) (by rw [hr]; exact hword), behind_eq_cons (r := r) (by simp [hname]),
    behind_eq_cons (r := r.advance) (by simp [hsign])]
  exact hnode _ _ _ _ _ _ _ hr hname hsign hvalue hending

/-- How a statement is read: a loop in its own way, the others as an expression behind their heads.
-/
theorem meets_parseStatement {Q : Node → Reading → Prop}
    (hhead : ∀ s node, Heads r s node → (level.expression .lowest s).Meets
      (fun value t => (t.peek.kind = .semicolon → Q (node value) t.advance) ∧
        (t.peek.kind ≠ .semicolon → Q (node value) t)) fun _ => True)
    (hloop : (parseWhile level r).Meets Q fun _ => True) :
    (parseStatement level r).Meets Q fun _ => True := by
  simp only [parseStatement, parseLet, parseConst, parseReturn, parseAssignment, parseBinding,
    parseExpressionStatement, meets_bind, meets_current]
  cases hk : r.current.kind
  case letWord =>
    simp only [meets_bind, meets_current, meets_expect, meets_currentName, meets_advance,
      meets_skipSemicolon, meets_pure]
    refine ⟨fun hname => ⟨fun hsign => hhead _ _ ?_, fun _ => trivial⟩, fun _ => trivial⟩
    exact heads_declaration .letBinding (by decide) hk hname hsign
      fun _ _ _ _ _ _ _ hword hname hsign => .letBinding hword hname hsign
  case constWord =>
    simp only [meets_bind, meets_current, meets_expect, meets_currentName, meets_advance,
      meets_skipSemicolon, meets_pure]
    refine ⟨fun hname => ⟨fun hsign => hhead _ _ ?_, fun _ => trivial⟩, fun _ => trivial⟩
    exact heads_declaration .constBinding (by decide) hk hname hsign
      fun _ _ _ _ _ _ _ hword hname hsign => .constBinding hword hname hsign
  case returnWord =>
    simp only [meets_bind, meets_current, meets_advance, meets_skipSemicolon, meets_pure]
    exact hhead _ _ (heads_returning hk)
  case whileWord => exact hloop
  case ident =>
    simp only [meets_bind, meets_current, meets_peek, meets_ite, meets_expect, meets_currentName,
      meets_advance, meets_skipSemicolon, meets_pure]
    refine ⟨fun _ => ⟨fun hsign => ?_, fun _ => trivial⟩, fun hplain => ?_⟩
    · exact hhead _ _ (heads_assignment hk hsign)
    · exact hhead _ _ (heads_plain fun h => hplain h.2)
  all_goals
    simp only [meets_bind, meets_current, meets_skipSemicolon, meets_pure]
    exact hhead _ _ (heads_plain (by simp [hk]))

theorem stopsShort_while (hexpr : level.ReadsExpressions n) (hstmt : level.ReadsStatements n)
    (hn : r.tokens.length ≤ n + 1) : StopsShort (parseWhile level) r := by
  simp only [StopsShort, parseWhile, meets_bind, meets_current, meets_pure]
  refine (meets_condition hexpr hn).mono ?_ fun _ _ => trivial
  rintro condition s ⟨-, hs, -⟩
  have hsn := hs.length_le
  exact stopsShort_block hstmt (by omega)

/-- **A semicolon seals a statement.** If the reading of a statement stops at a semicolon, nothing
behind that semicolon changes it. -/
theorem seals_statement (hexpr : level.ReadsExpressions n) (hstmt : level.ReadsStatements n)
    (hshort : level.StopsShort n) (hn : r.tokens.length ≤ n) :
    (parseStatement level r).Meets
      (fun st s => s.current.Closes → Unbroken r.tokens → s.errors = [] →
        ∀ vs, Reads (.statement st) (r.tokens ++ vs) (s.behind ++ vs)) fun _ => True := by
  refine meets_parseStatement (fun s node hhead => ?_) ?_
  · have hsn := hhead.precedes.length_le
    refine ((hexpr .lowest s (by omega)).and (hshort .lowest s (by omega))).mono ?_ fun _ _ => trivial
    rintro value t ⟨hvalue, hstops⟩
    refine ⟨fun hsemi _ hunbroken hclean vs => ?_, fun _ hcloses => absurd hcloses hstops⟩
    have hbehind := behind_eq_cons (r := t) (by simp [hsemi])
    have hreads := hvalue.reads (hhead.precedes.unbroken hunbroken) hclean
    rw [hbehind] at hreads
    refine hhead.reads (List.cons_ne_nil _ _) (hreads.append (List.cons_ne_nil _ _) vs) ?_
    exact .semicolon hsemi
  · refine (stopsShort_while hexpr hstmt (by omega)).mono ?_ fun _ _ => trivial
    intro st s hstops hcloses
    exact absurd hcloses hstops

end

/-- Where the statements of a program end: the readings at their last tokens. -/
def statementEnds (level : Level) : Nat → Reading → List Reading
  | 0, _ => []
  | rounds + 1, r =>
    if r.current.kind = .eof then []
    else
      match level.statement r with
      | .done _ s | .refused s => s :: statementEnds level rounds s.advance
      | .exhausted => []

/-- The last statement of a text ends with a semicolon, and nothing stands behind it. -/
def EndsWithSemicolon (text : String) : Prop :=
  let tokens := tokenize text
  let level := Level.ofDepth (depthFor tokens.length)
  ((statementEnds level (tokens.length + 1) ⟨tokens, []⟩).getLast?.map
    fun s => s.tokens.map Token.kind) = some [.semicolon]

instance (text : String) : Decidable (EndsWithSemicolon text) :=
  inferInstanceAs (Decidable (_ = _))

theorem statementEnds_of_tokens_eq_nil {level : Level} {r : Reading} (rounds : Nat)
    (h : r.tokens = []) : statementEnds level rounds r = [] := by
  have hkind : r.current.kind = .eof := by simp [Reading.current, h, Token.eof]
  cases rounds with
  | zero => rfl
  | succ rounds => rw [statementEnds, if_pos hkind]

/-- A statement that the grammar reads is the next one to end. -/
theorem statementEnds_of_reads {depth : Nat} {st : Node} {us : List Token} {r : Reading}
    (first : Reads (.statement st) r.tokens us) (hdepth : 2 * r.tokens.length + 2 ≤ depth)
    (rounds : Nat) :
    ∃ s, (Level.ofDepth depth).statement r = .done st s ∧ r.Precedes s ∧ s.behind = us ∧
      s.errors = r.errors ∧ statementEnds (.ofDepth depth) (rounds + 1) r =
        s :: statementEnds (.ofDepth depth) rounds s.advance := by
  have hparses := (ofDepth_reads depth).2 r.tokens.length hdepth r (Nat.le_refl _)
  have hkind : r.current.kind ≠ .eof := first.begins_statement.2
  obtain ⟨_, s, houtcome, rfl, hbehind, herrors⟩ :=
    Outcome.Meets.exists_done (first.succeeds depth r hdepth rfl)
  rw [Parses, houtcome] at hparses
  refine ⟨s, houtcome, hparses.precedes, hbehind, herrors, ?_⟩
  rw [statementEnds, if_neg hkind, houtcome]

/-- A statement that ends at the last token, a semicolon, is sealed by it. -/
theorem reads_append_of_last {depth : Nat} {st : Node} {r s : Reading} (hunbroken : Unbroken r.tokens)
    (hdepth : 2 * r.tokens.length + 3 ≤ depth)
    (hcloses : ∀ t ∈ r.tokens, t.kind = .semicolon → t.Closes)
    (hdone : (Level.ofDepth depth).statement r = .done st s) (hprecedes : r.Precedes s)
    (hclean : s.errors = []) (hlast : s.tokens.map Token.kind = [.semicolon]) (vs : List Token) :
    Reads (.statement st) (r.tokens ++ vs) vs := by
  obtain ⟨depth, rfl⟩ : ∃ k, depth = k + 1 := ⟨depth - 1, by omega⟩
  obtain ⟨hexpr, hstmt⟩ := ofDepth_reads depth
  have hseals := seals_statement (r := r) (hexpr r.tokens.length (by omega))
    (hstmt r.tokens.length (by omega)) (ofDepth_stopsShort depth r.tokens.length (by omega))
    (Nat.le_refl _)
  rw [show parseStatement (.ofDepth depth) r = .done st s from hdone] at hseals
  obtain ⟨t, ht, hkind⟩ := List.map_eq_singleton_iff.mp hlast
  have hmem : t ∈ r.tokens := hprecedes.tokens.mem (by rw [ht]; exact List.mem_cons_self)
  have hcurrent : s.current = t := current_of_tokens ht
  have hreads := hseals (hcurrent ▸ hcloses t hmem hkind) hunbroken hclean vs
  rw [behind_of_tokens ht] at hreads
  exact hreads

/-- Statements whose last one ends with a semicolon are read as they are, whatever stands behind
them. -/
theorem reads_append_of_sealed {depth rounds : Nat} {ss : List Node} {r : Reading}
    (hreads : Reads (.statements ss) r.tokens []) (hunbroken : Unbroken r.tokens)
    (hclean : r.errors = []) (hdepth : 2 * r.tokens.length + 3 ≤ depth)
    (hcloses : ∀ t ∈ r.tokens, t.kind = .semicolon → t.Closes)
    (hends : ((statementEnds (.ofDepth depth) rounds r).getLast?.map
      fun s => s.tokens.map Token.kind) = some [.semicolon]) (vs : List Token) :
    Reads (.statements ss) (r.tokens ++ vs) vs := by
  induction ss generalizing r rounds with
  | nil =>
    have hnil : r.tokens = [] := by
      generalize r.tokens = ts at hreads
      cases hreads
      rfl
    rw [statementEnds_of_tokens_eq_nil rounds hnil] at hends
    cases hends
  | cons st ss ih =>
    cases rounds with
    | zero => cases hends
    | succ rounds =>
      cases hreads with
      | @oneStatement _ _ us _ _ first more =>
      have hdepth' : 2 * r.tokens.length + 2 ≤ depth := by omega
      obtain ⟨s, hdone, hprecedes, rfl, herrors, hcons⟩ :=
        statementEnds_of_reads first hdepth' rounds
      have hclean' : s.errors = [] := herrors.trans hclean
      rw [hcons] at hends
      cases hlater : statementEnds (.ofDepth depth) rounds s.advance with
      | nil =>
        -- nothing stands behind the statement, so it is the last one
        rw [hlater] at hends
        have hlast : s.tokens.map Token.kind = [.semicolon] := Option.some.inj hends
        obtain ⟨t, ht, -⟩ := List.map_eq_singleton_iff.mp hlast
        rw [behind_of_tokens ht] at more
        cases more with
        | noStatements =>
          refine .oneStatement ?_ .noStatements
          exact reads_append_of_last hunbroken hdepth hcloses hdone hprecedes hclean' hlast vs
        | oneStatement next _ => exact absurd next.length_le (by simp [Part.weight])
      | cons next later =>
        have hbehind : s.behind ≠ [] := by
          intro hnil
          rw [statementEnds_of_tokens_eq_nil rounds (r := s.advance) hnil] at hlater
          cases hlater
        rw [hlater, List.getLast?_cons_cons, ← hlater] at hends
        have hbefore : r.Precedes s.advance := hprecedes.advance
        have hlength := hbefore.length_le
        have hmore := ih (r := s.advance) more (hbefore.unbroken hunbroken) hclean' (by omega)
          (fun t ht => hcloses t (hbefore.tokens.mem ht)) hends
        exact .oneStatement (first.append hbehind vs) hmore

theorem suffix_of_mem_statementEnds {level : Level} {n : Nat} (hlevel : level.ReadsStatements n) :
    ∀ (rounds : Nat) (r : Reading), r.tokens.length ≤ n →
      ∀ s ∈ statementEnds level rounds r, s.tokens <:+ r.tokens := by
  intro rounds
  induction rounds with
  | zero => intro r _ s hs; cases hs
  | succ rounds ih =>
    intro r hn s hs
    have hparses := hlevel r hn
    -- a statement that is refused is passed like one that is read
    have hstep (t : Reading) (ht : r.Precedes t) (hs : s ∈ t :: statementEnds level rounds t.advance) :
        s.tokens <:+ r.tokens := by
      have hlength := ht.advance.length_le
      rcases List.mem_cons.mp hs with rfl | hs
      · exact ht.tokens
      · exact (ih t.advance (by omega) s hs).trans ht.advance.tokens
    unfold Parses at hparses
    rw [statementEnds] at hs
    split at hs
    · cases hs
    · cases houtcome : level.statement r with
      | done st t =>
        rw [houtcome] at hs hparses
        exact hstep t hparses.precedes hs
      | refused t =>
        rw [houtcome] at hs hparses
        exact hstep t hparses.precedes hs
      | exhausted =>
        rw [houtcome] at hs
        cases hs

/-! ## Programs -/

/-- The last token of a text whose last statement ends with a semicolon. -/
theorem EndsWithSemicolon.last {text : String} (h : EndsWithSemicolon text) :
    ∃ ts t, tokenize text = ts ++ [t] ∧ t.kind = .semicolon := by
  obtain ⟨s, hs, hlast⟩ := Option.map_eq_some_iff.mp h
  obtain ⟨t, ht, hkind⟩ := List.map_eq_singleton_iff.mp hlast
  have hlevel := (ofDepth_reads (depthFor (tokenize text).length)).2 (tokenize text).length
    (by rw [depthFor]; omega)
  obtain ⟨ts, hts⟩ := suffix_of_mem_statementEnds hlevel _ ⟨tokenize text, []⟩ (Nat.le_refl _) s
    (List.mem_of_getLast? hs)
  rw [ht] at hts
  exact ⟨ts, t, hts.symm, hkind⟩

theorem tokenize_joined {first : String} (second : String) (hend : EndsWithSemicolon first) :
    tokenize (first ++ "\n" ++ second) = tokenize first ++ tokenize second := by
  have hchars : (first ++ "\n" ++ second).toList = first.toList ++ '\n' :: second.toList := by
    rw [String.toList_append, String.toList_append, List.append_assoc]
    rfl
  show tokensOf (first ++ "\n" ++ second).toList = _
  rw [hchars]
  refine tokensOf_append second.toList fun ts t hts => ?_
  obtain ⟨ts', t', hts', hkind⟩ := hend.last
  obtain ⟨-, hsame⟩ := List.append_inj' (hts'.symm.trans hts) rfl
  obtain rfl : t' = t := by simpa using hsame
  rw [hkind]
  decide

/-- **A text that ends with a semicolon and the lines behind it** are read one after the other. -/
theorem parse_joined {first second : String} (hnull : '\x00' ∉ first.toList)
    (hnull' : '\x00' ∉ second.toList) (hclean : (parse first).errors = [])
    (hclean' : (parse second).errors = []) (hend : EndsWithSemicolon first) :
    parse (first ++ "\n" ++ second) =
      ⟨(parse first).statements ++ (parse second).statements, []⟩ := by
  have hfirst := reads_parseTokens (unbroken_tokenize hnull) hclean
  have hsecond := reads_parseTokens (unbroken_tokenize hnull') hclean'
  have hdepth : 2 * (tokenize first).length + 3 ≤ depthFor (tokenize first).length := by
    rw [depthFor]
    omega
  have hsealed := reads_append_of_sealed (r := ⟨tokenize first, []⟩) hfirst (unbroken_tokenize hnull)
    rfl hdepth (fun t => closes_of_mem_tokenize) hend (tokenize second)
  rw [parse, tokenize_joined second hend]
  exact parseTokens_of_reads (hsealed.statements_append hsecond) rfl

section

variable {step : Node → Eval (Option Value)} {m m' : Machine}

/-- Statements that none of which ends the program are a program of their own in front of the
others. -/
theorem evaluateProgram_append {earlier later : List Node} (h : Passes step earlier m m')
    (hlater : later ≠ []) :
    evaluateProgram step none (earlier ++ later) m =
      (do
        let _ ← evaluateProgram step none earlier
        evaluateProgram step none later) m := by
  obtain ⟨s, later, rfl⟩ := List.exists_cons_of_ne_nil hlater
  obtain ⟨last, hearlier⟩ := evaluateProgram_of_passes h [] none
  obtain ⟨last', hwhole⟩ := evaluateProgram_of_passes h (s :: later) none
  rw [List.append_nil] at hearlier
  rw [hwhole, Eval.bind_ok _ hearlier, evaluateProgram_cons, evaluateProgram_cons]

end

/-- **Running piecewise is running at once.** Two texts that are read without an error are read alike
as one text, if the last statement of the first one ends with a semicolon at its end. If moreover no
statement of the first text ends its program and there is a statement in the second one, the evaluation
of both in one is the evaluation of the first and then of the second, in the same scope: the same
result or halt, in the same state of the machine. -/
theorem evaluate_joined (first second : String) (hnull : '\x00' ∉ first.toList)
    (hnull' : '\x00' ∉ second.toList) (hclean : (parse first).errors = [])
    (hclean' : (parse second).errors = []) (hend : EndsWithSemicolon first) :
    parse (first ++ "\n" ++ second) =
        ⟨(parse first).statements ++ (parse second).statements, []⟩ ∧
      ∀ depth scope m m', Passes (fun s => evaluate depth s scope) (parse first).statements m m' →
        (parse second).statements ≠ [] →
        evaluate (depth + 1) (parse (first ++ "\n" ++ second)).tree scope m =
          (do
            let _ ← evaluate (depth + 1) (parse first).tree scope
            evaluate (depth + 1) (parse second).tree scope) m := by
  have hparse := parse_joined hnull hnull' hclean hclean' hend
  refine ⟨hparse, fun depth scope m m' hpasses hlater => ?_⟩
  rw [hparse]
  exact evaluateProgram_append hpasses hlater

/-- The body of `fn(n) { puts("f"); n + 1 }`. -/
def announced : Node :=
  .block ⟨.lbrace, "\x7b"⟩
    [.statement ⟨.ident, "puts"⟩ (.call ⟨.lparen, "("⟩ (.identifier ⟨⟨.ident, "puts"⟩, "puts"⟩)
      [.string ⟨.string, "f"⟩ "f"]),
     .statement ⟨.ident, "n"⟩ (.infixOp ⟨.plus, "+"⟩ "+" (.identifier ⟨⟨.ident, "n"⟩, "n"⟩)
       (.integer ⟨.int, "1"⟩ 1))]

/-- The statement `let f = fn(n) { puts("f"); n + 1 };`. -/
def letF : Node :=
  .letBinding ⟨.letWord, "let"⟩ ⟨⟨.ident, "f"⟩, "f"⟩
    (.function ⟨.function, "fn"⟩ [⟨⟨.ident, "n"⟩, "n"⟩] announced)

/-- The statement `let y = f(1);`. -/
def letY : Node :=
  .letBinding ⟨.letWord, "let"⟩ ⟨⟨.ident, "y"⟩, "y"⟩
    (.call ⟨.lparen, "("⟩ (.identifier ⟨⟨.ident, "f"⟩, "f"⟩) [.integer ⟨.int, "1"⟩ 1])

theorem passes_letF_letY :
    let f : Binding := ⟨"f", false, .function 0 [⟨⟨.ident, "n"⟩, "n"⟩] announced 0⟩
    let y : Binding := ⟨"y", false, .int 2⟩
    let n : Binding := ⟨"n", false, .int 1⟩
    Passes (fun s => evaluate 9 s 0) [letF, letY] (.start [])
      ⟨#[⟨none, [f, y]⟩, ⟨some 0, [n]⟩], 1, [], #[.line "f"]⟩ := by
  intro f y n
  have hlet : evaluate 9 letF 0 (.start []) = .ok none ⟨#[⟨none, [f]⟩], 1, [], #[]⟩ := by cbv
  have hcall : evaluate 9 letY 0 ⟨#[⟨none, [f]⟩], 1, [], #[]⟩ =
      .ok none ⟨#[⟨none, [f, y]⟩, ⟨some 0, [n]⟩], 1, [], #[.line "f"]⟩ := by cbv
  exact .cons hlet (by decide) (.cons hcall (by decide) .nil)

/-- A first text that declares a function and calls it, and a second one that calls it again: behind a
semicolon they are one program. -/
theorem evaluate_joined_letF_letY :
    let first := "let f = fn(n) \x7b puts(\"f\"); n + 1 \x7d;\nlet y = f(1);"
    let second := "y = f(y); y * 2"
    ('\x00' ∉ first.toList ∧ '\x00' ∉ second.toList ∧ (parse first).errors = [] ∧
      (parse second).errors = [] ∧ EndsWithSemicolon first) ∧
    (∃ m, Passes (fun s => evaluate 9 s 0) (parse first).statements (.start []) m) ∧
    (parse second).statements ≠ [] ∧
    parse (first ++ "\n" ++ second) =
      ⟨(parse first).statements ++ (parse second).statements, []⟩ ∧
    evaluate 10 (parse (first ++ "\n" ++ second)).tree 0 (.start []) =
      (do
        let _ ← evaluate 10 (parse first).tree 0
        evaluate 10 (parse second).tree 0) (.start []) := by
  intro first second
  have hnull : '\x00' ∉ first.toList := by decide
  have hnull' : '\x00' ∉ second.toList := by decide
  have hclean : (parse first).errors = [] := by decide +kernel
  have hclean' : (parse second).errors = [] := by decide +kernel
  have hend : EndsWithSemicolon first := by decide +kernel
  have hstatements : (parse first).statements = [letF, letY] := by cbv
  have hlater : (parse second).statements ≠ [] := by
    have hcount : (parse second).statements.length = 2 := by decide +kernel
    exact List.ne_nil_of_length_pos (by rw [hcount]; decide)
  have hpasses := passes_letF_letY
  rw [← hstatements] at hpasses
  obtain ⟨hparse, hevaluate⟩ := evaluate_joined first second hnull hnull' hclean hclean' hend
  exact ⟨⟨hnull, hnull', hclean, hclean', hend⟩, ⟨_, hpasses⟩, hlater, hparse,
    hevaluate 9 0 _ _ hpasses hlater⟩

end Monkey
