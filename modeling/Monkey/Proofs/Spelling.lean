import Monkey.Proofs.Render

/-!
# From texts to tokens, piece by piece

`Spells cs ts` says that the characters `cs` are read as the tokens `ts`, whatever follows them that
can not be taken for more of the last name or number. Pieces are put together to longer ones: a sign
stands alone, a run of digits or letters reaches as far as it goes, and blanks count for nothing.

* `tokensOf_of_lexes` — the token that characters begin with, whatever stands behind it.
* `tokenize_of_spells`, `parse_of_spells` — the tokens and the tree of a text that is put together
  like that.
* `Numeral.readInt?_digits` — digits are read as the number they stand for.
-/

namespace Monkey

open Text

/-! ## Classes of characters -/

/-- A code point lies in one of the ranges. -/
def LiesIn (ranges : List (Nat × Nat)) (n : Nat) : Prop :=
  ∃ range ∈ ranges, range.1 ≤ n ∧ n ≤ range.2

/-- Whether no code point lies in ranges of both lists. -/
def areApart (ranges ranges' : List (Nat × Nat)) : Bool :=
  ranges.all fun range => ranges'.all fun range' => range.2.blt range'.1 || range'.2.blt range.1

/-- What lies in one of two lists of ranges that are apart does not lie in the other. -/
theorem not_liesIn_of_areApart {ranges ranges' : List (Nat × Nat)} {n : Nat}
    (h : areApart ranges ranges') (hn : LiesIn ranges n) : ¬LiesIn ranges' n := by
  rintro ⟨range', hrange', hn'⟩
  obtain ⟨range, hrange, hn⟩ := hn
  have happart := List.all_eq_true.mp (List.all_eq_true.mp h range hrange) range' hrange'
  simp only [Bool.or_eq_true, Nat.blt_eq] at happart
  omega

theorem liesIn_of_inRanges {ranges : List (Nat × Nat)} {n : Nat} (h : inRanges ranges n) :
    LiesIn ranges n := by
  induction ranges with
  | nil => cases h
  | cons range ranges ih =>
    rw [inRanges] at h
    split at h
    · cases h
    split at h
    · exact ⟨range, List.mem_cons_self, by omega⟩
    · obtain ⟨later, hlater, hn⟩ := ih h
      exact ⟨later, List.mem_cons_of_mem _ hlater, hn⟩

/-- Ten digits stand behind each zero. -/
theorem liesIn_of_decimalValueIn {zeros : List Nat} {n : Nat} (h : (decimalValueIn zeros n).isSome) :
    LiesIn (zeros.map fun first => (first, first + 9)) n := by
  induction zeros with
  | nil => cases h
  | cons first zeros ih =>
    rw [decimalValueIn] at h
    split at h
    · cases h
    split at h
    · exact ⟨(first, first + 9), List.mem_cons_self, by dsimp only; omega⟩
    · obtain ⟨later, hlater, hn⟩ := ih h
      exact ⟨later, List.mem_cons_of_mem _ hlater, hn⟩

/-- The code points of the characters of names. -/
def nameRanges : List (Nat × Nat) := (0x41, 0x5A) :: (0x5F, 0x5F) :: (0x61, 0x7A) :: letterRanges

/-- The code points of digits. -/
def digitRanges : List (Nat × Nat) :=
  (decimalZeros.map fun first => (first, first + 9)) ++ digitSignRanges

theorem liesIn_of_isNameChar {c : Char} (h : isNameChar c) : LiesIn nameRanges c.toNat := by
  simp only [isNameChar, isLetter, isAsciiLetter, Bool.or_eq_true, Bool.and_eq_true,
    decide_eq_true_eq, beq_iff_eq] at h
  rcases h with ((⟨hlow, hhigh⟩ | ⟨hlow, hhigh⟩) | ⟨-, hletter⟩) | rfl
  · exact ⟨(0x61, 0x7A), by simp [nameRanges], hlow, hhigh⟩
  · exact ⟨(0x41, 0x5A), by simp [nameRanges], hlow, hhigh⟩
  · obtain ⟨range, hrange, hc⟩ := liesIn_of_inRanges hletter
    exact ⟨range, by simp [nameRanges, hrange], hc⟩
  · exact ⟨(0x5F, 0x5F), by simp [nameRanges], by decide⟩

theorem liesIn_of_isDigit {c : Char} (h : isDigit c) : LiesIn digitRanges c.toNat := by
  simp only [isDigit, decimalValue?, Bool.or_eq_true, Bool.and_eq_true] at h
  rcases h with hvalue | ⟨-, hsign⟩
  · obtain ⟨range, hrange, hc⟩ := liesIn_of_decimalValueIn hvalue
    exact ⟨range, List.mem_append_left _ hrange, hc⟩
  · obtain ⟨range, hrange, hc⟩ := liesIn_of_inRanges hsign
    exact ⟨range, List.mem_append_right _ hrange, hc⟩

/-- No character of a name is a blank. -/
theorem not_isBlank_of_isNameChar {c : Char} (h : isNameChar c) : ¬isBlank c := fun hblank =>
  not_liesIn_of_areApart (by decide +kernel) (liesIn_of_isNameChar h) (liesIn_of_inRanges hblank)

theorem not_isBlank_of_isDigit {c : Char} (h : isDigit c) : ¬isBlank c := fun hblank =>
  not_liesIn_of_areApart (by decide +kernel) (liesIn_of_isDigit h) (liesIn_of_inRanges hblank)

/-- No digit is a character of a name. -/
theorem not_isNameChar_of_isDigit {c : Char} (h : isDigit c) : ¬isNameChar c := fun hname =>
  not_liesIn_of_areApart (by decide +kernel) (liesIn_of_isDigit h) (liesIn_of_isNameChar hname)

/-! ## Tokens and where they are read -/

namespace Cursor

variable {c c' : Cursor}

/-- What is read does not depend on the position in the text. -/
theorem tokenAt_congr (ch : Char) (h : c.rest = c'.rest) :
    (c.tokenAt ch).1 = (c'.tokenAt ch).1 ∧ (c.tokenAt ch).2.rest = (c'.tokenAt ch).2.rest := by
  unfold tokenAt readString readName readNumber readWhile skipWhile advance peek?
  rw [h]
  split
  · exact ⟨rfl, rfl⟩
  split
  · exact ⟨rfl, rfl⟩
  split
  · exact ⟨rfl, rfl⟩
  split
  · exact ⟨rfl, rfl⟩
  split
  · exact ⟨rfl, rfl⟩
  split <;> exact ⟨rfl, rfl⟩

/-- Blanks in front make no difference. -/
theorem tokens_congr (h : c.skipBlanks.rest = c'.skipBlanks.rest) : c.tokens = c'.tokens := by
  fun_induction tokens c generalizing c' with
  | case1 c hend =>
    rw [tokens, if_pos (h ▸ hend)]
  | case2 c hrest ih =>
    have hcurrent : c.skipBlanks.current = c'.skipBlanks.current := by rw [current, current, h]
    obtain ⟨htoken, hbehind⟩ := tokenAt_congr c.skipBlanks.current h
    rw [tokens.eq_def c', if_neg (h ▸ hrest), next, next, ← hcurrent, ← htoken]
    have hblanks : c.next.2.skipBlanks.rest =
        (c'.skipBlanks.tokenAt c.skipBlanks.current).2.skipBlanks.rest := by
      show List.dropWhile isBlank _ = List.dropWhile isBlank _
      rw [← hbehind, next]
    rw [← ih hblanks, next]

end Cursor

/-- The tokens of characters. -/
def tokensOf (cs : List Char) : List Token := (Cursor.mk 0 cs).tokens

theorem Cursor.tokens_eq_tokensOf (c : Cursor) : c.tokens = tokensOf c.rest :=
  tokens_congr rfl

theorem tokensOf_nil : tokensOf [] = [] := by
  rw [tokensOf, Cursor.tokens]
  exact if_pos rfl

/-- A blank is skipped. -/
theorem tokensOf_blank {ch : Char} (h : isBlank ch) (cs : List Char) :
    tokensOf (ch :: cs) = tokensOf cs := by
  refine Cursor.tokens_congr ?_
  show (ch :: cs).dropWhile isBlank = cs.dropWhile isBlank
  rw [List.dropWhile_cons_of_pos h]

/-- At a character that is no blank a token is read. -/
theorem tokensOf_cons {ch : Char} (h : ¬isBlank ch) (cs : List Char) :
    tokensOf (ch :: cs) = ((Cursor.mk 0 (ch :: cs)).tokenAt ch).1 ::
      tokensOf ((Cursor.mk 0 (ch :: cs)).tokenAt ch).2.rest := by
  have hskip : (Cursor.mk 0 (ch :: cs)).skipBlanks = Cursor.mk 0 (ch :: cs) := by
    simp [Cursor.skipBlanks, Cursor.skipWhile, h]
  rw [tokensOf, Cursor.tokens, hskip, if_neg (List.cons_ne_nil _ _), Cursor.next, hskip,
    Cursor.tokens_eq_tokensOf]
  rfl

/-! ## One token -/

/-- A character that can go on a name or a number. -/
def isWordChar (c : Char) : Bool := isNameChar c || isDigit c

theorem isWordChar_of_isNameChar (c : Char) (h : isNameChar c) : isWordChar c := by
  rw [isWordChar, h, Bool.true_or]

theorem isWordChar_of_isDigit (c : Char) (h : isDigit c) : isWordChar c := by
  rw [isWordChar, h, Bool.or_true]

/-- No character of a word begins a token of another kind. -/
theorem ne_of_isWordChar {c : Char} (h : isWordChar c) :
    c ≠ '\x00' ∧ c ≠ '=' ∧ c ≠ '!' ∧ c ≠ '"' := by
  refine ⟨?_, ?_, ?_, ?_⟩ <;> rintro rfl <;> exact absurd h (by decide)

/-- The characters begin with a token, and `rest` stands behind it. A word or a number reaches as
far as it goes, and `==` and `!=` come before `=` and `!`. -/
inductive Lexes : List Char → Token → List Char → Prop where
  | word (nonempty : cs ≠ []) (letters : ∀ c ∈ cs, isNameChar c)
      (ends : ∀ c ∈ rest.head?, ¬isNameChar c) :
      Lexes (cs ++ rest) ⟨.ofWord (String.ofList cs), String.ofList cs⟩ rest
  | number (nonempty : cs ≠ []) (digits : ∀ c ∈ cs, isDigit c)
      (ends : ∀ c ∈ rest.head?, ¬isDigit c) :
      Lexes (cs ++ rest) ⟨.int, String.ofList cs⟩ rest
  | string (inside : ∀ c ∈ cs, isStringChar c) :
      Lexes ('"' :: cs ++ '"' :: rest) ⟨.string, String.ofList cs⟩ rest
  /-- A string that is not closed reaches to the end. -/
  | openString (inside : ∀ c ∈ cs, isStringChar c) :
      Lexes ('"' :: cs) ⟨.string, String.ofList cs⟩ []
  | eq : Lexes ('=' :: '=' :: rest) TokenKind.eq.sign rest
  | notEq : Lexes ('!' :: '=' :: rest) TokenKind.notEq.sign rest
  /-- Any other character is a token of its own. -/
  | single (visible : ¬isBlank ch ∧ ch ≠ '\x00') (apart : ¬isWordChar ch ∧ ch ≠ '"')
      (alone : ch = '=' ∨ ch = '!' → rest.head? ≠ some '=') :
      Lexes (ch :: rest) ⟨(TokenKind.ofSymbol? ch).getD .illegal, ch.toString⟩ rest

/-- A run of characters ends at the first one that does not belong to it. -/
theorem run_eq {p : Char → Bool} {cs rest : List Char} (hcs : ∀ c ∈ cs, p c)
    (hend : ∀ c ∈ rest.head?, ¬p c) :
    (cs ++ rest).takeWhile p = cs ∧ (cs ++ rest).dropWhile p = rest := by
  rw [List.takeWhile_append_of_pos hcs, List.dropWhile_append_of_pos hcs]
  cases rest with
  | nil => simp
  | cons c rest =>
    have hc : ¬p c := hend c rfl
    rw [List.takeWhile_cons_of_neg hc, List.dropWhile_cons_of_neg hc, List.append_nil]
    exact ⟨rfl, rfl⟩

/-- At a character of a word the lexer reads a run of letters or digits. -/
theorem tokensOf_cons_of_isWordChar {ch : Char} (h : isWordChar ch) (cs : List Char) :
    tokensOf (ch :: cs) =
      if isNameChar ch then
        ⟨.ofWord (String.ofList ((ch :: cs).takeWhile isNameChar)),
          String.ofList ((ch :: cs).takeWhile isNameChar)⟩ ::
          tokensOf ((ch :: cs).dropWhile isNameChar)
      else
        ⟨.int, String.ofList ((ch :: cs).takeWhile isDigit)⟩ ::
          tokensOf ((ch :: cs).dropWhile isDigit) := by
  have hblank : ¬isBlank ch := by
    rcases Bool.or_eq_true_iff.mp h with hname | hdigit
    · exact not_isBlank_of_isNameChar hname
    · exact not_isBlank_of_isDigit hdigit
  obtain ⟨hnull, hassign, hbang, hquote⟩ := ne_of_isWordChar h
  rw [tokensOf_cons hblank, Cursor.tokenAt, if_neg hnull, if_neg (fun h => hassign h.1),
    if_neg (fun h => hbang h.1), if_neg hquote]
  by_cases hname : isNameChar ch
  · rw [if_pos hname, if_pos hname]
    rfl
  · have hdigit : isDigit ch := (Bool.or_eq_true_iff.mp h).resolve_left hname
    rw [if_neg hname, if_neg hname, if_pos hdigit]
    rfl

/-- **The lexer reads the token that characters begin with.** -/
theorem tokensOf_of_lexes {cs rest : List Char} {t : Token} (h : Lexes cs t rest) :
    tokensOf cs = t :: tokensOf rest := by
  cases h with
  | @word cs _ nonempty letters ends =>
    obtain ⟨ch, tail, rfl⟩ := List.exists_cons_of_ne_nil nonempty
    have hch := letters ch List.mem_cons_self
    obtain ⟨htake, hdrop⟩ := run_eq letters ends
    rw [List.cons_append] at htake hdrop ⊢
    rw [tokensOf_cons_of_isWordChar (isWordChar_of_isNameChar ch hch), if_pos hch, htake, hdrop]
  | @number cs _ nonempty digits ends =>
    obtain ⟨ch, tail, rfl⟩ := List.exists_cons_of_ne_nil nonempty
    have hch := digits ch List.mem_cons_self
    obtain ⟨htake, hdrop⟩ := run_eq digits ends
    rw [List.cons_append] at htake hdrop ⊢
    rw [tokensOf_cons_of_isWordChar (isWordChar_of_isDigit ch hch),
      if_neg (not_isNameChar_of_isDigit hch), htake, hdrop]
  | @string cs _ inside =>
    have hquote : ∀ c ∈ ('"' :: rest).head?, ¬isStringChar c := by
      rintro c ⟨⟩
      decide
    obtain ⟨htake, hdrop⟩ := run_eq inside hquote
    rw [List.cons_append, tokensOf_cons (by decide)]
    show ⟨.string, String.ofList ((cs ++ '"' :: rest).takeWhile isStringChar)⟩ ::
      tokensOf ((cs ++ '"' :: rest).dropWhile isStringChar).tail = _
    rw [htake, hdrop, List.tail_cons]
  | @openString cs inside =>
    have hend : ∀ c ∈ ([] : List Char).head?, ¬isStringChar c := fun c hc => by cases hc
    obtain ⟨htake, hdrop⟩ := run_eq inside hend
    rw [List.append_nil] at htake hdrop
    rw [tokensOf_cons (by decide)]
    show ⟨.string, String.ofList (cs.takeWhile isStringChar)⟩ ::
      tokensOf (cs.dropWhile isStringChar).tail = _
    rw [htake, hdrop, List.tail_nil]
  | eq | notEq =>
    rw [tokensOf_cons (by decide)]
    rfl
  | @single ch _ visible apart alone =>
    obtain ⟨hname, hdigit⟩ : ¬isNameChar ch ∧ ¬isDigit ch := by simpa [isWordChar] using apart.1
    rw [tokensOf_cons visible.1, Cursor.tokenAt, if_neg visible.2,
      if_neg (fun h => alone (.inl h.1) h.2), if_neg (fun h => alone (.inr h.1) h.2),
      if_neg apart.2, if_neg hname, if_neg hdigit]
    rfl

/-! ## Pieces of a text -/

/-- The first character, if there is one, does not go on a name or a number. -/
def Delimited (cs : List Char) : Prop := ∀ c ∈ cs.head?, ¬isWordChar c

/-- The characters are read as the tokens, whatever follows that is set off from them. -/
def Spells (cs : List Char) (ts : List Token) : Prop :=
  ∀ rest, Delimited rest → tokensOf (cs ++ rest) = ts ++ tokensOf rest

theorem Delimited.nil : Delimited [] := fun c hc => by cases hc

/-- A character that belongs to no word ends the one in front of it. -/
theorem Delimited.cons {c : Char} (h : ¬isWordChar c) (cs : List Char) : Delimited (c :: cs) := by
  rintro c' ⟨⟩
  exact h

/-- No run of letters or digits goes on there. -/
theorem Delimited.ends {p : Char → Bool} {rest : List Char} (hrest : Delimited rest)
    (hp : ∀ c, p c → isWordChar c) : ∀ c ∈ rest.head?, ¬p c :=
  fun c hc h => hrest c hc (hp c h)

/-- Whether a character is a token of its own, whatever stands behind it. -/
def standsAlone (ch : Char) : Bool :=
  !isBlank ch && !isWordChar ch && ch != '\x00' && ch != '=' && ch != '!' && ch != '"'

/-- Whether a character is the whole sign of a kind. -/
def TokenKind.isWritten (kind : TokenKind) (ch : Char) : Bool :=
  standsAlone ch && ofSymbol? ch = some kind && ch.toString = kind.mark

/-- A sign belongs to no word. -/
theorem not_isWordChar_of_isWritten {kind : TokenKind} {ch : Char} (h : kind.isWritten ch) :
    ¬isWordChar ch := by
  simp only [TokenKind.isWritten, standsAlone, Bool.and_eq_true, Bool.not_eq_true'] at h
  simp [h]

/-- A sign of one character is a token, whatever stands behind it. -/
theorem tokensOf_sign {kind : TokenKind} {ch : Char} (h : kind.isWritten ch) (cs : List Char) :
    tokensOf (ch :: cs) = kind.sign :: tokensOf cs := by
  simp only [TokenKind.isWritten, standsAlone, Bool.and_eq_true, Bool.not_eq_true', bne_iff_ne,
    ne_eq, decide_eq_true_eq] at h
  obtain ⟨⟨⟨⟨⟨⟨⟨hblank, hword⟩, hnull⟩, hassign⟩, hbang⟩, hquote⟩, hkind⟩, hmark⟩ := h
  have hlexes : Lexes (ch :: cs) ⟨(TokenKind.ofSymbol? ch).getD .illegal, ch.toString⟩ cs :=
    .single ⟨by simp [hblank], hnull⟩ ⟨by simp [hword], hquote⟩ fun h => (h.elim hassign hbang).elim
  rw [tokensOf_of_lexes hlexes, hkind, hmark]
  rfl

/-- The sign `!` stands alone, unless an equality sign follows. -/
theorem tokensOf_bang {ch : Char} (h : ch ≠ '=') (cs : List Char) :
    tokensOf ('!' :: ch :: cs) = TokenKind.bang.sign :: tokensOf (ch :: cs) :=
  tokensOf_of_lexes (.single (by decide) (by decide) fun _ hnext => h (Option.some.inj hnext))

theorem tokensOf_eq (cs : List Char) :
    tokensOf ('=' :: '=' :: cs) = TokenKind.eq.sign :: tokensOf cs := tokensOf_of_lexes .eq

theorem tokensOf_notEq (cs : List Char) :
    tokensOf ('!' :: '=' :: cs) = TokenKind.notEq.sign :: tokensOf cs := tokensOf_of_lexes .notEq

/-- No expression begins with an equality sign. -/
theorem not_beginsExpression_tokensOf (cs : List Char) :
    ¬(nextKind (tokensOf ('=' :: cs))).beginsExpression := by
  rw [tokensOf_cons (by decide), nextKind_cons, Cursor.tokenAt, if_neg (by decide)]
  split
  · exact Bool.false_ne_true
  · rw [if_neg fun h => absurd h.1 (by decide)]
    exact Bool.false_ne_true

namespace Spells

variable {cs cs' : List Char} {ts ts' : List Token} {ch : Char}

protected theorem nil : Spells [] [] := fun _ _ => rfl

/-- A sign in front. -/
theorem sign {kind : TokenKind} (hch : kind.isWritten ch) (h : Spells cs ts) :
    Spells (ch :: cs) (kind.sign :: ts) := by
  intro rest hrest
  rw [List.cons_append, tokensOf_sign hch, h rest hrest]
  rfl

/-- A blank in front. -/
theorem blank (hch : isBlank ch) (h : Spells cs ts) : Spells (ch :: cs) ts := by
  intro rest hrest
  rw [List.cons_append, tokensOf_blank hch, h rest hrest]

/-- An exclamation mark is a sign of its own unless `=` stands behind it. -/
theorem bang (hch : ch ≠ '=') (h : Spells (ch :: cs) ts) :
    Spells ('!' :: ch :: cs) (TokenKind.bang.sign :: ts) := by
  intro rest hrest
  have hpiece := h rest hrest
  rw [List.cons_append] at hpiece ⊢
  rw [List.cons_append, tokensOf_bang hch, hpiece, List.cons_append]

/-- An operator between two expressions. -/
theorem operator {kind : TokenKind} (hkind : kind.isInfixOperator) (h : Spells cs ts) :
    Spells (kind.mark.toList ++ cs) (kind.sign :: ts) := by
  cases kind with
  | plus | minus | asterisk | slash | modulo | lt | gt => exact h.sign (by decide)
  | eq =>
    intro rest hrest
    exact (tokensOf_eq _).trans (congrArg _ (h rest hrest))
  | notEq =>
    intro rest hrest
    exact (tokensOf_notEq _).trans (congrArg _ (h rest hrest))
  | _ => cases hkind

/-- Behind a piece another one may follow that is set off from it. -/
theorem append (h : Spells cs ts) (h' : Spells (ch :: cs') ts') (hch : ¬isWordChar ch) :
    Spells (cs ++ ch :: cs') (ts ++ ts') := by
  intro rest hrest
  have hnext : Delimited (ch :: cs' ++ rest) := .cons hch _
  rw [List.append_assoc, h _ hnext, h' rest hrest, List.append_assoc]

/-- A piece between two signs. -/
theorem enclosed {opening closing : TokenKind} {l r : Char} (hl : opening.isWritten l)
    (hr : closing.isWritten r) (h : Spells cs ts) :
    Spells (l :: cs ++ [r]) (opening.sign :: ts ++ [closing.sign]) := by
  have hclosing : Spells [r] [closing.sign] := Spells.nil.sign hr
  exact (h.append hclosing (not_isWordChar_of_isWritten hr)).sign hl

theorem parenthesized (h : Spells cs ts) :
    Spells ('(' :: cs ++ [')']) (TokenKind.lparen.sign :: ts ++ [TokenKind.rparen.sign]) :=
  h.enclosed (by decide) (by decide)

theorem bracketed (h : Spells cs ts) :
    Spells ('[' :: cs ++ [']']) (TokenKind.lbracket.sign :: ts ++ [TokenKind.rbracket.sign]) :=
  h.enclosed (by decide) (by decide)

theorem braced (h : Spells cs ts) :
    Spells ('\x7b' :: cs ++ ['\x7d']) (TokenKind.lbrace.sign :: ts ++ [TokenKind.rbrace.sign]) :=
  h.enclosed (by decide) (by decide)

/-- A run of digits is a number. -/
theorem digits (hne : cs ≠ []) (hcs : ∀ c ∈ cs, isDigit c) :
    Spells cs [⟨.int, String.ofList cs⟩] := by
  intro rest hrest
  exact tokensOf_of_lexes (.number hne hcs (hrest.ends isWordChar_of_isDigit))

/-- A run of letters is a word. -/
theorem word (hne : cs ≠ []) (hcs : ∀ c ∈ cs, isNameChar c) :
    Spells cs [⟨.ofWord (String.ofList cs), String.ofList cs⟩] := by
  intro rest hrest
  exact tokensOf_of_lexes (.word hne hcs (hrest.ends isWordChar_of_isNameChar))

/-- A word is one token. -/
theorem wordText {word : String} (hne : word.toList ≠ []) (hword : word.toList.all isNameChar) :
    Spells word.toList [⟨.ofWord word, word⟩] := by
  have hspells := Spells.word hne (List.all_eq_true.mp hword)
  rw [String.ofList_toList] at hspells
  exact hspells

/-- A row of digits is one token. -/
theorem digitsText {numeral : String} (hne : numeral.toList ≠ [])
    (hdigits : numeral.toList.all isDigit) : Spells numeral.toList [⟨.int, numeral⟩] := by
  have hspells := Spells.digits hne (List.all_eq_true.mp hdigits)
  rw [String.ofList_toList] at hspells
  exact hspells

end Spells

/-- Pieces with commas between them. -/
theorem Spells.commas {parts : List (List Char × List Token)}
    (h : ∀ part ∈ parts, Spells part.1 part.2) :
    Spells (List.intercalate [',', ' '] (parts.map Prod.fst))
      (withCommas (parts.map Prod.snd)) := by
  induction parts with
  | nil => exact .nil
  | cons part parts ih =>
    obtain ⟨hpart, hparts⟩ := List.forall_mem_cons.mp h
    cases parts with
    | nil =>
      simp only [withCommas, List.map_cons, List.map_nil, List.intercalate_singleton]
      exact hpart
    | cons next parts =>
      have hblank : Spells (' ' :: _) _ := (ih hparts).blank (by decide)
      have hcomma : Spells (',' :: _) (TokenKind.comma.sign :: _) := hblank.sign (by decide)
      simp only [List.map_cons] at hcomma ⊢
      rw [List.intercalate_cons_cons, withCommas_cons_cons, List.append_assoc]
      exact hpart.append hcomma (by decide)

/-- **The tokens of a text.** -/
theorem tokenize_of_spells {text : String} {ts : List Token} (h : Spells text.toList ts) :
    tokenize text = ts := by
  have htokens := h [] .nil
  rw [List.append_nil, tokensOf_nil, List.append_nil] at htokens
  exact htokens

/-- No assignment is an expression: nothing extends a name at an equality sign. -/
theorem Reads.not_assignment {context : Precedence} {e : Node} {t : Token} {ts : List Token}
    (h : Reads (.expression context e) (t :: ts) []) :
    ¬(t.kind = .ident ∧ nextKind ts = .assign) := by
  rintro ⟨hname, hassign⟩
  cases h with
  | expression first more =>
    cases first with
    | identifier =>
      cases more with
      | unextended => cases hassign
      | extended tight =>
        rw [hassign] at tight
        exact absurd tight (Nat.not_lt_zero _)
    | integer kind | float kind | floatAtEnd kind | boolean kind | string kind | group kind
    | prefixOp kind | ifThen kind | ifElse kind | function kind | array kind | dictionary kind =>
      rw [hname] at kind
      cases kind

/-- **The program of an expression.** A text that is one expression is read as one statement. -/
theorem parse_of_spells {text : String} {ts : List Token} {e : Node}
    (hspells : Spells text.toList ts) (hreads : Reads (.expression .lowest e) ts []) :
    parse text = ⟨[.statement (ts.headD .eof) e], []⟩ := by
  rw [parse, tokenize_of_spells hspells]
  cases ts with
  | nil => exact absurd hreads.begins (by decide)
  | cons t ts =>
    have hstatement := Reads.statement hreads.not_assignment hreads
      (.noEnding TokenKind.noConfusion)
    exact parseTokens_of_reads (.oneStatement hstatement .noStatements) rfl

/-! ## Numerals -/

namespace Numeral

/-- The value of a decimal digit of the usual script. -/
theorem decimalValue?_eq {c : Char} (h : c.isDigit) :
    decimalValue? c = some (c.toNat - '0'.toNat) := by
  obtain ⟨hlow, hhigh⟩ : 48 ≤ c.toNat ∧ c.toNat ≤ 57 := Char.isDigit_iff_toNat.mp h
  rw [decimalValue?, decimalZeros, decimalValueIn, if_neg (Nat.not_lt_of_le hlow),
    if_pos (Nat.lt_succ_of_le hhigh)]
  rfl

theorem isDigit_of_ascii {c : Char} (h : c.isDigit) : Text.isDigit c := by
  rw [Text.isDigit, decimalValue?_eq h]
  rfl

/-- Without underscores there is nothing to join. -/
theorem joinGroups_eq_self {cs : List Char} (h : ∀ c ∈ cs, c ≠ '_') (afterDigit : Bool) :
    joinGroups afterDigit cs = some cs := by
  induction cs generalizing afterDigit with
  | nil => rfl
  | cons c cs ih =>
    obtain ⟨hc, hcs⟩ := List.forall_mem_cons.mp h
    rw [joinGroups, if_neg hc, ih hcs]
    rfl

/-- Without blanks there is nothing to trim. -/
theorem trim_eq_self {cs : List Char} (h : ∀ c ∈ cs, ¬isBlank c) : trim cs = cs := by
  have hdrop (l : List Char) (hl : ∀ c ∈ l, ¬isBlank c) : l.dropWhile isMarginBlank = l := by
    cases l with
    | nil => rfl
    | cons c l =>
      refine List.dropWhile_cons_of_neg ?_
      have hc := hl c List.mem_cons_self
      simp [isMarginBlank, hc]
  rw [trim, hdrop cs h, hdrop cs.reverse fun c hc => h c (List.mem_reverse.mp hc),
    List.reverse_reverse]

theorem splitDigits_eq {cs : List Char} (h : ∀ c ∈ cs, c.isDigit) :
    splitDigits cs = (cs.map fun c => c.toNat - '0'.toNat, []) := by
  induction cs with
  | nil => rfl
  | cons c cs ih =>
    obtain ⟨hc, hcs⟩ := List.forall_mem_cons.mp h
    have hvalue := decimalValue?_eq hc
    have hmore := ih hcs
    simp only [splitDigits, Prod.mk.injEq] at hmore ⊢
    simp [hvalue, hmore]

theorem splitSign_eq {cs : List Char} (h : ∀ c ∈ cs, c.isDigit) : splitSign cs = (false, cs) := by
  unfold splitSign
  split
  · exact absurd (h '-' List.mem_cons_self) (by decide)
  · exact absurd (h '+' List.mem_cons_self) (by decide)
  · rfl

/-- A row of digits is read without a sign. -/
theorem readSigned?_eq {cs : List Char} (hne : cs ≠ []) (h : ∀ c ∈ cs, c.isDigit) :
    readSigned? cs = some (false, cs.map fun c => c.toNat - '0'.toNat) := by
  obtain ⟨c, cs, rfl⟩ := List.exists_cons_of_ne_nil hne
  simp only [readSigned?, splitSign_eq h, splitDigits_eq h]
  rfl

theorem digitText_ne_nil (n : Nat) : Decimal.digitText n ≠ [] := Nat.toDigits_ne_nil

theorem isDigit_of_mem_digitText {n : Nat} {c : Char} (h : c ∈ Decimal.digitText n) : c.isDigit :=
  Nat.isDigit_of_mem_toDigits (by decide) (by decide) h

/-- A number below a power of ten has no more digits than the exponent. -/
theorem length_digitText_le {n k : Nat} (hk : 0 < k) (h : n < Nat.pow 10 k) :
    (Decimal.digitText n).length ≤ k :=
  (Nat.length_toDigits_le_iff (by decide) hk).mpr h

/-- **Digits are read as the number they stand for.** -/
theorem readInt?_digits {cs : List Char} (hne : cs ≠ []) (h : ∀ c ∈ cs, c.isDigit)
    (hlength : cs.length ≤ digitLimit) :
    readInt? (String.ofList cs) = some (Nat.ofDigitChars 10 cs 0 : Int) := by
  have hgap : ∀ c ∈ cs, c ≠ '_' := by
    rintro c hc rfl
    exact absurd (h '_' hc) (by decide)
  have hjoin := joinGroups_eq_self hgap false
  have htrim := trim_eq_self fun c hc => not_isBlank_of_isDigit (isDigit_of_ascii (h c hc))
  rw [readInt?, String.toList_ofList, htrim, hjoin, Option.bind_eq_bind, Option.bind_some,
    readSigned?_eq hne h, Option.bind_eq_bind, Option.bind_some]
  simp only [List.length_map]
  rw [if_neg (Nat.not_lt_of_le hlength), ofDigits, List.foldl_map, ← Nat.ofDigitChars_eq_foldl]
  rfl

/-- The digits of a number are read as the number. -/
theorem readInt?_digitText {n : Nat} (h : n < Nat.pow 10 digitLimit) :
    readInt? (String.ofList (Decimal.digitText n)) = some (n : Int) := by
  have hread := readInt?_digits (digitText_ne_nil n) (fun c => isDigit_of_mem_digitText)
    (length_digitText_le (by decide) h)
  have hvalue : Nat.ofDigitChars 10 (Decimal.digitText n) 0 = n := Nat.ofDigitChars_ten_toDigits
  rw [hvalue] at hread
  exact hread

end Numeral

/-- The digits of a number are one token. -/
theorem Spells.digitText (n : Nat) :
    Spells (Decimal.digitText n) [⟨.int, String.ofList (Decimal.digitText n)⟩] :=
  .digits (Numeral.digitText_ne_nil n) fun _ hc =>
    Numeral.isDigit_of_ascii (Numeral.isDigit_of_mem_digitText hc)

/-! ## Tokens with blanks between them -/

/-- How a token is written in a text. -/
def Token.written (t : Token) : List Char :=
  if t.kind = .string then '"' :: t.literal.toList ++ ['"'] else t.literal.toList

/-- The characters are the tokens as they are written, in order, and any blanks around them. -/
inductive Spaced : List Token → List Char → Prop where
  | nil : Spaced [] []
  | blank (blank : isBlank c) (more : Spaced ts cs) : Spaced ts (c :: cs)
  | token (more : Spaced ts cs) : Spaced (t :: ts) (t.written ++ cs)

/-- Signs and numbers that need no blanks between them: no two numbers are neighbours. -/
inductive Distinct : List Token → Prop where
  | nil : Distinct []
  | sign {kind : TokenKind} (written : kind.isWritten c) (more : Distinct ts) :
      Distinct (kind.sign :: ts)
  | number (nonempty : cs ≠ []) (digits : ∀ c ∈ cs, isDigit c) (noNumber : nextKind ts ≠ .int)
      (more : Distinct ts) : Distinct (⟨.int, String.ofList cs⟩ :: ts)

/-- A sign is written as one character. -/
theorem written_sign {kind : TokenKind} {c : Char} (h : kind.isWritten c) :
    kind.sign.written = [c] := by
  simp only [TokenKind.isWritten, Bool.and_eq_true, decide_eq_true_eq] at h
  have hmark : kind.mark.toList = [c] := by
    rw [← h.2]
    simp
  rw [Token.written, if_neg, TokenKind.sign, hmark]
  -- the mark of a string is no single character
  intro hstring
  rw [TokenKind.kind_sign] at hstring
  subst hstring
  cases hmark

/-- Where no number begins, a text with blanks is no part of the word in front of it. -/
theorem Spaced.delimited {ts : List Token} {cs rest : List Char} (h : Spaced ts cs)
    (hts : Distinct ts) (hnumber : nextKind ts ≠ .int) (hrest : Delimited rest) :
    Delimited (cs ++ rest) := by
  cases h with
  | nil => exact hrest
  | blank blank =>
    refine .cons (fun hword => ?_) _
    rcases Bool.or_eq_true_iff.mp hword with hname | hdigit
    · exact not_isBlank_of_isNameChar hname blank
    · exact not_isBlank_of_isDigit hdigit blank
  | token more =>
    cases hts with
    | sign written =>
      rw [written_sign written]
      exact .cons (not_isWordChar_of_isWritten written) _
    | number => exact absurd rfl hnumber

/-- **Blanks count for nothing.** -/
theorem Spaced.spells {ts : List Token} {cs : List Char} (h : Spaced ts cs) (hts : Distinct ts) :
    Spells cs ts := by
  induction h with
  | nil => exact .nil
  | blank blank _ ih => exact (ih hts).blank blank
  | token more ih =>
    cases hts with
    | sign written hmore =>
      rw [written_sign written]
      exact (ih hmore).sign written
    | number nonempty digits noNumber hmore =>
      intro rest hrest
      have hnext := more.delimited hmore noNumber hrest
      rw [Token.written, if_neg TokenKind.noConfusion, String.toList_ofList, List.append_assoc,
        Spells.digits nonempty digits _ hnext, ih hmore rest hrest]
      rfl

end Monkey
