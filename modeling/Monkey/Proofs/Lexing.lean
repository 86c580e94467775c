import Monkey.Proofs.ParserStep

/-!
# Tokens of a text

A text without a null character is read to its end: none of its tokens marks the end of the input.
In any text, an operator or delimiter is spelled as its kind says (`spelled_of_mem_tokenize`).
-/

namespace Monkey

open Text Reading

/-! ## Kinds -/

namespace TokenKind

/-- No symbol is the end of the input. -/
theorem ofSymbol?_ne_eof {ch : Char} {kind : TokenKind} (h : ofSymbol? ch = some kind) :
    kind ≠ .eof := by
  unfold ofSymbol? at h
  split at h <;> cases h <;> decide

/-- A word is a name or one of the keywords. -/
theorem ofWord_ne {kind : TokenKind} (hident : ident ≠ kind)
    (hkeyword : ∀ entry ∈ keywords, entry.2 ≠ kind) (word : String) : ofWord word ≠ kind := by
  unfold ofWord
  cases h : keywords.lookup word with
  | none => exact hident
  | some found =>
    obtain ⟨before, after, hkeywords, -⟩ := List.lookup_eq_some_iff.mp h
    exact hkeyword (word, found) (by rw [hkeywords]; simp)

theorem ofWord_ne_eof (word : String) : ofWord word ≠ .eof := ofWord_ne (by decide) (by decide) word

/-- The kinds of operators and delimiters. -/
def isSign : TokenKind → Bool
  | assign | plus | minus | bang | asterisk | slash | modulo | lt | gt | eq | notEq
  | comma | semicolon | colon | dot | lparen | rparen | lbrace | rbrace | lbracket | rbracket => true
  | _ => false

/-- No word is a sign. -/
theorem not_isSign_ofWord (word : String) : ¬(ofWord word).isSign := by
  have hne {kind : TokenKind} (hident : ident ≠ kind)
      (hkeyword : ∀ entry ∈ keywords, entry.2 ≠ kind) : ofWord word ≠ kind :=
    ofWord_ne hident hkeyword word
  intro hsign
  cases hkind : ofWord word
  all_goals first
    | exact absurd hkind (hne (by decide) (by decide))
    | exact absurd (hkind ▸ hsign) (by decide)

/-- A symbol of one character is written as it is. -/
theorem toString_eq_mark {ch : Char} {kind : TokenKind} (h : ofSymbol? ch = some kind) :
    ch.toString = kind.mark := by
  unfold ofSymbol? at h
  split at h <;> cases h <;> decide

end TokenKind

/-- An operator or delimiter is spelled with the mark of its kind. -/
def Token.Spelled (t : Token) : Prop := t.kind.isSign → t.literal = t.kind.mark

/-! ## Cursors -/

namespace Cursor

theorem skipWhile_suffix (p : Char → Bool) (c : Cursor) : (c.skipWhile p).rest <:+ c.rest :=
  List.dropWhile_suffix p

theorem advance_suffix (c : Cursor) : c.advance.rest <:+ c.rest := List.tail_suffix c.rest

/-- What is left behind a token was left before it. -/
theorem tokenAt_suffix (ch : Char) (c : Cursor) : (c.tokenAt ch).2.rest <:+ c.rest := by
  have hadv := advance_suffix c
  unfold tokenAt
  split
  · exact hadv
  split
  · exact (advance_suffix _).trans hadv
  split
  · exact (advance_suffix _).trans hadv
  split
  · exact ((advance_suffix _).trans (skipWhile_suffix isStringChar _)).trans hadv
  split
  · exact skipWhile_suffix isNameChar c
  split
  · exact skipWhile_suffix isDigit c
  · exact hadv

/-- Behind a token there is a rest of what was there before it. -/
theorem next_suffix (c : Cursor) : c.next.2.rest <:+ c.rest :=
  (tokenAt_suffix _ _).trans (skipWhile_suffix isBlank c)

/-- Only the null character reads as the end of the input. -/
theorem tokenAt_ne_eof {ch : Char} (c : Cursor) (h : ch ≠ '\x00') :
    (c.tokenAt ch).1.kind ≠ .eof := by
  unfold tokenAt
  rw [if_neg h]
  split
  · exact TokenKind.noConfusion
  split
  · exact TokenKind.noConfusion
  split
  · exact TokenKind.noConfusion
  split
  · exact TokenKind.ofWord_ne_eof _
  split
  · exact TokenKind.noConfusion
  · cases hsymbol : TokenKind.ofSymbol? ch with
    | none => exact TokenKind.noConfusion
    | some kind => exact TokenKind.ofSymbol?_ne_eof hsymbol

/-- A token that is a sign has the text of the sign. -/
theorem spelled_tokenAt (ch : Char) (c : Cursor) : (c.tokenAt ch).1.Spelled := by
  unfold tokenAt
  split
  · exact fun h => Bool.noConfusion h
  split
  · exact fun _ => rfl
  split
  · exact fun _ => rfl
  split
  · exact fun h => Bool.noConfusion h
  split
  · exact fun h => absurd h (TokenKind.not_isSign_ofWord _)
  split
  · exact fun h => Bool.noConfusion h
  · cases hsymbol : TokenKind.ofSymbol? ch with
    | none => exact fun h => Bool.noConfusion h
    | some kind => exact fun _ => TokenKind.toString_eq_mark hsymbol

/-- By induction on the characters that are left. -/
theorem spelled_of_mem_tokens (c : Cursor) : ∀ t ∈ c.tokens, t.Spelled := by
  fun_induction tokens c with
  | case1 c hend => intro t ht; cases ht
  | case2 c hrest ih =>
    intro t ht
    rcases List.mem_cons.mp ht with rfl | ht
    · exact spelled_tokenAt _ _
    · exact ih t ht

/-- Every token takes a character. -/
theorem length_tokens_le (c : Cursor) : c.tokens.length ≤ c.rest.length := by
  fun_induction tokens c with
  | case1 c hend => exact Nat.zero_le _
  | case2 c hrest ih => exact Nat.lt_of_le_of_lt ih (length_rest_next hrest)

/-- Where there is something to read, the next token is not the end of the input. -/
theorem next_ne_eof {c : Cursor} (hnull : '\x00' ∉ c.rest) (hrest : c.skipBlanks.rest ≠ []) :
    c.next.1.kind ≠ .eof := by
  obtain ⟨ch, tail, hc⟩ := List.exists_cons_of_ne_nil hrest
  have hcurrent : c.skipBlanks.current = ch := by simp [current, hc]
  refine tokenAt_ne_eof _ fun hch => hnull ?_
  have hmem : ch ∈ c.skipBlanks.rest := by simp [hc]
  rw [hcurrent] at hch
  exact hch ▸ (skipWhile_suffix isBlank c).mem hmem

/-- The end of the input is a token only where a null character is read. -/
theorem unbroken_tokens (c : Cursor) (hnull : '\x00' ∉ c.rest) : Unbroken c.tokens := by
  fun_induction tokens c with
  | case1 c hend => intro t ht; cases ht
  | case2 c hrest ih =>
    intro t ht
    rcases List.mem_cons.mp ht with rfl | ht
    · exact next_ne_eof hnull hrest
    · exact ih (fun h => hnull ((next_suffix c).mem h)) t ht

end Cursor

theorem spelled_of_mem_tokenize {text : String} {t : Token} (h : t ∈ tokenize text) : t.Spelled :=
  Cursor.spelled_of_mem_tokens _ t h

/-- Every token takes a character at least. -/
theorem length_tokenize_le (text : String) : (tokenize text).length ≤ text.length := by
  have h := Cursor.length_tokens_le (Cursor.start text)
  rwa [Cursor.start, String.length_toList] at h

theorem unbroken_tokenize {text : String} (hnull : '\x00' ∉ text.toList) :
    Unbroken (tokenize text) :=
  Cursor.unbroken_tokens (Cursor.start text) hnull

end Monkey
