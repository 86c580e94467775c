import Mathlib
import Monkey.Proofs.Lexing
import Monkey.Proofs.Spelling

/-!
# Tokens and the text they stand for

A text consists of its tokens, each as it is written, and of blanks around them: the lexer loses
nothing, and it takes as much as it can for each token (`text_eq_lexemes`). The other way round,
tokens of a text that are written down with blanks between them are read as the same tokens again, so
the layout of a program does not matter (`parse_respaced`).

Both rest on `lexes_tokenAt`: in a text without a null character, the lexer reads a token in the
sense of `Lexes`, which describes a token by its characters alone.
-/

namespace Monkey

open Text

/-! ## One token -/

theorem not_of_mem_head?_dropWhile {p : Char → Bool} {l : List Char} {c : Char}
    (h : c ∈ (l.dropWhile p).head?) : ¬p c := by
  have hhead := List.head?_dropWhile_not p l
  rw [Option.mem_def.mp h] at hhead
  simp [hhead]

/-- A string ends at the next quote, or else at the end. -/
theorem lexes_string {cs : List Char} (hnull : '\x00' ∉ cs) :
    Lexes ('"' :: cs) ⟨.string, String.ofList (cs.takeWhile isStringChar)⟩
      (cs.dropWhile isStringChar).tail := by
  have hinside : ∀ c ∈ cs.takeWhile isStringChar, isStringChar c := fun c => List.mem_takeWhile_imp
  have hcs := List.takeWhile_append_dropWhile (p := isStringChar) (l := cs)
  cases hend : cs.dropWhile isStringChar with
  | nil =>
    rw [hend, List.append_nil] at hcs
    rw [hcs] at hinside ⊢
    exact .openString hinside
  | cons c tail =>
    rw [hend] at hcs
    have hmem : c ∈ cs := by
      rw [← hcs]
      simp
    have hc : ¬isStringChar c := not_of_mem_head?_dropWhile (l := cs) (by rw [hend]; rfl)
    have hquote : c = '"' := by
      have hne : c ≠ '\x00' := fun h => hnull (h ▸ hmem)
      simpa [isStringChar, hne] using hc
    subst hquote
    have hlexes : Lexes ('"' :: cs.takeWhile isStringChar ++ '"' :: tail) _ tail := .string hinside
    rwa [List.cons_append, hcs] at hlexes

/-- **The lexer reads tokens.** -/
theorem lexes_tokenAt {ch : Char} {cs : List Char} (hnull : '\x00' ∉ ch :: cs)
    (hblank : ¬isBlank ch) :
    Lexes (ch :: cs) ((Cursor.mk 0 (ch :: cs)).tokenAt ch).1
      ((Cursor.mk 0 (ch :: cs)).tokenAt ch).2.rest := by
  have hch : ch ≠ '\x00' := fun h => hnull (h ▸ List.mem_cons_self)
  have hrun {p : Char → Bool} (hp : p ch) : (ch :: cs).takeWhile p ≠ [] := by
    rw [List.takeWhile_cons_of_pos hp]
    exact List.cons_ne_nil _ _
  unfold Cursor.tokenAt
  rw [if_neg hch]
  split
  · next h =>
    obtain ⟨rfl, hpeek⟩ := h
    obtain ⟨tail, rfl⟩ := List.head?_eq_some_iff.mp hpeek
    exact .eq
  split
  · next h =>
    obtain ⟨rfl, hpeek⟩ := h
    obtain ⟨tail, rfl⟩ := List.head?_eq_some_iff.mp hpeek
    exact .notEq
  next hassign hbang =>
  split
  · next h =>
    subst h
    exact lexes_string fun h => hnull (List.mem_cons_of_mem _ h)
  split
  · next hname =>
    have hlexes : Lexes ((ch :: cs).takeWhile isNameChar ++ (ch :: cs).dropWhile isNameChar) _ _ :=
      .word (hrun hname) (fun c => List.mem_takeWhile_imp) fun c => not_of_mem_head?_dropWhile
    rwa [List.takeWhile_append_dropWhile] at hlexes
  split
  · next hdigit =>
    have hlexes : Lexes ((ch :: cs).takeWhile isDigit ++ (ch :: cs).dropWhile isDigit) _ _ :=
      .number (hrun hdigit) (fun c => List.mem_takeWhile_imp) fun c => not_of_mem_head?_dropWhile
    rwa [List.takeWhile_append_dropWhile] at hlexes
  · next hquote hname hdigit =>
    refine .single ⟨hblank, hch⟩ ⟨by simp [isWordChar, hname, hdigit], hquote⟩ ?_
    rintro (rfl | rfl) hnext
    · exact hassign ⟨rfl, hnext⟩
    · exact hbang ⟨rfl, hnext⟩

/-! ## All tokens -/

/-- The characters are these tokens, one after the other, and blanks. -/
inductive Scans : List Char → List Token → Prop where
  | nil : Scans [] []
  | blank (blank : isBlank c) (more : Scans cs ts) : Scans (c :: cs) ts
  | token (first : Lexes cs t rest) (more : Scans rest ts) : Scans cs (t :: ts)

theorem scans_tokensOf {cs : List Char} (hnull : '\x00' ∉ cs) : Scans cs (tokensOf cs) := by
  induction hn : cs.length using Nat.strongRecOn generalizing cs with
  | ind n ih =>
    cases cs with
    | nil =>
      rw [tokensOf_nil]
      exact .nil
    | cons ch cs =>
      rw [List.length_cons] at hn
      by_cases hblank : isBlank ch
      · rw [tokensOf_blank hblank]
        exact .blank hblank (ih cs.length (by omega) (List.not_mem_of_not_mem_cons hnull) rfl)
      · have hlength := Cursor.length_rest_tokenAt (c := Cursor.mk 0 (ch :: cs)) rfl
        have hsuffix := Cursor.tokenAt_suffix ch (Cursor.mk 0 (ch :: cs))
        rw [List.length_cons] at hlength
        rw [tokensOf_cons hblank]
        refine .token (lexes_tokenAt hnull hblank) (ih _ (by omega) (fun h => ?_) rfl)
        exact hnull (hsuffix.mem h)

/-- There are no tokens in nothing. -/
theorem Scans.eq_nil {ts : List Token} (h : Scans [] ts) : ts = [] := by
  cases h with
  | nil => rfl
  | token first =>
    have hread := tokensOf_of_lexes first
    rw [tokensOf_nil] at hread
    cases hread

/-! ## Calls of the lexer -/

namespace Cursor

/-- The cursor behind so many tokens. -/
def behind (c : Cursor) : Nat → Cursor
  | 0 => c
  | k + 1 => c.next.2.behind k

theorem next_behind_of_end {c : Cursor} (h : c.skipBlanks.rest = []) (k : Nat) :
    (c.behind k).next.1 = .eof := by
  induction k generalizing c with
  | zero => rw [behind, next_of_rest_eq_nil h]
  | succ k ih =>
    refine ih ?_
    have hrest : c.skipBlanks.advance.rest = [] := by simp [advance, h]
    rw [next_of_rest_eq_nil h]
    show c.skipBlanks.advance.rest.dropWhile isBlank = []
    rw [hrest]
    rfl

/-- **Calls of the lexer give the tokens**, and then the end of the input for ever. -/
theorem next_behind (c : Cursor) (k : Nat) : (c.behind k).next.1 = (c.tokens[k]?).getD .eof := by
  fun_induction tokens c generalizing k with
  | case1 c hend => exact next_behind_of_end hend k
  | case2 c hrest ih =>
    cases k with
    | zero => rfl
    | succ k => exact ih k

end Cursor

/-! ## Texts as tokens and blanks -/

/-- A token where it stands in a text: how it is written there, and the blanks behind it. -/
structure Lexeme where
  token : Token
  text : List Char
  gap : List Char

namespace Lexeme

/-- The text of lexemes, one after the other. -/
def join (ls : List Lexeme) : List Char := ls.flatMap fun l => l.text ++ l.gap

theorem join_cons (l : Lexeme) (ls : List Lexeme) :
    join (l :: ls) = l.text ++ (l.gap ++ join ls) := by
  simp [join]

end Lexeme

/-- Nothing that stands behind a token could have been taken for more of it. -/
structure Token.EndsBefore (t : Token) (rest : List Char) : Prop where
  word : t.kind = .ident ∨ t.kind ∈ TokenKind.keywords.map Prod.snd →
    ∀ c ∈ rest.head?, ¬isNameChar c
  number : t.kind = .int → ∀ c ∈ rest.head?, ¬isDigit c
  sign : t.kind = .assign ∨ t.kind = .bang → rest.head? ≠ some '='

/-- A lexeme stands in front of others. Its token is written in full; only a string at the end of
the text may lack its closing quote. -/
structure Lexeme.Precedes (l : Lexeme) (later : List Lexeme) : Prop where
  text : l.text = l.token.written ∨
    l.token.kind = .string ∧ l.text = '"' :: l.token.literal.toList ∧ l.gap = [] ∧ later = []
  gap : ∀ c ∈ l.gap, isBlank c
  token : Lexes (l.text ++ (l.gap ++ join later)) l.token (l.gap ++ join later)
  maximal : l.token.EndsBefore (l.gap ++ join later)

namespace TokenKind

theorem ofSymbol?_getD (ch : Char) :
    let kind := (ofSymbol? ch).getD .illegal
    (kind ≠ .ident ∧ kind ∉ keywords.map Prod.snd ∧ kind ≠ .int ∧ kind ≠ .string) ∧
      (kind = .assign ∨ kind = .bang → ch = '=' ∨ ch = '!') := by
  unfold ofSymbol?
  split
  case h_20 => exact ⟨by decide, fun h => absurd h (by decide)⟩
  all_goals decide

end TokenKind

namespace Lexes

variable {cs rest : List Char} {t : Token}

/-- The characters of a token are what is written for it. -/
theorem text (h : Lexes cs t rest) :
    ∃ text, cs = text ++ rest ∧ (text = t.written ∨
      t.kind = .string ∧ text = '"' :: t.literal.toList ∧ rest = []) := by
  cases h with
  | word =>
    refine ⟨_, rfl, .inl ?_⟩
    rw [Token.written, if_neg (TokenKind.ofWord_ne (by decide) (by decide) _), String.toList_ofList]
  | number =>
    refine ⟨_, rfl, .inl ?_⟩
    rw [Token.written, if_neg TokenKind.noConfusion, String.toList_ofList]
  | @string cs =>
    refine ⟨'"' :: cs ++ ['"'], by simp, .inl ?_⟩
    rw [Token.written, if_pos rfl, String.toList_ofList]
  | openString =>
    refine ⟨_, (List.append_nil _).symm, .inr ⟨rfl, ?_, rfl⟩⟩
    rw [String.toList_ofList]
  | eq => exact ⟨['=', '='], rfl, .inl rfl⟩
  | notEq => exact ⟨['!', '='], rfl, .inl rfl⟩
  | @single ch =>
    refine ⟨[ch], rfl, .inl ?_⟩
    rw [Token.written, if_neg (TokenKind.ofSymbol?_getD ch).1.2.2.2]
    simp

/-- A token reaches as far as it can. -/
theorem endsBefore (h : Lexes cs t rest) : t.EndsBefore rest := by
  cases h with
  | @word cs _ nonempty letters ends =>
    have hkind {kind : TokenKind} (hident : .ident ≠ kind)
        (hkeyword : ∀ entry ∈ TokenKind.keywords, entry.2 ≠ kind) :
        TokenKind.ofWord (String.ofList cs) ≠ kind := TokenKind.ofWord_ne hident hkeyword _
    have hint : TokenKind.ofWord (String.ofList cs) ≠ .int := hkind (by decide) (by decide)
    have hassign : TokenKind.ofWord (String.ofList cs) ≠ .assign := hkind (by decide) (by decide)
    have hbang : TokenKind.ofWord (String.ofList cs) ≠ .bang := hkind (by decide) (by decide)
    exact ⟨fun _ => ends, fun h => absurd h hint, fun h => absurd h (not_or.mpr ⟨hassign, hbang⟩)⟩
  | number nonempty digits ends =>
    exact ⟨by simp [TokenKind.keywords], fun _ => ends, by simp⟩
  | string | openString => exact ⟨by simp [TokenKind.keywords], by simp, by simp⟩
  | eq | notEq => exact ⟨by simp [TokenKind.keywords], by simp, by simp⟩
  | @single ch _ visible apart alone =>
    obtain ⟨⟨hident, hkeyword, hint, -⟩, hsign⟩ := TokenKind.ofSymbol?_getD ch
    exact ⟨fun h => absurd h (not_or.mpr ⟨hident, hkeyword⟩), fun h => absurd h hint,
      fun h => alone (hsign h)⟩

/-- A token is read again wherever it is written, with a blank or nothing behind it. -/
theorem of_written (h : Lexes cs t rest) {rest' : List Char}
    (hblank : ∀ c ∈ rest'.head?, isBlank c) : Lexes (t.written ++ rest') t rest' := by
  cases h with
  | word nonempty letters =>
    rw [Token.written, if_neg (TokenKind.ofWord_ne (by decide) (by decide) _), String.toList_ofList]
    exact .word nonempty letters fun c hc h => not_isBlank_of_isNameChar h (hblank c hc)
  | number nonempty digits =>
    rw [Token.written, if_neg TokenKind.noConfusion, String.toList_ofList]
    exact .number nonempty digits fun c hc h => not_isBlank_of_isDigit h (hblank c hc)
  | string inside | openString inside =>
    rw [Token.written, if_pos rfl, String.toList_ofList, List.append_assoc]
    exact .string inside
  | eq => exact .eq
  | notEq => exact .notEq
  | @single ch _ visible apart =>
    have hwritten : Token.written ⟨(TokenKind.ofSymbol? ch).getD .illegal, ch.toString⟩ = [ch] := by
      rw [Token.written, if_neg (TokenKind.ofSymbol?_getD ch).1.2.2.2]
      simp
    rw [hwritten]
    exact .single visible apart fun _ hnext => absurd (hblank '=' hnext) (by decide)

end Lexes

/-- The characters are put together from lexemes. -/
theorem Scans.exists_lexemes {cs : List Char} {ts : List Token} (h : Scans cs ts) :
    ∃ gap lexemes, cs = gap ++ Lexeme.join lexemes ∧ (∀ c ∈ gap, isBlank c) ∧
      lexemes.map Lexeme.token = ts ∧
      ∀ before l later, lexemes = before ++ l :: later → l.Precedes later := by
  induction h with
  | nil => exact ⟨[], [], rfl, List.forall_mem_nil _, rfl, fun before l later h => by simp at h⟩
  | @blank c _ _ blank _ ih =>
    obtain ⟨gap, lexemes, rfl, hgap, htokens, hlexemes⟩ := ih
    exact ⟨c :: gap, lexemes, rfl, List.forall_mem_cons.mpr ⟨blank, hgap⟩, htokens, hlexemes⟩
  | @token _ t _ _ first more ih =>
    obtain ⟨gap, lexemes, rfl, hgap, rfl, hlexemes⟩ := ih
    obtain ⟨text, rfl, htext⟩ := first.text
    have hjoin := Lexeme.join_cons ⟨t, text, gap⟩ lexemes
    refine ⟨[], ⟨t, text, gap⟩ :: lexemes, hjoin.symm, List.forall_mem_nil _, rfl, ?_⟩
    intro before l later h
    cases before with
    | cons _ before => exact hlexemes before l later (List.cons.inj h).2
    | nil =>
      obtain ⟨rfl, rfl⟩ := List.cons.inj h
      refine ⟨htext.imp_right fun ⟨hstring, hopen, hend⟩ => ?_, hgap, first, first.endsBefore⟩
      -- behind a string that is not closed there is nothing, so there is no token either
      have hgap := (List.append_eq_nil_iff.mp hend).1
      rw [hend] at more
      exact ⟨hstring, hopen, hgap, List.map_eq_nil_iff.mp more.eq_nil⟩

/-- **The lexer loses nothing.** In a text without a null character, the calls of the lexer give its
tokens, none of which marks the end of the input, and from then on the end of the input for ever.
The text consists of blanks and of these tokens, each as it is written and followed by blanks; each
token reaches as far as it can. -/
theorem text_eq_lexemes {text : String} (hnull : '\x00' ∉ text.toList) :
    (∀ k, ((Cursor.start text).behind k).next.1 = ((tokenize text)[k]?).getD .eof) ∧
    (∀ t ∈ tokenize text, t.kind ≠ .eof) ∧
    ∃ gap lexemes, text.toList = gap ++ Lexeme.join lexemes ∧ (∀ c ∈ gap, isBlank c) ∧
      lexemes.map Lexeme.token = tokenize text ∧
      ∀ before l later, lexemes = before ++ l :: later → l.Precedes later := by
  refine ⟨(Cursor.start text).next_behind, unbroken_tokenize hnull, ?_⟩
  exact (scans_tokensOf hnull).exists_lexemes

/-- Words, signs and a number without blanks between them, and a string that is not closed:
`lets=!ab==12x "hi`. -/
def crowded : String := "lets=!ab==12x \"hi"

/-- The tokens of that text. -/
def crowdedTokens : List Token :=
  [⟨.ident, "lets"⟩, ⟨.assign, "="⟩, ⟨.bang, "!"⟩, ⟨.ident, "ab"⟩, ⟨.eq, "=="⟩, ⟨.int, "12"⟩,
   ⟨.ident, "x"⟩, ⟨.string, "hi"⟩]

/-- Eight tokens, and the end of the input whenever the lexer is called again. -/
theorem text_eq_lexemes_crowded :
    '\x00' ∉ crowded.toList ∧ tokenize crowded = crowdedTokens ∧
    (∀ k, ((Cursor.start crowded).behind (8 + k)).next.1 = .eof) ∧
    ∃ gap lexemes, crowded.toList = gap ++ Lexeme.join lexemes ∧
      lexemes.map Lexeme.token = crowdedTokens ∧
      ∀ before l later, lexemes = before ++ l :: later → l.Precedes later := by
  have hnull : '\x00' ∉ crowded.toList := by decide
  have htokens : tokenize crowded = crowdedTokens := by decide +kernel
  obtain ⟨hcalls, -, gap, lexemes, htext, -, hlexemes, hprecedes⟩ := text_eq_lexemes hnull
  rw [htokens] at hcalls hlexemes
  refine ⟨hnull, htokens, fun k => ?_, gap, lexemes, htext, hlexemes, hprecedes⟩
  have hend : crowdedTokens[8 + k]? = none := List.getElem?_eq_none (Nat.le_add_right 8 k)
  rw [hcalls, hend]
  rfl

/-! ## Tokens with blanks between them -/

/-- The characters are the tokens as they are written, with at least one blank behind each of them
that is not the last. -/
inductive Apart : List Token → List Char → Prop where
  | nil : Apart [] []
  | blank (blank : isBlank c) (more : Apart ts cs) : Apart ts (c :: cs)
  | token (apart : ∀ c ∈ cs.head?, isBlank c) (more : Apart ts cs) :
      Apart (t :: ts) (t.written ++ cs)

/-- Tokens of a text. -/
theorem Scans.lexes_of_mem {cs : List Char} {ts : List Token} (h : Scans cs ts) :
    ∀ t ∈ ts, ∃ cs rest, Lexes cs t rest := by
  induction h with
  | nil => exact List.forall_mem_nil _
  | blank _ _ ih => exact ih
  | token first _ ih => exact List.forall_mem_cons.mpr ⟨⟨_, _, first⟩, ih⟩

theorem Apart.tokensOf_eq {ts : List Token} {cs : List Char} (h : Apart ts cs)
    (hts : ∀ t ∈ ts, ∃ cs rest, Lexes cs t rest) : tokensOf cs = ts := by
  induction h with
  | nil => exact tokensOf_nil
  | blank blank _ ih => rw [tokensOf_blank blank, ih hts]
  | token apart _ ih =>
    obtain ⟨⟨_, _, hlexes⟩, hmore⟩ := List.forall_mem_cons.mp hts
    rw [tokensOf_of_lexes (hlexes.of_written apart), ih hmore]

/-- The tokens as they are written, with a space between each two. -/
def respaced (ts : List Token) : String :=
  String.ofList (List.intercalate [' '] (ts.map Token.written))

theorem apart_respaced (ts : List Token) : Apart ts (respaced ts).toList := by
  rw [respaced, String.toList_ofList]
  induction ts with
  | nil => exact .nil
  | cons t ts ih =>
    cases ts with
    | nil =>
      have hlast : Apart [t] (t.written ++ []) := .token (fun c hc => by cases hc) .nil
      rw [List.append_nil] at hlast
      simpa using hlast
    | cons next ts =>
      have hspace : Apart (next :: ts)
          (' ' :: List.intercalate [' '] ((next :: ts).map Token.written)) := .blank (by decide) ih
      have hfirst : ∀ c ∈ (' ' :: List.intercalate [' '] ((next :: ts).map Token.written)).head?,
          isBlank c := by
        rintro c ⟨⟩
        decide
      simp only [List.map_cons] at hspace hfirst ⊢
      rw [List.intercalate_cons_cons, List.append_assoc]
      exact .token hfirst hspace

/-- **Layout does not matter.** The tokens of a text without a null character, written down again
with a space between each two, or with any blanks between them, are read as the same tokens. So the
tree and the errors are the same. -/
theorem parse_respaced {text : String} (hnull : '\x00' ∉ text.toList) :
    tokenize (respaced (tokenize text)) = tokenize text ∧
    parse (respaced (tokenize text)) = parse text ∧
    ∀ text' : String, Apart (tokenize text) text'.toList →
      tokenize text' = tokenize text ∧ parse text' = parse text := by
  have hlayout (text' : String) (h : Apart (tokenize text) text'.toList) :
      tokenize text' = tokenize text :=
    h.tokensOf_eq (scans_tokensOf hnull).lexes_of_mem
  have hspaced := hlayout _ (apart_respaced _)
  refine ⟨hspaced, by rw [parse, hspaced, parse], fun text' h => ⟨hlayout text' h, ?_⟩⟩
  rw [parse, hlayout text' h, parse]

/-- The crowded text, respaced; the string is closed. -/
theorem parse_respaced_crowded :
    '\x00' ∉ crowded.toList ∧
    respaced (tokenize crowded) = "lets = ! ab == 12 x \"hi\"" ∧
    tokenize "lets = ! ab == 12 x \"hi\"" = tokenize crowded ∧
    parse "lets = ! ab == 12 x \"hi\"" = parse crowded := by
  have hnull : '\x00' ∉ crowded.toList := by decide
  have hspaced : respaced (tokenize crowded) = "lets = ! ab == 12 x \"hi\"" := by decide +kernel
  obtain ⟨htokens, hparse, -⟩ := parse_respaced hnull
  rw [hspaced] at htokens hparse
  exact ⟨hnull, hspaced, htokens, hparse⟩

end Monkey
