import Monkey.Text.Blank
import Monkey.Text.Digit
import Monkey.Text.Letter
import Monkey.Token

/-!
# From characters to tokens

A cursor stands at a position of the text, with the characters from there on. `Cursor.next` reads
one token and moves the cursor behind it; past the end of the text it gives end-of-input tokens for
ever. A null character in the text also reads as an end-of-input token, and reading goes on behind
it.

Names hold letters and underscores, numbers hold digits, a string reaches to the next quote, null
character or end of the text, whichever comes first.

## Termination

`Cursor.next` shortens the text that is left unless it is at the end (`length_rest_next`), which
makes `Cursor.tokens` and `Cursor.trace` terminate.
-/

namespace Monkey

open Text

/-- A place in a text: how many characters lie before it, and the characters from there on. The
position keeps growing when the cursor is moved past the end. -/
structure Cursor where
  position : Nat
  rest : List Char
  deriving DecidableEq, Repr, Inhabited

/-- A character that can stand in a name. -/
def isNameChar (c : Char) : Bool :=
  isLetter c || c == '_'

/-- A character that can stand in a string: neither a quote nor the null character. -/
def isStringChar (c : Char) : Bool :=
  c != '"' && c != '\x00'

namespace Cursor

/-- The cursor at the beginning of a text. -/
def start (text : String) : Cursor := ⟨0, text.toList⟩

/-- The character under the cursor; the null character at the end of the text. -/
def current (c : Cursor) : Char := c.rest.headD '\x00'

/-- The character behind the one under the cursor. -/
def peek? (c : Cursor) : Option Char := c.rest.tail.head?

/-- Moves one character on. -/
def advance (c : Cursor) : Cursor := ⟨c.position + 1, c.rest.tail⟩

/-- Moves behind the run of characters that satisfy `p`. -/
def skipWhile (p : Char → Bool) (c : Cursor) : Cursor :=
  ⟨c.position + (c.rest.takeWhile p).length, c.rest.dropWhile p⟩

/-- Moves to the next character that is no blank. -/
def skipBlanks (c : Cursor) : Cursor := c.skipWhile isBlank

/-- The run of characters that satisfy `p`, and the cursor behind it. -/
def readWhile (p : Char → Bool) (c : Cursor) : String × Cursor :=
  (String.ofList (c.rest.takeWhile p), c.skipWhile p)

/-- The run of name characters at the cursor. -/
def readName (c : Cursor) : String × Cursor := c.readWhile isNameChar

/-- The run of digits at the cursor. -/
def readNumber (c : Cursor) : String × Cursor := c.readWhile isDigit

/-- The text behind the opening quote under the cursor, and the cursor at the closing quote, null
character or end of the text. -/
def readString (c : Cursor) : String × Cursor := c.advance.readWhile isStringChar

/-- The token at a cursor that stands on the character `ch`, which is no blank, and the cursor behind
the token. -/
def tokenAt (ch : Char) (c : Cursor) : Token × Cursor :=
  if ch = '\x00' then (.eof, c.advance)
  else if ch = '=' ∧ c.peek? = some '=' then (⟨.eq, "=="⟩, c.advance.advance)
  else if ch = '!' ∧ c.peek? = some '=' then (⟨.notEq, "!="⟩, c.advance.advance)
  else if ch = '"' then
    let (text, closing) := c.readString
    (⟨.string, text⟩, closing.advance)
  else if isNameChar ch then
    let (word, behind) := c.readName
    (⟨.ofWord word, word⟩, behind)
  else if isDigit ch then
    let (digits, behind) := c.readNumber
    (⟨.int, digits⟩, behind)
  else (⟨(TokenKind.ofSymbol? ch).getD .illegal, ch.toString⟩, c.advance)

/-- The next token and the cursor behind it. -/
def next (c : Cursor) : Token × Cursor :=
  c.skipBlanks.tokenAt c.skipBlanks.current

/-! ## What is left becomes shorter -/

@[simp]
theorem length_rest_advance (c : Cursor) : c.advance.rest.length = c.rest.length - 1 := by
  simp [advance]

theorem length_dropWhile_le (p : Char → Bool) (l : List Char) :
    (l.dropWhile p).length ≤ l.length :=
  (List.dropWhile_sublist p).length_le

theorem length_rest_skipWhile_le (p : Char → Bool) (c : Cursor) :
    (c.skipWhile p).rest.length ≤ c.rest.length :=
  length_dropWhile_le p c.rest

/-- Reading a run that has a first character shortens what is left. -/
theorem length_rest_skipWhile_lt {p : Char → Bool} {ch : Char} {tail : List Char} {c : Cursor}
    (hc : c.rest = ch :: tail) (hp : p ch = true) :
    (c.skipWhile p).rest.length < c.rest.length := by
  have h : (c.skipWhile p).rest = tail.dropWhile p := by
    simp [skipWhile, hc, hp]
  rw [h, hc, List.length_cons]
  exact Nat.lt_succ_of_le (length_dropWhile_le p tail)

/-- Reading a token shortens what is left, unless nothing is left. -/
theorem length_rest_tokenAt {ch : Char} {tail : List Char} {c : Cursor} (hc : c.rest = ch :: tail) :
    (c.tokenAt ch).2.rest.length < c.rest.length := by
  have hadv : c.advance.rest.length < c.rest.length := by simp [hc]
  unfold tokenAt
  split
  · exact hadv
  split
  · exact Nat.lt_of_le_of_lt (by simp) hadv
  split
  · exact Nat.lt_of_le_of_lt (by simp) hadv
  split
  · refine Nat.lt_of_le_of_lt ?_ hadv
    have h := length_rest_skipWhile_le isStringChar c.advance
    simp only [readString, readWhile, length_rest_advance] at h ⊢
    omega
  split
  · next hname => exact length_rest_skipWhile_lt hc hname
  split
  · next hdigit => exact length_rest_skipWhile_lt hc hdigit
  · exact hadv

/-- At the end of the text there is only the end-of-input token. -/
theorem next_of_rest_eq_nil {c : Cursor} (h : c.skipBlanks.rest = []) :
    c.next = (.eof, c.skipBlanks.advance) := by
  simp [next, current, h, tokenAt]

/-- Reading a token shortens what is left, unless only blanks are left. -/
theorem length_rest_next {c : Cursor} (h : c.skipBlanks.rest ≠ []) :
    c.next.2.rest.length < c.rest.length := by
  obtain ⟨ch, tail, hc⟩ := List.exists_cons_of_ne_nil h
  have hcur : c.skipBlanks.current = ch := by simp [current, hc]
  unfold next
  rw [hcur]
  exact Nat.lt_of_lt_of_le (length_rest_tokenAt hc) (length_rest_skipWhile_le isBlank c)

/-- Reading a token never lengthens what is left. -/
theorem length_rest_next_le (c : Cursor) : c.next.2.rest.length ≤ c.rest.length := by
  by_cases h : c.skipBlanks.rest = []
  · rw [next_of_rest_eq_nil h]
    simp [h]
  · exact Nat.le_of_lt (length_rest_next h)

/-! ## All tokens -/

/-- The tokens of the text that is left, up to its end. -/
def tokens (c : Cursor) : List Token :=
  if c.skipBlanks.rest = [] then []
  else c.next.1 :: tokens c.next.2
termination_by c.rest.length
decreasing_by exact length_rest_next ‹_›

/-- The tokens up to the end-of-input token number `ends`, each with the cursor behind it. -/
def trace (ends : Nat) (c : Cursor) : List (Token × Cursor) :=
  if ends = 0 then []
  else if c.skipBlanks.rest = [] then c.next :: trace (ends - 1) c.next.2
  else c.next :: trace (if c.next.1.kind = .eof then ends - 1 else ends) c.next.2
termination_by ends + c.rest.length
decreasing_by
  · have := length_rest_next_le c
    omega
  · have := length_rest_next ‹_›
    split <;> omega

end Cursor

/-- The tokens of a text, up to its end. -/
def tokenize (text : String) : List Token := (Cursor.start text).tokens

end Monkey
