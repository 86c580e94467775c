/-!
# Decoding of UTF-8

A sequence of bytes is decoded strictly: a byte sequence that encodes no character is refused, with
the place of the longest beginning of an encoding that stands there.

A leading byte fixes how many bytes follow and in which range the first of them lies, which excludes
overlong encodings and surrogates.

## Termination

`decodeOne?` passes at least the leading byte (`length_decodeOne?`), so `decodeFrom` terminates on
the number of bytes.
-/

namespace Monkey.Utf8

/-- What is wrong with a byte sequence. -/
inductive Flaw where
  | invalidStart
  | invalidContinuation
  | unexpectedEnd
  deriving DecidableEq, Repr

/-- The wording of a flaw. -/
def Flaw.text : Flaw → String
  | invalidStart => "invalid start byte"
  | invalidContinuation => "invalid continuation byte"
  | unexpectedEnd => "unexpected end of data"

/-- A byte sequence that encodes no character: its first byte, where it begins, how many bytes of it
could begin an encoding (at least one), and what is wrong. -/
structure Invalid where
  byte : UInt8
  position : Nat
  length : Nat
  flaw : Flaw
  deriving DecidableEq, Repr

/-- A byte as two hexadecimal digits. -/
def hexByte (b : UInt8) : String :=
  let digits := Nat.toDigits 16 b.toNat
  String.ofList (if digits.length < 2 then '0' :: digits else digits)

/-- The wording of an invalid byte sequence. -/
def Invalid.message (e : Invalid) : String :=
  if e.length ≤ 1 then
    "'utf-8' codec can't decode byte 0x" ++ hexByte e.byte ++ " in position " ++
      toString e.position ++ ": " ++ e.flaw.text
  else
    "'utf-8' codec can't decode bytes in position " ++ toString e.position ++ "-" ++
      toString (e.position + e.length - 1) ++ ": " ++ e.flaw.text

/-- What a leading byte says: the high bits of the character, how many bytes follow, and the range of
the first of them. -/
structure Lead where
  bits : Nat
  following : Nat
  low : UInt8
  high : UInt8

/-- The meaning of a leading byte. -/
def lead? (b : UInt8) : Option Lead :=
  if b < 0x80 then some ⟨b.toNat, 0, 0x80, 0xBF⟩
  else if b < 0xC2 then none
  else if b < 0xE0 then some ⟨b.toNat - 0xC0, 1, 0x80, 0xBF⟩
  else if b = 0xE0 then some ⟨0, 2, 0xA0, 0xBF⟩
  else if b = 0xED then some ⟨b.toNat - 0xE0, 2, 0x80, 0x9F⟩
  else if b < 0xF0 then some ⟨b.toNat - 0xE0, 2, 0x80, 0xBF⟩
  else if b = 0xF0 then some ⟨0, 3, 0x90, 0xBF⟩
  else if b < 0xF4 then some ⟨b.toNat - 0xF0, 3, 0x80, 0xBF⟩
  else if b = 0xF4 then some ⟨4, 3, 0x80, 0x8F⟩
  else none

/-- Reads the bytes that follow a leading byte. `seen` counts the bytes of the encoding so far. -/
def readFollowing (seen bits : Nat) (low high : UInt8) :
    Nat → List UInt8 → Except (Nat × Flaw) (Nat × List UInt8)
  | 0, bytes => .ok (bits, bytes)
  | _ + 1, [] => .error (seen, .unexpectedEnd)
  | n + 1, b :: bytes =>
    if low ≤ b ∧ b ≤ high then readFollowing (seen + 1) (bits * 64 + b.toNat % 64) 0x80 0xBF n bytes
    else .error (seen, .invalidContinuation)

/-- Reads one character that begins with the given byte. -/
def decodeOne? (b : UInt8) (bytes : List UInt8) : Except (Nat × Flaw) (Char × List UInt8) :=
  match lead? b with
  | none => .error (1, .invalidStart)
  | some lead => do
    let (code, rest) ← readFollowing 1 lead.bits lead.low lead.high lead.following bytes
    return (Char.ofNat code, rest)

theorem length_readFollowing {seen bits : Nat} {low high : UInt8} {n : Nat} {bytes : List UInt8}
    {r : Nat × List UInt8} (h : readFollowing seen bits low high n bytes = .ok r) :
    r.2.length ≤ bytes.length := by
  induction n generalizing seen bits low high bytes with
  | zero =>
    simp only [readFollowing, Except.ok.injEq] at h
    simp [← h]
  | succ n ih =>
    cases bytes with
    | nil => simp [readFollowing] at h
    | cons b bytes =>
      rw [readFollowing] at h
      split at h
      · exact Nat.le_succ_of_le (ih h)
      · simp at h

/-- Reading a character never lengthens what is left. -/
theorem length_decodeOne? {b : UInt8} {bytes : List UInt8} {r : Char × List UInt8}
    (h : decodeOne? b bytes = .ok r) : r.2.length ≤ bytes.length := by
  unfold decodeOne? at h
  split at h
  · simp at h
  · next lead _ =>
    cases hf : readFollowing 1 lead.bits lead.low lead.high lead.following bytes with
    | error e => simp [hf, bind, Except.bind] at h
    | ok p =>
      simp only [hf, bind, Except.bind, pure, Except.pure, Except.ok.injEq] at h
      rw [← h]
      exact length_readFollowing hf

/-- Decodes the bytes from a position on. -/
def decodeFrom (position : Nat) (bytes : List UInt8) : Except Invalid (List Char) :=
  match bytes with
  | [] => .ok []
  | b :: rest =>
    match _h : decodeOne? b rest with
    | .error (length, flaw) => .error ⟨b, position, length, flaw⟩
    | .ok (c, behind) =>
      (decodeFrom (position + 1 + rest.length - behind.length) behind).map (c :: ·)
termination_by bytes.length
decreasing_by
  have := length_decodeOne? _h
  simp only [List.length_cons] at *
  omega

/-- Decodes a sequence of bytes. -/
def decode (bytes : List UInt8) : Except Invalid (List Char) := decodeFrom 0 bytes

end Monkey.Utf8
