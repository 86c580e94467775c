import Monkey.Proofs.Brackets

/-!
# Where parameters and binary numbers come from

The parser takes any token for a parameter, and any token for the fraction behind a point; of both it
uses the text only. `origins` finds these places in the tokens of a text, without a parser, and
`leaves_of_clean` says that the parameters and binary numbers of the tree are those found there.

A parameter may be of any kind. For a fraction the text has to go on a numeral, and so only digits, a
string and the end of the input can stand behind a point (`kind_of_fraction`).
-/

namespace Monkey

open Text

/-! ## No fraction without digits -/

namespace Numeral

variable {w s cs : List Char}

/-- What is dropped in front of a point does not reach beyond it. -/
theorem dropWhile_point {p : Char → Bool} (hp : ¬p '.') (w s : List Char) :
    (w ++ '.' :: s).dropWhile p = w.dropWhile p ++ '.' :: s := by
  induction w with
  | nil => exact List.dropWhile_cons_of_neg hp
  | cons c w ih =>
    by_cases hc : p c
    · rw [List.cons_append, List.dropWhile_cons_of_pos hc, List.dropWhile_cons_of_pos hc, ih]
    · rw [List.cons_append, List.dropWhile_cons_of_neg hc, List.dropWhile_cons_of_neg hc]
      rfl

/-- A tail without blanks is not trimmed. -/
theorem trim_point (w : List Char) (hs : s ≠ []) (hblank : ∀ c ∈ s, ¬isMarginBlank c) :
    ∃ w', trim (w ++ '.' :: s) = w' ++ '.' :: s := by
  refine ⟨w.dropWhile isMarginBlank, ?_⟩
  rw [trim, dropWhile_point (by decide), List.reverse_append, List.reverse_cons]
  cases hlast : s.reverse with
  | nil => exact absurd (List.reverse_eq_nil_iff.mp hlast) hs
  | cons last more =>
    have hmem : last ∈ s := by
      rw [← List.mem_reverse, hlast]
      exact List.mem_cons_self
    rw [List.cons_append, List.cons_append, List.dropWhile_cons_of_neg (hblank last hmem)]
    rw [← List.cons_append, ← List.cons_append, ← hlast]
    simp

/-- Without digits there is nothing to join. -/
theorem joinGroups_of_no_digit (hs : ∀ c ∈ s, decimalValue? c = none) {afterDigit : Bool}
    (h : joinGroups afterDigit s = some cs) : cs = s := by
  induction s generalizing afterDigit cs with
  | nil => exact (Option.some.inj h).symm
  | cons c s ih =>
    obtain ⟨-, hmore⟩ := List.forall_mem_cons.mp hs
    rw [joinGroups] at h
    split at h
    · -- an underscore is refused, since no digit follows it
      have hstart : startsWithDigit s = false := by
        cases s with
        | nil => rfl
        | cons next s => simp [startsWithDigit, hmore next List.mem_cons_self]
      rw [hstart, Bool.and_false] at h
      cases h
    · obtain ⟨more, hjoin, rfl⟩ := Option.map_eq_some_iff.mp h
      rw [ih hmore hjoin]

/-- A tail without digits is left behind its point. -/
theorem joinGroups_point (hs : ∀ c ∈ s, decimalValue? c = none) {afterDigit : Bool}
    (h : joinGroups afterDigit (w ++ '.' :: s) = some cs) : ∃ w', cs = w' ++ '.' :: s := by
  induction w generalizing afterDigit cs with
  | nil =>
    rw [List.nil_append, joinGroups, if_neg (by decide)] at h
    obtain ⟨more, hjoin, rfl⟩ := Option.map_eq_some_iff.mp h
    exact ⟨[], by rw [joinGroups_of_no_digit hs hjoin]; rfl⟩
  | cons c w ih =>
    rw [List.cons_append, joinGroups] at h
    split at h
    · split at h
      · exact ih h
      · cases h
    · obtain ⟨more, hjoin, rfl⟩ := Option.map_eq_some_iff.mp h
      obtain ⟨w', rfl⟩ := ih hjoin
      exact ⟨c :: w', rfl⟩

/-- A sign stands in front of the point. -/
theorem splitSign_point (w s : List Char) :
    ∃ w', (splitSign (w ++ '.' :: s)).2 = w' ++ '.' :: s := by
  cases w with
  | nil => exact ⟨[], rfl⟩
  | cons c w =>
    unfold splitSign
    split
    · next heq => exact ⟨w, (List.cons.inj heq).2.symm⟩
    · next heq => exact ⟨w, (List.cons.inj heq).2.symm⟩
    · exact ⟨c :: w, rfl⟩

theorem splitDigits_point (w s : List Char) :
    ∃ w', (splitDigits (w ++ '.' :: s)).2 = w' ++ '.' :: s :=
  ⟨_, dropWhile_point (by decide) w s⟩

/-- A point does not stand among digits alone. -/
theorem readSigned?_point (w s : List Char) : readSigned? (w ++ '.' :: s) = none := by
  obtain ⟨w₁, hsign⟩ := splitSign_point w s
  obtain ⟨w₂, hdigits⟩ := splitDigits_point w₁ s
  rw [← hsign] at hdigits
  unfold readSigned?
  dsimp only
  split
  · rfl
  · next hsplit =>
    rw [hsplit] at hdigits
    simp at hdigits
  · rfl

/-- No exponent has a point in it. -/
theorem readExponent?_point (w s : List Char) : readExponent? (w ++ '.' :: s) = none := by
  cases w with
  | nil => rfl
  | cons mark w =>
    rw [List.cons_append, readExponent?, readSigned?_point]
    exact ite_self none

theorem splitDigits_of_no_digit (hs : ∀ c ∈ s, decimalValue? c = none) :
    splitDigits s = ([], s) := by
  cases s with
  | nil => rfl
  | cons c s => simp [splitDigits, hs c List.mem_cons_self]

theorem mem_of_mem_splitSign {c : Char} (h : c ∈ (splitSign cs).2) : c ∈ cs := by
  unfold splitSign at h
  split at h
  · exact List.mem_cons_of_mem _ h
  · exact List.mem_cons_of_mem _ h
  · exact h

/-- No exponent is without digits. -/
theorem readExponent?_of_no_digit (hne : s ≠ []) (hs : ∀ c ∈ s, decimalValue? c = none) :
    readExponent? s = none := by
  cases s with
  | nil => exact absurd rfl hne
  | cons mark s =>
    obtain ⟨-, hmore⟩ := List.forall_mem_cons.mp hs
    have hsigned : readSigned? s = none := by
      unfold readSigned?
      dsimp only
      rw [splitDigits_of_no_digit fun c hc => hmore c (mem_of_mem_splitSign hc)]
    rw [readExponent?, hsigned]
    exact ite_self none

theorem namedMagnitude?_point (w s : List Char) : namedMagnitude? (w ++ '.' :: s) = none := by
  have hpoint : '.' ∈ (String.ofList ((w ++ '.' :: s).map Char.toLower)).toList := by
    rw [String.toList_ofList]
    exact List.mem_map.mpr ⟨'.', by simp, by decide⟩
  unfold namedMagnitude?
  split
  case h_4 => rfl
  all_goals
    next hword =>
      rw [hword] at hpoint
      exact absurd hpoint (by decide)

/-- What stands behind the digits of a fraction is no exponent, neither behind the last point nor
behind one in front of it. -/
theorem readExponent?_splitFraction (w : List Char) (hne : s ≠ [])
    (hs : ∀ c ∈ s, decimalValue? c = none) :
    readExponent? (splitFraction (w ++ '.' :: s)).2 = none := by
  unfold splitFraction
  split
  · next heq =>
    cases w with
    | nil =>
      obtain ⟨-, rfl⟩ := List.cons.inj heq
      rw [splitDigits_of_no_digit hs]
      exact readExponent?_of_no_digit hne hs
    | cons c w =>
      obtain ⟨-, rfl⟩ := List.cons.inj heq
      obtain ⟨w', hdigits⟩ := splitDigits_point w s
      show readExponent? (splitDigits (w ++ '.' :: s)).2 = none
      rw [hdigits]
      exact readExponent?_point w' s
  · exact readExponent?_point w s

/-- A point with neither a digit nor the end behind it makes no number. -/
theorem readMagnitude?_point (negative : Bool) (w : List Char) (hne : s ≠ [])
    (hs : ∀ c ∈ s, decimalValue? c = none) : readMagnitude? negative (w ++ '.' :: s) = none := by
  obtain ⟨w', hdigits⟩ := splitDigits_point w s
  unfold readMagnitude?
  dsimp only
  rw [hdigits, readExponent?_splitFraction w' hne hs]
  exact ite_self none

/-- No binary number has text behind its point, but no digit there. -/
theorem readBinary64?_point {text : String} (htext : text.toList = w ++ '.' :: s) (hne : s ≠ [])
    (hs : ∀ c ∈ s, decimalValue? c = none) (hblank : ∀ c ∈ s, ¬isMarginBlank c) :
    readBinary64? text = none := by
  unfold readBinary64?
  rw [htext]
  obtain ⟨w₁, htrim⟩ := trim_point w hne hblank
  rw [htrim]
  cases hjoin : joinGroups false (w₁ ++ '.' :: s) with
  | none => rfl
  | some cs =>
    obtain ⟨w₂, rfl⟩ := joinGroups_point hs hjoin
    obtain ⟨w₃, hsign⟩ := splitSign_point w₂ s
    simp only [Option.bind_eq_bind, Option.bind_some, hsign, namedMagnitude?_point]
    exact readMagnitude?_point _ w₃ hne hs

end Numeral

/-- No fraction is without digits, but for blanks and nothing at all. -/
theorem fractionValue?_of_no_digit {fraction : String} (hne : fraction.toList ≠ [])
    (h : ∀ c ∈ fraction.toList, ¬isDigit c ∧ ¬isBlank c) (whole : Int) :
    fractionValue? whole fraction = none := by
  refine Numeral.readBinary64?_point (w := ((Numeral.ofInt? whole).getD "").toList) (by simp) hne
    (fun c hc => ?_) fun c hc => ?_
  · have hdigit := (h c hc).1
    simp only [isDigit, Bool.or_eq_true, not_or] at hdigit
    simpa using hdigit.1
  · have hblank := (h c hc).2
    simp [isMarginBlank, hblank]

/-- A token that is neither a number nor a string has no digit in it. -/
theorem Lexes.no_digit {cs rest : List Char} {t : Token} (h : Lexes cs t rest)
    (hint : t.kind ≠ .int) (hstring : t.kind ≠ .string) :
    t.literal.toList ≠ [] ∧ ∀ c ∈ t.literal.toList, ¬isDigit c ∧ ¬isBlank c := by
  cases h with
  | number => exact absurd rfl hint
  | string | openString => exact absurd rfl hstring
  | word nonempty letters =>
    rw [String.toList_ofList]
    refine ⟨nonempty, fun c hc => ⟨fun hdigit => ?_, not_isBlank_of_isNameChar (letters c hc)⟩⟩
    exact not_isNameChar_of_isDigit hdigit (letters c hc)
  | eq | notEq =>
    have hsigns : (¬isDigit '=' ∧ ¬isBlank '=') ∧ ¬isDigit '!' ∧ ¬isBlank '!' := by decide
    exact ⟨by decide, by simp [TokenKind.sign, TokenKind.mark, hsigns]⟩
  | single visible apart =>
    have hdigit := apart.1
    simp only [isWordChar, Bool.or_eq_true, not_or] at hdigit
    simp [visible.1, hdigit.2]

/-- **Only numbers and strings make fractions.** -/
theorem kind_of_fraction {text : String} (hnull : '\x00' ∉ text.toList) {t : Token}
    (ht : t ∈ tokenize text) {whole : Int} {x : Binary64}
    (h : fractionValue? whole t.literal = some x) : t.kind = .int ∨ t.kind = .string := by
  by_contra hkind
  obtain ⟨hint, hstring⟩ := not_or.mp hkind
  obtain ⟨cs, rest, hlexes⟩ := (scans_tokensOf hnull).lexes_of_mem t ht
  obtain ⟨hne, hplain⟩ := hlexes.no_digit hint hstring
  rw [fractionValue?_of_no_digit hne hplain] at h
  cases h

/-! ## Origins -/

/-- What a parameter or a binary number is made of. -/
inductive Origin where
  | parameter (token : Token)
  /-- The tokens around a point. At the end of the input there is none behind it. -/
  | float (whole point : Token) (fraction : Option Token)
  deriving DecidableEq

/-- A parameter or a binary number of a tree. -/
inductive Leaf where
  | parameter (name : Name)
  | float (point : Token) (value : Binary64)
  deriving DecidableEq

namespace Origin

/-- A parameter is called by the text of its token, and a binary number is read from the texts around
its point. -/
inductive Makes : Origin → Leaf → Prop where
  | parameter : Makes (.parameter t) (.parameter ⟨t, t.literal⟩)
  | float (number : whole.kind = .int) (dot : point.kind = .dot)
      (value : Numeral.readInt? whole.literal = some n)
      (read : fractionValue? n ((fraction.map Token.literal).getD "") = some x) :
      Makes (.float whole point fraction) (.float point x)

/-- The tokens of an origin stand one behind the other; only at the end is there no fraction. -/
def StandsIn (ts : List Token) : Origin → Prop
  | parameter t => t ∈ ts
  | float whole point (some fraction) => [whole, point, fraction] <:+: ts
  | float whole point none => [whole, point] <:+ ts

/-- Whether it is a name, or digits on both sides of a point. -/
def isProper : Origin → Bool
  | parameter t => t.kind = .ident
  | float whole point (some fraction) =>
    whole.kind = .int ∧ point.kind = .dot ∧ fraction.kind = .int
  | float _ _ none => false

/-- Whether it is a parameter that is no name, or a point with a string or nothing behind it. -/
def isStray : Origin → Bool
  | parameter t => t.kind ≠ .ident
  | float _ _ (some fraction) => fraction.kind = .string
  | float _ _ none => true

/-- What stands in the rest of the tokens stands in them. -/
theorem StandsIn.of_suffix {o : Origin} {us ts : List Token} (hus : us <:+ ts)
    (h : o.StandsIn us) : o.StandsIn ts := by
  match o, h with
  | parameter _, h => exact hus.mem h
  | float _ _ (some _), h => exact h.trans hus.isInfix
  | float _ _ none, h => exact h.trans hus

end Origin

/-! ## The search for origins -/

/-- Where the search for origins is in the tokens. -/
inductive Spot where
  | code
  /-- Behind the word that begins a function. -/
  | word
  /-- Behind the parenthesis in front of the parameters. -/
  | opening
  /-- Behind a parameter. -/
  | parameter
  /-- Behind a comma between parameters. -/
  | comma
  /-- Behind a number. -/
  | number (whole : Token)
  /-- Behind the point of a number. -/
  | point (whole point : Token)

/-- The kinds of token that an origin may begin with, or stand behind. -/
def TokenKind.announcesOrigin : TokenKind → Bool
  | function | int => true
  | _ => false

namespace Spot

/-- The place behind a token that stands in code. -/
def behind (t : Token) : Spot :=
  match t.kind with
  | .function => word
  | .int => number t
  | _ => code

/-- The place behind a token, and the origins that end with it. -/
def step : Spot → Token → Spot × List Origin
  | code, t => (behind t, [])
  | word, _ => (opening, [])
  | opening, t => if t.kind = .rparen then (code, []) else (parameter, [.parameter t])
  | parameter, t => if t.kind = .comma then (comma, []) else (code, [])
  | comma, t => (parameter, [.parameter t])
  | number whole, t => if t.kind = .dot then (point whole t, []) else (behind t, [])
  | point whole dot, t => (code, [.float whole dot (some t)])

/-- The origins that are found in tokens from a place on. -/
def search : Spot → List Token → List Origin
  | point whole dot, [] => [.float whole dot none]
  | _, [] => []
  | spot, t :: ts => (spot.step t).2 ++ search (spot.step t).1 ts

end Spot

/-- The origins in the tokens of a program. -/
def origins (ts : List Token) : List Origin := Spot.code.search ts

namespace Spot

/-- The tokens in front of a place that may belong to an origin. -/
def pending : Spot → List Token
  | number whole => [whole]
  | point whole dot => [whole, dot]
  | _ => []

theorem pending_behind (t : Token) : (behind t).pending <:+ [t] := by
  unfold behind
  split
  · exact List.nil_suffix
  · exact List.suffix_rfl
  · exact List.nil_suffix

/-- A step holds back no more than it was given. -/
theorem pending_step (spot : Spot) (t : Token) :
    (spot.step t).1.pending <:+ spot.pending ++ [t] := by
  cases spot with
  | code => exact pending_behind t
  | word => exact List.nil_suffix
  | opening | parameter =>
    rw [step]
    split <;> exact List.nil_suffix
  | comma => exact List.nil_suffix
  | number whole =>
    rw [step]
    split
    · exact List.suffix_rfl
    · exact (pending_behind t).trans (List.suffix_append [whole] [t])
  | point => exact List.nil_suffix

theorem stands_of_mem_step {spot : Spot} {t : Token} {o : Origin} (h : o ∈ (spot.step t).2)
    (ts : List Token) : o.StandsIn (spot.pending ++ t :: ts) := by
  have hparameter : (Origin.parameter t).StandsIn (t :: ts) := List.mem_cons_self
  cases spot with
  | code | word => cases h
  | opening =>
    rw [step] at h
    split at h
    · cases h
    · exact List.mem_singleton.mp h ▸ hparameter
  | parameter =>
    rw [step] at h
    split at h <;> cases h
  | comma => exact List.mem_singleton.mp h ▸ hparameter
  | number =>
    rw [step] at h
    split at h <;> cases h
  | point whole dot =>
    rw [List.mem_singleton.mp h]
    exact (List.prefix_append [whole, dot, t] ts).isInfix

/-- **What is found stands in the tokens.** -/
theorem stands_of_mem_search {spot : Spot} {ts : List Token} {o : Origin}
    (h : o ∈ spot.search ts) : o.StandsIn (spot.pending ++ ts) := by
  induction ts generalizing spot with
  | nil =>
    cases spot with
    | point whole dot =>
      rw [List.mem_singleton.mp h]
      exact List.suffix_rfl
    | _ => cases h
  | cons t ts ih =>
    rw [search, List.mem_append] at h
    rcases h with hstep | hlater
    · exact stands_of_mem_step hstep ts
    · obtain ⟨before, hpending⟩ := pending_step spot t
      refine (ih hlater).of_suffix ⟨before, ?_⟩
      rw [← List.append_assoc, hpending, List.append_assoc, List.singleton_append]

/-- A number without a point behind it is the origin of nothing. -/
theorem search_number {rest : List Token} (t : Token) (h : nextKind rest ≠ .dot) :
    (number t).search rest = origins rest := by
  cases rest with
  | nil => rfl
  | cons next rest =>
    have hstep : (number t).step next = code.step next := if_neg h
    rw [origins, search, search, hstep]

end Spot

/-- A token that announces nothing is skipped. -/
theorem origins_plain {t : Token} (ht : t.kind.announcesOrigin = false) (ts : List Token) :
    origins (t :: ts) = origins ts := by
  have hbehind : Spot.behind t = .code := by
    unfold Spot.behind
    split
    · next hkind =>
      rw [hkind] at ht
      cases ht
    · next hkind =>
      rw [hkind] at ht
      cases ht
    · rfl
  show (Spot.behind t).search ts = _
  rw [hbehind, origins]

theorem origins_number {t : Token} (ht : t.kind = .int) (ts : List Token) :
    origins (t :: ts) = (Spot.number t).search ts := by
  have hbehind : Spot.behind t = .number t := by rw [Spot.behind, ht]
  show (Spot.behind t).search ts = _
  rw [hbehind]

/-- Behind a number and a point a fraction is awaited. -/
theorem origins_point {t point : Token} (ht : t.kind = .int) (hpoint : point.kind = .dot)
    (ts : List Token) : origins (t :: point :: ts) = (Spot.point t point).search ts := by
  have hstep : (Spot.number t).step point = (.point t point, []) := if_pos hpoint
  rw [origins_number ht, Spot.search, hstep]
  rfl

/-- Behind the word for functions parameters are awaited. -/
theorem origins_function {t : Token} (ht : t.kind = .function) (l : Token) (ts : List Token) :
    origins (t :: l :: ts) = Spot.opening.search ts := by
  have hbehind : Spot.behind t = .word := by rw [Spot.behind, ht]
  show (Spot.behind t).search (l :: ts) = _
  rw [hbehind]
  rfl

/-- Where neither of two kinds passes a check, what passes it announces no origin. -/
theorem TokenKind.announcesOrigin_eq_false {p : TokenKind → Bool} {kind : TokenKind}
    (hp : p .function = false ∧ p .int = false) (h : p kind) : kind.announcesOrigin = false := by
  cases kind
  case function => exact absurd h (by rw [hp.1]; decide)
  case int => exact absurd h (by rw [hp.2]; decide)
  all_goals rfl

/-! ## Leaves -/

namespace Node

mutual

/-- The parameters and binary numbers of a tree, in the order of the text. -/
def leaves : Node → List Leaf
  | program statements | block _ statements => leavesOfEach statements
  | letBinding _ _ e | constBinding _ _ e | assignment _ _ e | returning _ e | statement _ e
  | prefixOp _ _ e => leaves e
  | loop _ a b | infixOp _ _ a b | ifThen _ a b | index _ a b => leaves a ++ leaves b
  | ifElse _ a b c => leaves a ++ leaves b ++ leaves c
  | function _ parameters body => parameters.map .parameter ++ leaves body
  | call _ f arguments => leaves f ++ leavesOfEach arguments
  | array _ elements => leavesOfEach elements
  | dictionary _ pairs => leavesOfPairs pairs
  | float point value => [.float point value]
  | missing | identifier _ | integer .. | boolean .. | string .. => []

def leavesOfEach : List Node → List Leaf
  | [] => []
  | node :: nodes => leaves node ++ leavesOfEach nodes

def leavesOfPairs : List (Node × Node) → List Leaf
  | [] => []
  | (key, value) :: pairs => leaves key ++ leaves value ++ leavesOfPairs pairs

end

end Node

/-- Between `ts`, where the search is at one place, and `rest`, where it is at another one, it finds
the origins of these leaves. -/
def Supplies (spot spot' : Spot) (leaves : List Leaf) (ts rest : List Token) : Prop :=
  ∃ found, List.Forall₂ Origin.Makes found leaves ∧ spot.search ts = found ++ spot'.search rest

namespace Supplies

variable {spot spot₁ spot₂ : Spot} {ls ls' : List Leaf} {t l : Token} {ts us rest : List Token}

theorem of_eq (h : spot.search ts = spot₁.search rest) : Supplies spot spot₁ [] ts rest :=
  ⟨[], .nil, h⟩

theorem refl (ts : List Token) : Supplies spot spot [] ts ts := .of_eq rfl

/-- One piece and another one behind it. -/
theorem append (h : Supplies spot spot₁ ls ts us) (h' : Supplies spot₁ spot₂ ls' us rest) :
    Supplies spot spot₂ (ls ++ ls') ts rest := by
  obtain ⟨found, hmakes, hts⟩ := h
  obtain ⟨found', hmakes', hus⟩ := h'
  refine ⟨found ++ found', List.rel_append hmakes hmakes', ?_⟩
  rw [hts, hus, List.append_assoc]

/-- A piece and one behind it that supplies nothing. -/
theorem ended (h : Supplies spot spot₁ ls ts us) (h' : Supplies spot₁ spot₂ [] us rest) :
    Supplies spot spot₂ ls ts rest := by
  have happend := h.append h'
  rwa [List.append_nil] at happend

/-- A token that announces nothing. -/
theorem plain (ht : t.kind.announcesOrigin = false) (h : Supplies .code spot ls ts rest) :
    Supplies .code spot ls (t :: ts) rest := by
  obtain ⟨found, hmakes, hts⟩ := h
  exact ⟨found, hmakes, (origins_plain ht ts).trans hts⟩

/-- A part and a token behind it that announces nothing. -/
theorem closed (h : Supplies spot .code ls ts (t :: rest)) (ht : t.kind.announcesOrigin = false) :
    Supplies spot .code ls ts rest := h.ended (.plain ht (.refl _))

theorem integer (ht : t.kind = .int) (hrest : nextKind rest ≠ .dot) :
    Supplies .code .code [] (t :: rest) rest :=
  .of_eq ((origins_number ht rest).trans (Spot.search_number t hrest))

variable {point fraction r c : Token} {n : Int} {x : Binary64}

/-- A number with a fraction supplies a leaf, at its point. -/
theorem float (ht : t.kind = .int) (hwhole : Numeral.readInt? t.literal = some n)
    (hpoint : point.kind = .dot) (hx : fractionValue? n fraction.literal = some x) :
    Supplies .code .code [.float point x] (t :: point :: fraction :: rest) rest := by
  refine ⟨[.float t point (some fraction)], .cons (.float ht hpoint hwhole hx) .nil, ?_⟩
  exact origins_point ht hpoint (fraction :: rest)

/-- At the end of the input the fraction is empty. -/
theorem floatAtEnd (ht : t.kind = .int) (hwhole : Numeral.readInt? t.literal = some n)
    (hpoint : point.kind = .dot) (hx : fractionValue? n "" = some x) :
    Supplies .code .code [.float point x] [t, point] [] := by
  refine ⟨[.float t point none], .cons (.float ht hpoint hwhole hx) .nil, ?_⟩
  exact origins_point ht hpoint []

/-! The parameters of a function, up to the parenthesis behind them. -/

theorem function (ht : t.kind = .function) (h : Supplies .opening spot ls ts rest) :
    Supplies .code spot ls (t :: l :: ts) rest := by
  obtain ⟨found, hmakes, hts⟩ := h
  exact ⟨found, hmakes, (origins_function ht l ts).trans hts⟩

theorem noParameters (hr : r.kind = .rparen) : Supplies .opening .code [] (r :: rest) rest := by
  have hstep : Spot.opening.step r = (.code, []) := if_pos hr
  exact .of_eq (by rw [Spot.search, hstep]; rfl)

/-- Any token but a closing parenthesis is the first parameter. -/
theorem firstParameter (ht : t.kind ≠ .rparen) (h : Supplies .parameter spot ls ts rest) :
    Supplies .opening spot (.parameter ⟨t, t.literal⟩ :: ls) (t :: ts) rest := by
  obtain ⟨found, hmakes, hts⟩ := h
  refine ⟨.parameter t :: found, .cons .parameter hmakes, ?_⟩
  have hstep : Spot.opening.step t = (.parameter, [.parameter t]) := if_neg ht
  rw [Spot.search, hstep, hts]
  rfl

/-- Any token behind a comma is the next one. -/
theorem nextParameter (hc : c.kind = .comma) (h : Supplies .parameter spot ls ts rest) :
    Supplies .parameter spot (.parameter ⟨t, t.literal⟩ :: ls) (c :: t :: ts) rest := by
  obtain ⟨found, hmakes, hts⟩ := h
  refine ⟨.parameter t :: found, .cons .parameter hmakes, ?_⟩
  have hstep : Spot.parameter.step c = (.comma, []) := if_pos hc
  rw [Spot.search, hstep, List.cons_append, ← hts]
  rfl

theorem noMoreParameters (hr : r.kind = .rparen) :
    Supplies .parameter .code [] (r :: rest) rest := by
  have hstep : Spot.parameter.step r = (.code, []) := if_neg (by rw [hr]; decide)
  exact .of_eq (by rw [Spot.search, hstep]; rfl)

end Supplies

namespace Part

/-- The tokens of a part hold the origins of its leaves. An extension comes with more leaves than
what it extends. -/
def Supplied (ts rest : List Token) : Part → Prop
  | expression _ e | first e | block e | statement e => Supplies .code .code e.leaves ts rest
  | link left e | extension _ left e =>
    ∃ ls, e.leaves = left.leaves ++ ls ∧ Supplies .code .code ls ts rest
  | expressions es | moreExpressions es | statements es =>
    Supplies .code .code (Node.leavesOfEach es) ts rest
  | pairs ps => Supplies .code .code (Node.leavesOfPairs ps) ts rest
  | parameters names => ∀ r us, rest = r :: us → r.kind = .rparen →
    Supplies .opening .code (names.map .parameter) ts us
  | moreParameters names => Supplies .parameter .parameter (names.map .parameter) ts rest
  | ending => Supplies .code .code [] ts rest

end Part

/-- **What is read has its origins in its tokens.** -/
theorem Reads.supplied {part : Part} {ts rest : List Token} (h : Reads part ts rest) :
    part.Supplied ts rest := by
  induction h with
  | identifier kind | string kind => exact .plain (by rw [kind]; rfl) (.refl _)
  | boolean kind => exact .plain (TokenKind.announcesOrigin_eq_false (by decide) kind) (.refl _)
  | integer kind _ noPoint => exact .integer kind noPoint
  | float kind whole dot value => exact .float kind whole dot value
  | floatAtEnd kind whole dot value => exact .floatAtEnd kind whole dot value
  | group opening _ closing ih =>
    exact .plain (by rw [opening]; rfl) (ih.closed (by rw [closing]; rfl))
  | prefixOp operator _ ih =>
    exact .plain (TokenKind.announcesOrigin_eq_false (by decide) operator) ih
  | ifThen word opening _ closing _ _ ihc ihb =>
    exact .plain (by rw [word]; rfl) (.plain (by rw [opening]; rfl)
      ((ihc.closed (by rw [closing]; rfl)).append ihb))
  | ifElse word opening _ closing _ otherwise _ ihc ihb₁ ihb₂ =>
    exact .plain (by rw [word]; rfl) (.plain (by rw [opening]; rfl)
      (((ihc.closed (by rw [closing]; rfl)).append
        (ihb₁.closed (by rw [otherwise]; rfl))).append ihb₂))
  | function word _ _ closing _ ihps ihb =>
    exact .function word ((ihps _ _ rfl closing).append ihb)
  | array opening _ closing ih | dictionary opening _ closing ih =>
    exact .plain (by rw [opening]; rfl) (ih.closed (by rw [closing]; rfl))
  | infixOp operator _ ih =>
    exact ⟨_, rfl, .plain (TokenKind.announcesOrigin_eq_false (by decide) operator) ih⟩
  | call opening _ closing ih | index opening _ closing ih =>
    exact ⟨_, rfl, .plain (by rw [opening]; rfl) (ih.closed (by rw [closing]; rfl))⟩
  | unextended => exact ⟨[], (List.append_nil _).symm, .refl _⟩
  | extended _ _ _ ihlink ihmore =>
    obtain ⟨ls, hls, hlink⟩ := ihlink
    obtain ⟨ls', hls', hmore⟩ := ihmore
    exact ⟨ls ++ ls', by rw [hls', hls, List.append_assoc], hlink.append hmore⟩
  | expression _ _ ihfirst ihmore =>
    obtain ⟨ls, hls, hmore⟩ := ihmore
    show Supplies _ _ (Node.leaves _) _ _
    rw [hls]
    exact ihfirst.append hmore
  | noMoreExpressions | noExpressions | noMoreParameters | noPairs | noEnding | noStatements =>
    exact .refl _
  | oneMoreExpression comma _ _ ihfirst ihmore =>
    exact .plain (by rw [comma]; rfl) (ihfirst.append ihmore)
  | someExpressions _ _ ihfirst ihmore | oneStatement _ _ ihfirst ihmore =>
    exact ihfirst.append ihmore
  | oneMoreParameter comma _ ih => exact .nextParameter comma ih
  | noParameters =>
    rintro r us rfl closing
    exact .noParameters closing
  | someParameters notClosing _ ih =>
    rintro r us rfl closing
    exact .firstParameter notClosing (ih.ended (.noMoreParameters closing))
  | lastPair _ colon _ ihk ihv =>
    exact ((ihk.closed (by rw [colon]; rfl)).append ihv).append (.refl _)
  | onePair _ colon _ comma _ ihk ihv ihps =>
    exact ((ihk.closed (by rw [colon]; rfl)).append (ihv.closed (by rw [comma]; rfl))).append ihps
  | semicolon kind => exact .plain (by rw [kind]; rfl) (.refl _)
  | letBinding word name sign _ _ ihv ihend | constBinding word name sign _ _ ihv ihend =>
    exact .plain (by rw [word]; rfl) (.plain (by rw [name]; rfl) (.plain (by rw [sign]; rfl)
      (ihv.ended ihend)))
  | assignment name sign _ _ ihv ihend =>
    exact .plain (by rw [name]; rfl) (.plain (by rw [sign]; rfl) (ihv.ended ihend))
  | returning word _ _ ihv ihend => exact .plain (by rw [word]; rfl) (ihv.ended ihend)
  | loop word opening _ closing _ ihc ihb =>
    exact .plain (by rw [word]; rfl) (.plain (by rw [opening]; rfl)
      ((ihc.closed (by rw [closing]; rfl)).append ihb))
  | statement _ _ _ ihv ihend => exact ihv.ended ihend
  | block opening _ closing ih =>
    exact .plain (by rw [opening]; rfl) (ih.closed (by rw [closing]; rfl))
  | blockAtEnd opening _ ih => exact .plain (by rw [opening]; rfl) ih

/-! ## Texts without an error -/

namespace Origin

variable {text : String} {o : Origin} {leaf : Leaf}

/-- What makes a leaf and stands in a text is proper or stray. -/
theorem Makes.isProper_iff (hnull : '\x00' ∉ text.toList) (h : o.Makes leaf)
    (ho : o.StandsIn (tokenize text)) : o.isProper ↔ ¬o.isStray := by
  match o, h with
  | .parameter _, _ => simp [isProper, isStray]
  | .float _ _ none, _ => simp [isProper, isStray]
  | .float whole point (some t), .float number dot _ read =>
    have hinfix : [whole, point, t] <:+: tokenize text := ho
    have ht : t ∈ tokenize text := hinfix.subset (by simp)
    rcases kind_of_fraction hnull ht read with hkind | hkind
    · simp [isProper, isStray, number, dot, hkind]
    · simp [isProper, isStray, hkind]

end Origin

/-- **Parameters are names and fractions are digits, but for strays.** The parameters and binary
numbers of a text that is read without an error are made, in their order, of the origins in its
tokens, each of which stands in one place of the text. An origin is a name, or a number, a point and
a number, exactly if it is no stray: no other token for a parameter, and no point with a string or
the end of the input behind it. -/
theorem leaves_of_clean {text : String} (hnull : '\x00' ∉ text.toList)
    (hclean : (parse text).errors = []) :
    List.Forall₂ Origin.Makes (origins (tokenize text)) (parse text).tree.leaves ∧
    ∀ o ∈ origins (tokenize text),
      o.StandsIn (tokenize text) ∧ (o.isProper ↔ ¬o.isStray) := by
  have hreads := reads_parseTokens (unbroken_tokenize hnull) hclean
  obtain ⟨found, hmakes, hfound⟩ := hreads.supplied
  have hall : origins (tokenize text) = found := hfound.trans (List.append_nil found)
  rw [hall]
  have hstands : ∀ o ∈ found, o.StandsIn (tokenize text) := fun o ho =>
    Spot.stands_of_mem_search (hall ▸ ho)
  have hproper := (List.forall₂_and_left _ _).mp
    (hmakes.imp fun o _ h => ⟨h.isProper_iff hnull, h⟩)
  exact ⟨hmakes, fun o ho => ⟨hstands o ho, hproper.1 o ho (hstands o ho)⟩⟩

/-- Two parameters, the second of which is a number, two binary numbers with a string behind the
point of the second one, and a point at the end of the text. -/
def strays : String := "fn(x, 7) \x7b \x7b1.5: x\x7d[1.\"5\"] \x7d; 2."

/-- The origins of that text. -/
def straysOrigins : List Origin :=
  [.parameter ⟨.ident, "x"⟩, .parameter ⟨.int, "7"⟩,
   .float ⟨.int, "1"⟩ ⟨.dot, "."⟩ (some ⟨.int, "5"⟩),
   .float ⟨.int, "1"⟩ ⟨.dot, "."⟩ (some ⟨.string, "5"⟩), .float ⟨.int, "2"⟩ ⟨.dot, "."⟩ none]

/-- Two of its origins are proper, and the other three are stray. -/
theorem leaves_of_clean_strays :
    '\x00' ∉ strays.toList ∧ (parse strays).errors = [] ∧
    List.Forall₂ Origin.Makes straysOrigins (parse strays).tree.leaves ∧
    straysOrigins.map Origin.isStray = [false, true, false, true, true] ∧
    ∀ o ∈ straysOrigins, o.StandsIn (tokenize strays) ∧ (o.isProper ↔ ¬o.isStray) := by
  have hnull : '\x00' ∉ strays.toList := by decide
  have hclean : (parse strays).errors = [] := by decide +kernel
  have horigins : origins (tokenize strays) = straysOrigins := by decide +kernel
  obtain ⟨hmakes, hproper⟩ := leaves_of_clean hnull hclean
  rw [horigins] at hmakes hproper
  exact ⟨hnull, hclean, hmakes, by decide, hproper⟩

/-- The texts `fn(1) { }`, `1."5"` and `2.` are read without an error, but the parameter of the one
is a number, and no number stands behind the points of the others. -/
theorem not_isProper_of_clean :
    ((parse "fn(1) \x7b \x7d").errors = [] ∧
      (parse "fn(1) \x7b \x7d").tree.leaves = [.parameter ⟨⟨.int, "1"⟩, "1"⟩]) ∧
    ((parse "1.\"5\"").errors = [] ∧
      tokenize "1.\"5\"" = [⟨.int, "1"⟩, ⟨.dot, "."⟩, ⟨.string, "5"⟩] ∧
      (parse "1.\"5\"").tree.leaves = (parse "1.5").tree.leaves) ∧
    (parse "2.").errors = [] ∧ tokenize "2." = [⟨.int, "2"⟩, ⟨.dot, "."⟩] ∧
      (parse "2.").tree.leaves = (parse "2.0").tree.leaves := by
  decide +kernel

end Monkey
