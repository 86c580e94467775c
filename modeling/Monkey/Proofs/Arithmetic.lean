import Monkey.Proofs.Nesting
import Monkey.Proofs.Spelling

/-!
# Arithmetic

The sentences of the grammar

    sum := product {(+|-) product}
    product := factor {(*|%) factor}
    factor := -factor | literal | ( sum )

have the values that are usually given to them: operators of one tier are applied from the left to
the right, on integers of any size. The text of a sentence is a program without errors, and the
program gives the value of the sentence (`evaluate_sentence`).
-/

namespace Monkey

open Text

/-! ## Sentences -/

/-- The tiers of the grammar. -/
inductive Tier where
  | factor | product | sum

/-- The tier of the operands. -/
def Tier.below : Tier → Tier
  | sum => product
  | product | factor => factor

/-- The operators between operands. -/
inductive Operator where
  | times | modulo | plus | minus
  deriving DecidableEq

namespace Operator

def kind : Operator → TokenKind
  | times => .asterisk
  | modulo => .modulo
  | plus => .plus
  | minus => .minus

def tier : Operator → Tier
  | times | modulo => .product
  | plus | minus => .sum

theorem kind_ne_int (o : Operator) : o.kind ≠ .int := by cases o <;> decide

theorem isInfixOperator_kind (o : Operator) : o.kind.isInfixOperator := by cases o <;> rfl

/-- The value of an operator; the remainder has the sign of the divisor. -/
def compute? : Operator → Int → Int → Option Int
  | times, a, b => some (a * b)
  | modulo, a, b => if b = 0 then none else some (a.fmod b)
  | plus, a, b => some (a + b)
  | minus, a, b => some (a - b)

end Operator

/-- Digits that can be read as a number. -/
structure Literal where
  digits : List Char
  nonempty : digits ≠ []
  decimal : ∀ c ∈ digits, c.isDigit
  short : digits.length ≤ Numeral.digitLimit

namespace Literal

def token (l : Literal) : Token := ⟨.int, String.ofList l.digits⟩

/-- The number that the digits stand for. -/
def value (l : Literal) : Nat := Nat.ofDigitChars 10 l.digits 0

end Literal

/-- The sentences of a tier. A sentence with several operators of one tier is a chain that grows to
the right: its operands are of the tier below. -/
inductive Sentence : Tier → Type where
  | literal (l : Literal) : Sentence .factor
  | negated (operand : Sentence .factor) : Sentence .factor
  | group (content : Sentence .sum) : Sentence .factor
  | factor (only : Sentence .factor) : Sentence .product
  | product (only : Sentence .product) : Sentence .sum
  | chain (o : Operator) (left : Sentence o.tier) (right : Sentence o.tier.below) : Sentence o.tier

namespace Sentence

/-- The tokens of a sentence. -/
def tokens : {tier : Tier} → Sentence tier → List Token
  | _, literal l => [l.token]
  | _, negated s => TokenKind.minus.sign :: s.tokens
  | _, group s => TokenKind.lparen.sign :: s.tokens ++ [TokenKind.rparen.sign]
  | _, factor s | _, product s => s.tokens
  | _, chain o l r => l.tokens ++ o.kind.sign :: r.tokens

/-- The value of a sentence, unless there is a remainder by zero in it. -/
def value? : {tier : Tier} → Sentence tier → Option Int
  | _, literal l => some l.value
  | _, negated s => s.value?.map (- ·)
  | _, group s | _, factor s | _, product s => s.value?
  | _, chain o l r => do o.compute? (← l.value?) (← r.value?)

/-- Some `%` in the sentence has a right operand of value zero. -/
def DividesByZero : {tier : Tier} → Sentence tier → Prop
  | _, literal _ => False
  | _, negated s | _, group s | _, factor s | _, product s => s.DividesByZero
  | _, chain o l r => (o = .modulo ∧ r.value? = some 0) ∨ l.DividesByZero ∨ r.DividesByZero

/-- The tree of a sentence. -/
def tree : {tier : Tier} → Sentence tier → Node
  | _, literal l => .integer l.token l.value
  | _, negated s => .prefixOp TokenKind.minus.sign "-" s.tree
  | _, group s | _, factor s | _, product s => s.tree
  | _, chain o l r => .infixOp o.kind.sign o.kind.mark l.tree r.tree

/-- A sentence has no value exactly if it divides by zero. -/
theorem value?_eq_none_iff {tier : Tier} (s : Sentence tier) : s.value? = none ↔ s.DividesByZero := by
  induction s with
  | literal l => simp [value?, DividesByZero]
  | negated s ih => simp [value?, DividesByZero, ih]
  | group s ih | factor s ih | product s ih => exact ih
  | chain o l r ihl ihr =>
    rw [DividesByZero, ← ihl, ← ihr, value?]
    cases hl : l.value? with
    | none => simp
    | some a =>
      cases hr : r.value? with
      | none => simp
      | some b => cases o <;> simp [Operator.compute?]

/-! ## Reading -/

/-- No two numbers are neighbours in a sentence. -/
theorem distinct_tokens {tier : Tier} (s : Sentence tier) {rest : List Token} (hrest : Distinct rest)
    (hnumber : nextKind rest ≠ .int) : Distinct (s.tokens ++ rest) := by
  induction s generalizing rest with
  | literal l =>
    exact .number l.nonempty (fun c hc => Numeral.isDigit_of_ascii (l.decimal c hc)) hnumber hrest
  | negated s ih => exact .sign (show TokenKind.minus.isWritten '-' by decide) (ih hrest hnumber)
  | group s ih =>
    rw [tokens, List.append_assoc]
    exact .sign (show TokenKind.lparen.isWritten '(' by decide)
      (ih (.sign (show TokenKind.rparen.isWritten ')' by decide) hrest) TokenKind.noConfusion)
  | factor s ih | product s ih => exact ih hrest hnumber
  | chain o l r ihl ihr =>
    have hwritten : ∃ c, o.kind.isWritten c := by
      cases o with
      | times => exact ⟨'*', by decide⟩
      | modulo => exact ⟨'%', by decide⟩
      | plus => exact ⟨'+', by decide⟩
      | minus => exact ⟨'-', by decide⟩
    obtain ⟨c, hc⟩ := hwritten
    rw [tokens, List.append_assoc]
    exact ihl (.sign hc (ihr hrest hnumber)) o.kind_ne_int

end Sentence

/-- How tightly the operators of a tier bind. -/
def Tier.precedence : Tier → Precedence
  | factor => .prefixed
  | product => .product
  | sum => .sum

/-- The context leaves the operators of a tier to a sentence. -/
def Tier.Admits (tier : Tier) (context : Precedence) : Prop :=
  tier = .factor ∨ context.rank < tier.precedence.rank

/-- What stands behind a sentence of a tier is no part of it. -/
structure Tier.Follows (tier : Tier) (rest : List Token) : Prop where
  noPoint : nextKind rest ≠ .dot
  loose : ¬Binds tier.precedence (nextKind rest)

/-- An operator binds as its tier does. -/
theorem Operator.ofKind_kind (o : Operator) : Precedence.ofKind o.kind = o.tier.precedence := by
  cases o <;> rfl

/-- What ends a sum ends a product as well. -/
theorem Tier.Follows.below {tier : Tier} {rest : List Token} (h : tier.Follows rest) :
    tier.below.Follows rest where
  noPoint := h.noPoint
  loose hbinds := by
    refine h.loose (Nat.lt_of_le_of_lt ?_ hbinds)
    cases tier <;> decide

/-- The tokens of a sentence are read as its tree, with all that extends it. -/
theorem Sentence.reads {tier : Tier} (s : Sentence tier) {context : Precedence} {e : Node}
    {rest rest' : List Token} (hcontext : tier.Admits context) (hrest : tier.Follows rest)
    (hmore : Reads (.extension context s.tree e) rest rest') :
    Reads (.expression context e) (s.tokens ++ rest) rest' := by
  induction s generalizing context e rest rest' with
  | literal l =>
    have hvalue := Numeral.readInt?_digits l.nonempty l.decimal l.short
    exact .expression (.integer rfl hvalue hrest.noPoint) hmore
  | negated s ih =>
    have hoperand := ih (.inl rfl) hrest (.unextended hrest.loose)
    exact .expression (.prefixOp rfl hoperand) hmore
  | group s ih =>
    have hcontent : Reads (.expression .lowest s.tree)
        (s.tokens ++ TokenKind.rparen.sign :: rest) (TokenKind.rparen.sign :: rest) :=
      ih (.inr (by decide)) ⟨TokenKind.noConfusion, Nat.not_lt_zero _⟩
        (.unextended (Nat.not_lt_zero _))
    rw [tokens, List.append_assoc]
    exact .expression (.group rfl hcontent rfl) hmore
  | factor s ih => exact ih (.inl rfl) hrest.below hmore
  | product s ih =>
    have hless : context.rank < Precedence.sum.rank := hcontext.resolve_left Tier.noConfusion
    exact ih (.inr (Nat.lt_trans hless (by decide))) hrest.below hmore
  | chain o l r ihl ihr =>
    have htight : Binds context o.kind := by
      rw [Binds, o.ofKind_kind]
      exact hcontext.resolve_left (by cases o <;> exact Tier.noConfusion)
    have hright : Reads (.expression (.ofKind o.kind) r.tree) (r.tokens ++ rest) rest := by
      refine ihr ?_ hrest.below (.unextended ?_)
      · cases o <;> first | exact .inl rfl | exact .inr (by decide)
      · rw [o.ofKind_kind]
        exact hrest.loose
    have hfollows : o.tier.Follows (o.kind.sign :: r.tokens ++ rest) := by
      cases o <;> exact ⟨TokenKind.noConfusion, Nat.lt_irrefl _⟩
    rw [tokens, List.append_assoc]
    exact ihl hcontext hfollows (.extended htight (.infixOp o.isInfixOperator_kind hright) hmore)

/-! ## Evaluation -/

/-- Gives a value, or halts for a remainder by zero. -/
def computed : Option Int → Eval (Option Value)
  | some n => return some (.int n)
  | none => throw (.arithmetic .moduloByZero)

theorem withValue_computed (value? : Option Int) (next : Value → Eval (Option Value)) :
    withValue (computed value?) next =
      value?.elim (throw (.arithmetic .moduloByZero)) fun n => next (.int n) := by
  cases value? <;> rfl

/-- The operators compute with integers as they do in the sentence. -/
theorem Operator.applyInfix_eq (o : Operator) (a b : Int) :
    (some <$> applyInfix o.kind.mark (.int a) (.int b)) = computed (o.compute? a b) := by
  cases o with
  | times | plus | minus => rfl
  | modulo =>
    rw [compute?]
    by_cases hb : b = 0
    · subst hb
      rfl
    · rw [if_neg hb]
      have hmod : (Number.int a).mod (.int b) = .ok (.int (a.fmod b)) := by
        rw [Number.mod, if_neg hb]
      show some <$> (do Eval.number (← Eval.arithmetic ((Number.int a).mod (.int b)))) = _
      rw [hmod]
      rfl

/-- The tree of a sentence evaluates to its value, if evaluation may nest deep enough. -/
theorem Sentence.evaluate_tree {tier : Tier} (s : Sentence tier) :
    ∃ d, ∀ depth ≥ d, ∀ scope, evaluate depth s.tree scope = computed s.value? := by
  induction s with
  | literal l =>
    refine ⟨1, fun depth hdepth scope => ?_⟩
    obtain ⟨depth, rfl⟩ := Nat.exists_eq_add_of_le' hdepth
    rfl
  | negated s ih =>
    obtain ⟨d, hs⟩ := ih
    refine ⟨d + 1, fun depth hdepth scope => ?_⟩
    obtain ⟨depth, rfl⟩ := Nat.exists_eq_add_of_le' (Nat.le_trans (Nat.le_add_left 1 d) hdepth)
    show withValue (evaluate depth s.tree scope) (fun v => some <$> applyPrefix "-" v) = _
    rw [hs depth (by omega), withValue_computed, value?]
    cases s.value? <;> rfl
  | group s ih | factor s ih | product s ih => exact ih
  | chain o l r ihl ihr =>
    obtain ⟨d₁, hl⟩ := ihl
    obtain ⟨d₂, hr⟩ := ihr
    refine ⟨max d₁ d₂ + 1, fun depth hdepth scope => ?_⟩
    obtain ⟨depth, rfl⟩ := Nat.exists_eq_add_of_le' (Nat.le_trans (Nat.le_add_left 1 _) hdepth)
    show withValue (evaluate depth l.tree scope) (fun x =>
      withValue (evaluate depth r.tree scope) fun y => some <$> applyInfix o.kind.mark x y) = _
    rw [hl depth (by omega), hr depth (by omega), withValue_computed, value?]
    cases l.value? with
    | none => rfl
    | some a =>
      rw [Option.elim_some, withValue_computed]
      cases r.value? with
      | none => rfl
      | some b => exact o.applyInfix_eq a b

/-- **Arithmetic has its usual meaning.** The text of a sentence, with any blanks between its tokens,
is a program without errors. If evaluation may nest deep enough, it gives the value of the sentence;
it halts for a remainder by zero exactly if the right operand of some `%` has the value zero. -/
theorem evaluate_sentence (s : Sentence .sum) {text : String} (h : Spaced s.tokens text.toList) :
    (parse text).errors = [] ∧ (s.value? = none ↔ s.DividesByZero) ∧
      ∃ d, ∀ depth ≥ d, ∀ scope, evaluate depth (parse text).tree scope = computed s.value? := by
  have hdistinct := s.distinct_tokens .nil TokenKind.noConfusion
  have hreads : Reads (.expression .lowest s.tree) (s.tokens ++ []) [] :=
    s.reads (.inr (by decide)) ⟨TokenKind.noConfusion, Nat.not_lt_zero _⟩
      (.unextended (Nat.not_lt_zero _))
  rw [List.append_nil] at hdistinct hreads
  have hparse := parse_of_spells (h.spells hdistinct) hreads
  obtain ⟨d, hevaluate⟩ := s.evaluate_tree
  refine ⟨by rw [hparse], s.value?_eq_none_iff, d + 2, fun depth hdepth scope => ?_⟩
  obtain ⟨depth, rfl⟩ := Nat.exists_eq_add_of_le' (Nat.le_trans (Nat.le_add_left 2 d) hdepth)
  have hstatement : evaluate (depth + 1) (.statement (s.tokens.headD .eof) s.tree) scope =
      computed s.value? := hevaluate depth (by omega) scope
  rw [hparse, Parsed.tree, evaluate, evaluateWith, evaluateProgram_cons, hstatement]
  cases s.value? <;> rfl

/-- A factor of one digit. -/
def Sentence.digit (c : Char) (h : c.isDigit) : Sentence .factor :=
  .literal ⟨[c], List.cons_ne_nil c [], List.forall_mem_singleton.mpr h,
    show 1 ≤ Numeral.digitLimit by decide⟩

/-- The sentence `7 - -2 * (3 % -4) - 1`. -/
def sampleSentence : Sentence .sum :=
  let remainder : Sentence .product :=
    .chain .modulo (.factor (.digit '3' rfl)) (.negated (.digit '4' rfl))
  .chain .minus
    (.chain .minus (.product (.factor (.digit '7' rfl)))
      (.chain .times (.factor (.negated (.digit '2' rfl))) (.group (.product remainder))))
    (.factor (.digit '1' rfl))

/-- The sentence `8 % (9 - 9) * 0`. -/
def zeroDivision : Sentence .sum :=
  let difference : Sentence .sum :=
    .chain .minus (.product (.factor (.digit '9' rfl))) (.factor (.digit '9' rfl))
  .product (.chain .times (.chain .modulo (.factor (.digit '8' rfl)) (.group difference))
    (.digit '0' rfl))

theorem evaluate_sentence_samples :
    let text := "7- -2*(3 %\n-4)-1 "
    let text' := "8%(9-9)*0"
    (Spaced sampleSentence.tokens text.toList ∧ (parse text).errors = [] ∧
      ∃ d, ∀ depth ≥ d, ∀ scope, evaluate depth (parse text).tree scope =
        pure (some (.int 4))) ∧
    Spaced zeroDivision.tokens text'.toList ∧ (parse text').errors = [] ∧
      ∃ d, ∀ depth ≥ d, ∀ scope, evaluate depth (parse text').tree scope =
        throw (.arithmetic .moduloByZero) := by
  intro text text'
  have htext : text.toList = "7".toList ++ ("-".toList ++ (' ' :: ("-".toList ++ ("2".toList ++
      ("*".toList ++ ("(".toList ++ ("3".toList ++ (' ' :: ("%".toList ++ ('\n' :: ("-".toList ++
        ("4".toList ++ (")".toList ++ ("-".toList ++ ("1".toList ++ [' ']))))))))))))))) := by
    decide
  have hspaced : Spaced sampleSentence.tokens text.toList := by
    rw [htext]
    refine .token (.token (.blank (by decide) (.token (.token (.token (.token (.token ?_)))))))
    exact .blank (by decide) (.token (.blank (by decide) (.token (.token (.token (.token (.token
      (.blank (by decide) .nil))))))))
  have htext' : text'.toList = "8".toList ++ ("%".toList ++ ("(".toList ++ ("9".toList ++
      ("-".toList ++ ("9".toList ++ (")".toList ++ ("*".toList ++ "0".toList))))))) := by
    decide
  have hspaced' : Spaced zeroDivision.tokens text'.toList := by
    rw [htext']
    exact .token (.token (.token (.token (.token (.token (.token (.token (.token .nil))))))))
  obtain ⟨hclean, -, hvalue⟩ := evaluate_sentence sampleSentence hspaced
  obtain ⟨hclean', -, hvalue'⟩ := evaluate_sentence zeroDivision hspaced'
  exact ⟨⟨hspaced, hclean, hvalue⟩, hspaced', hclean', hvalue'⟩

end Monkey
