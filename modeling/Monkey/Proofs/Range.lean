import Mathlib
import Monkey.Number

/-!
# The range of binary numbers

An integer and the quotient of two integers become binary numbers by rounding. The greatest finite
number is `2 ^ 1024 - 2 ^ 971`; what reaches the middle between it and `2 ^ 1024` is rounded up, as
the greatest number has an odd mantissa, and is infinite then (`isInfinite_ofRatio`).

Arithmetic on numbers refuses such operands and results, and zero divisors, and nothing else
(`Number.Fails`).
-/

namespace Monkey

namespace Binary64

/-- The least magnitude that is rounded to infinity. -/
def rangeEnd : Nat := Nat.pow 2 1024 - Nat.pow 2 970

/-- Whether a number is an infinity, of either sign. -/
def isInfinite : Binary64 → Bool
  | infinite _ => true
  | _ => false

/-! ## Rounding to an integer -/

section

variable {num den : Nat}

/-- Rounding never goes below the quotient. -/
theorem div_le_divRoundEven (num den : Nat) : num / den ≤ divRoundEven num den := by
  simp only [divRoundEven]
  split
  · exact Nat.le_succ _
  · exact Nat.le_refl _

/-- Rounding goes up by one at most. -/
theorem divRoundEven_le (num den : Nat) : divRoundEven num den ≤ num / den + 1 := by
  simp only [divRoundEven]
  split
  · exact Nat.le_refl _
  · exact Nat.le_succ _

/-- What lies in the middle above an odd integer is rounded up. -/
theorem lt_divRoundEven_iff (hden : 0 < den) {k : Nat} (hk : k % 2 = 1) :
    k < divRoundEven num den ↔ (2 * k + 1) * den ≤ 2 * num := by
  have hdivision := Nat.div_add_mod num den
  have hrest := Nat.mod_lt num hden
  rcases Nat.lt_trichotomy (num / den) k with hlt | heq | hgt
  · -- the quotient is less, and rounding does not reach beyond `k`
    have hround := divRoundEven_le num den
    refine iff_of_false (by omega) ?_
    have hmul : den * (num / den + 1) ≤ den * k := Nat.mul_le_mul_left den hlt
    rw [Nat.mul_add, Nat.mul_one] at hmul
    rw [Nat.add_mul, Nat.mul_assoc, Nat.mul_comm k, Nat.one_mul]
    omega
  · simp only [divRoundEven, heq, hk, and_true]
    rw [heq] at hdivision
    rw [Nat.add_mul, Nat.mul_assoc, Nat.mul_comm k, Nat.one_mul]
    split <;> omega
  · have hround := div_le_divRoundEven num den
    refine iff_of_true (by omega) ?_
    have hmul : den * (k + 1) ≤ den * (num / den) := Nat.mul_le_mul_left den hgt
    rw [Nat.mul_add, Nat.mul_one] at hmul
    rw [Nat.add_mul, Nat.mul_assoc, Nat.mul_comm k, Nat.one_mul]
    omega

/-! ## The exponent -/

/-- The comparison of integers is one of rational numbers. -/
theorem powLeRatio_iff (hden : 0 < den) (e : Int) :
    powLeRatio e num den ↔ (2 : ℚ) ^ e ≤ (num : ℚ) / den := by
  have hden' : (0 : ℚ) < den := Nat.cast_pos.mpr hden
  rw [le_div_iff₀ hden', powLeRatio]
  split
  · next he =>
    obtain ⟨k, rfl⟩ := Int.eq_ofNat_of_zero_le he
    rw [decide_eq_true_iff, ← Nat.cast_le (α := ℚ), Nat.cast_mul, mul_comm, Int.toNat_natCast,
      Nat.pow_eq, Nat.cast_pow, zpow_natCast, Nat.cast_ofNat]
  · next he =>
    obtain ⟨k, hk⟩ := Int.eq_ofNat_of_zero_le (show 0 ≤ -e by omega)
    obtain rfl : e = -(k : Int) := by omega
    rw [decide_eq_true_iff, ← Nat.cast_le (α := ℚ), zpow_neg, zpow_natCast,
      inv_mul_le_iff₀ (by positivity), Nat.cast_mul, mul_comm, hk, Int.toNat_natCast, Nat.pow_eq,
      Nat.cast_pow, Nat.cast_ofNat]

theorem not_powLeRatio_of_lt (hden : 0 < den) {top e : Int}
    (h : (num : ℚ) / den < (2 : ℚ) ^ (top + 1)) (he : top < e) : ¬powLeRatio e num den := by
  rw [powLeRatio_iff hden, not_le]
  exact h.trans_le (zpow_le_zpow_right₀ one_le_two (by omega))

/-- The exponent is 52 below that of the leading bit, or the least one. -/
theorem exists_top (hnum : 0 < num) (hden : 0 < den) :
    ∃ top : Int, exponentFor num den = max (top - 52) minExponent ∧ powLeRatio top num den ∧
      ∀ e, top < e → ¬powLeRatio e num den := by
  have hden' : (0 : ℚ) < den := Nat.cast_pos.mpr hden
  have hnumLow : ((2 : ℚ) ^ num.log2) ≤ num := mod_cast Nat.log2_self_le hnum.ne'
  have hnumHigh : (num : ℚ) < (2 : ℚ) ^ (num.log2 + 1) := mod_cast Nat.lt_log2_self
  have hdenLow : ((2 : ℚ) ^ den.log2) ≤ den := mod_cast Nat.log2_self_le hden.ne'
  have hdenHigh : (den : ℚ) < (2 : ℚ) ^ (den.log2 + 1) := mod_cast Nat.lt_log2_self
  have hlow : (2 : ℚ) ^ ((num.log2 : Int) - den.log2 - 1) ≤ (num : ℚ) / den := by
    have hexponent : (num.log2 : Int) - den.log2 - 1 = num.log2 - ((den.log2 + 1 : Nat) : Int) := by
      omega
    rw [hexponent, zpow_sub₀ two_ne_zero, zpow_natCast, zpow_natCast]
    exact div_le_div₀ (Nat.cast_nonneg _) hnumLow hden' hdenHigh.le
  have hhigh : (num : ℚ) / den < (2 : ℚ) ^ ((num.log2 : Int) - den.log2 + 1) := by
    have hexponent : (num.log2 : Int) - den.log2 + 1 = ((num.log2 + 1 : Nat) : Int) - den.log2 := by
      omega
    rw [hexponent, zpow_sub₀ two_ne_zero, zpow_natCast, zpow_natCast]
    exact div_lt_div₀ hnumHigh hdenLow (by positivity) (by positivity)
  by_cases hguess : powLeRatio ((num.log2 : Int) - den.log2) num den
  · refine ⟨(num.log2 : Int) - den.log2, ?_, hguess, fun e he => ?_⟩
    · simp only [exponentFor, if_pos hguess]
    · exact not_powLeRatio_of_lt hden hhigh he
  · refine ⟨(num.log2 : Int) - den.log2 - 1, ?_, (powLeRatio_iff hden _).mpr hlow, fun e he => ?_⟩
    · simp only [exponentFor, if_neg hguess]
    · rw [powLeRatio_iff hden, not_le] at hguess
      exact not_powLeRatio_of_lt hden (by rwa [Int.sub_add_cancel]) he

/-! ## Infinity and zero -/

/-- Only the exponent decides whether a mantissa that needs no carry is out of range. -/
theorem pack_of_ne {m : Nat} (hm : m ≠ Nat.pow 2 53) (negative : Bool) (e : Int) :
    pack negative m e = if maxExponent < e then infinite negative else finite negative m e := by
  rw [pack, if_neg hm]

/-- A mantissa that is rounded up to the next power of two is carried into the exponent. -/
theorem pack_carry (negative : Bool) (e : Int) :
    pack negative (Nat.pow 2 53) e = if maxExponent < e + 1 then infinite negative
      else finite negative (Nat.pow 2 52) (e + 1) := by
  rw [pack, if_pos rfl]

/-- A number is packed as an infinity if its exponent is too large, or becomes so by a carry. -/
theorem isInfinite_pack {negative : Bool} {m : Nat} {e : Int} :
    (pack negative m e).isInfinite ↔
      maxExponent < e ∨ m = Nat.pow 2 53 ∧ maxExponent < e + 1 := by
  by_cases hm : m = Nat.pow 2 53
  · rw [hm, pack_carry]
    split
    · next he => exact iff_of_true rfl (.inr ⟨rfl, he⟩)
    · next he => exact iff_of_false Bool.false_ne_true (by omega)
  · rw [pack_of_ne hm]
    split
    · next he => exact iff_of_true rfl (.inl he)
    · next he => exact iff_of_false Bool.false_ne_true (by simp [he, hm])

theorem powLeRatio_natCast (k : Nat) : powLeRatio k num den ↔ den * Nat.pow 2 k ≤ num := by
  rw [powLeRatio, if_pos (Int.natCast_nonneg k), decide_eq_true_iff, Int.toNat_natCast]

theorem scaled_pos (hden : 0 < den) (k : Nat) : 0 < den * Nat.pow 2 k :=
  Nat.mul_pos hden (Nat.two_pow_pos k)

theorem mantissaAt_natCast (k : Nat) :
    mantissaAt num den k = divRoundEven num (den * Nat.pow 2 k) := by
  rw [mantissaAt, if_pos (Int.natCast_nonneg k), Int.toNat_natCast]

/-- The mantissa is rounded up to the next power of two from the middle below it on. -/
theorem divRoundEven_eq_iff {unit power : Nat} (hunit : 0 < unit) (hpower : 0 < power)
    (heven : power % 2 = 0) (hnum : num < unit * power) :
    divRoundEven num unit = power ↔ (2 * (power - 1) + 1) * unit ≤ 2 * num := by
  rw [← lt_divRoundEven_iff hunit (by omega)]
  have hquotient : num / unit < power := Nat.div_lt_of_lt_mul hnum
  have hround := divRoundEven_le num unit
  omega

theorem rangeEnd_pos : 0 < rangeEnd := by
  decide +kernel

/-- The end of the range lies below the mantissa `2 ^ 53` with the greatest exponent, in the middle
between it and the mantissa in front of it. -/
theorem exists_greatest : ∃ q : Nat, maxExponent = q ∧ minExponent < q ∧
    Nat.pow 2 (q + 52) ≤ rangeEnd ∧ rangeEnd ≤ Nat.pow 2 (q + 53) ∧
    2 * rangeEnd = (2 * (Nat.pow 2 53 - 1) + 1) * Nat.pow 2 q :=
  ⟨971, by decide +kernel⟩

/-- **A quotient is rounded to infinity exactly if it reaches the end of the range.** -/
theorem isInfinite_ofRatio (hden : 0 < den) (negative : Bool) :
    (ofRatio negative num den).isInfinite ↔ den * rangeEnd ≤ num := by
  rcases Nat.eq_zero_or_pos num with rfl | hnum
  · exact iff_of_false Bool.false_ne_true (Nat.not_le.mpr (Nat.mul_pos hden rangeEnd_pos))
  obtain ⟨q, hmax, hmin, hlow, hhigh, hmiddle⟩ := exists_greatest
  obtain ⟨top, hexponent, hreached, hmissed⟩ := exists_top hnum hden
  rw [ofRatio, if_neg hnum.ne', hexponent, isInfinite_pack, hmax]
  rcases lt_trichotomy top (q + 52 : Nat) with hless | rfl | hmore
  · have hsmall := mt (powLeRatio_natCast (q + 52)).mpr (hmissed _ hless)
    refine iff_of_false (by omega) fun h => hsmall ?_
    exact Nat.le_trans (Nat.mul_le_mul_left den hlow) h
  · -- the leading bit is the highest one: all depends on how the mantissa is rounded
    have hsmall := mt (powLeRatio_natCast (q + 53)).mpr (hmissed _ (by omega))
    have hproduct : den * Nat.pow 2 (q + 53) = den * Nat.pow 2 q * Nat.pow 2 53 := by
      rw [Nat.mul_assoc]
      exact congrArg (den * ·) (Nat.pow_add 2 q 53)
    have hgreatest : max (((q + 52 : Nat) : Int) - 52) minExponent = q := by omega
    rw [hproduct, Nat.not_le] at hsmall
    rw [hgreatest, mantissaAt_natCast, divRoundEven_eq_iff (scaled_pos hden q) (Nat.two_pow_pos 53)
      (by decide) hsmall, Nat.mul_left_comm, ← hmiddle, Nat.mul_left_comm,
      Nat.mul_le_mul_left_iff Nat.two_pos]
    simp
  · have hlarge : den * Nat.pow 2 (q + 53) ≤ num := by
      rw [← powLeRatio_natCast, powLeRatio_iff hden]
      rw [powLeRatio_iff hden] at hreached
      exact (zpow_le_zpow_right₀ one_le_two (by omega)).trans hreached
    exact iff_of_true (by omega) (Nat.le_trans (Nat.mul_le_mul_left den hhigh) hlarge)

/-- The mantissa of a positive integer is positive. -/
theorem mantissaAt_pos (hnum : 0 < num) : 0 < mantissaAt num 1 (exponentFor num 1) := by
  obtain ⟨top, hexponent, hreached, -⟩ := exists_top hnum Nat.one_pos
  have hmin : minExponent = -1074 := rfl
  generalize exponentFor num 1 = e at hexponent
  rw [mantissaAt]
  split
  · next he =>
    -- the unit of the mantissa lies below the leading bit
    have hunit : powLeRatio e num 1 := by
      rw [powLeRatio_iff Nat.one_pos] at hreached ⊢
      exact (zpow_le_zpow_right₀ one_le_two (by omega)).trans hreached
    rw [powLeRatio, if_pos he, decide_eq_true_iff] at hunit
    refine Nat.lt_of_lt_of_le (Nat.div_pos hunit ?_) (div_le_divRoundEven _ _)
    exact scaled_pos Nat.one_pos _
  · refine Nat.lt_of_lt_of_le ?_ (div_le_divRoundEven _ _)
    rw [Nat.div_one]
    exact scaled_pos hnum _

/-- No positive mantissa is packed as a zero. -/
theorem isZero_pack {m : Nat} (hm : 0 < m) (negative : Bool) (e : Int) :
    (pack negative m e).isZero = false := by
  by_cases hcarry : m = Nat.pow 2 53
  · rw [hcarry, pack_carry]
    split <;> rfl
  · rw [pack_of_ne hcarry]
    split
    · rfl
    · exact decide_eq_false hm.ne'

/-- Only zero is rounded to zero. -/
theorem isZero_ofInt (n : Int) : (ofInt n).isZero = decide (n = 0) := by
  by_cases hn : n = 0
  · rw [hn]
    rfl
  · have hnum : 0 < n.natAbs := Int.natAbs_pos.mpr hn
    rw [ofInt, ofRatio, if_neg hnum.ne', isZero_pack (mantissaAt_pos hnum), decide_eq_false hn]

end

end Binary64

namespace Number

open Binary64

/-- Whether a number is a binary number. -/
def isFloat : Number → Bool
  | int _ => false
  | float _ => true

/-- Whether a number is zero. -/
def isZero : Number → Bool
  | int n => n = 0
  | float x => x.isZero

/-- An integer beyond the range of binary numbers. -/
def TooLarge : Number → Prop
  | int n => rangeEnd ≤ n.natAbs
  | float _ => False

/-- An arithmetic operator has no result for two numbers. -/
inductive Fails (o : String) : Number → Number → Fault → Prop where
  | integerTooLarge (operator : o ∈ ["+", "-", "*", "/", "%"]) (mixed : a.isFloat ∨ b.isFloat)
      (large : a.TooLarge ∨ b.TooLarge) : Fails o a b .integerTooLarge
  | quotientTooLarge (operator : o = "/") (nonzero : n ≠ 0)
      (large : n.natAbs * rangeEnd ≤ m.natAbs) : Fails o (int m) (int n) .quotientTooLarge
  | divisionByZero (operator : o = "/") : Fails o (int m) (int 0) .divisionByZero
  | moduloByZero (operator : o = "%") : Fails o (int m) (int 0) .moduloByZero
  | floatDivisionByZero (operator : o = "/") (mixed : a.isFloat ∨ b.isFloat) (fits : ¬a.TooLarge)
      (zero : b.isZero) : Fails o a b .floatDivisionByZero
  | floatModuloByZero (operator : o = "%") (mixed : a.isFloat ∨ b.isFloat) (fits : ¬a.TooLarge)
      (zero : b.isZero) : Fails o a b .floatModuloByZero

variable {a b : Number} {fault : Fault}

/-! ## Conversion -/

/-- **An integer is converted if and only if it is in range.** -/
theorem floatOfInt_eq (n : Int) : floatOfInt n =
    if rangeEnd ≤ n.natAbs then .error .integerTooLarge else .ok (ofInt n) := by
  have hinfinite : (ofInt n).isInfinite ↔ rangeEnd ≤ n.natAbs := by
    rw [ofInt, isInfinite_ofRatio Nat.one_pos, Nat.one_mul]
  simp only [← hinfinite, floatOfInt]
  cases ofInt n <;> rfl

/-- A quotient of integers is in range or not, whether or not the integers are. -/
theorem quotient_eq {n : Int} (hn : n ≠ 0) (m : Int) :
    (n.natAbs * rangeEnd ≤ m.natAbs → quotient m n = .error .quotientTooLarge) ∧
    (m.natAbs < n.natAbs * rangeEnd → ∃ x, quotient m n = .ok (.float x)) := by
  rw [← Nat.not_le, ← isInfinite_ofRatio (Int.natAbs_pos.mpr hn) (decide (m < 0) != decide (n < 0)),
    quotient]
  cases ofRatio (decide (m < 0) != decide (n < 0)) m.natAbs n.natAbs with
  | infinite => exact ⟨fun _ => rfl, fun h => absurd rfl h⟩
  | finite | nan => exact ⟨nofun, fun _ => ⟨_, rfl⟩⟩

theorem toFloat_of_tooLarge (h : a.TooLarge) : a.toFloat = .error .integerTooLarge := by
  cases a with
  | int n => exact (floatOfInt_eq n).trans (if_pos h)
  | float x => cases h

theorem toFloat_of_not_tooLarge (h : ¬a.TooLarge) :
    ∃ x, a.toFloat = .ok x ∧ x.isZero = a.isZero := by
  cases a with
  | int n => exact ⟨ofInt n, (floatOfInt_eq n).trans (if_neg h), isZero_ofInt n⟩
  | float x => exact ⟨x, rfl, rfl⟩

theorem not_tooLarge_of_isZero (h : a.isZero) : ¬a.TooLarge := by
  cases a with
  | int n =>
    obtain rfl : n = 0 := of_decide_eq_true h
    exact Nat.not_le.mpr rangeEnd_pos
  | float x => exact id

/-! ## Arithmetic -/

section

variable {f : Binary64 → Binary64 → Except Fault Binary64}

/-- Both operands are converted before the operation. -/
theorem onFloats_of_tooLarge (h : a.TooLarge ∨ b.TooLarge) :
    onFloats f a b = .error .integerTooLarge := by
  by_cases ha : a.TooLarge
  · rw [onFloats, toFloat_of_tooLarge ha]
    rfl
  · obtain ⟨x, hx, -⟩ := toFloat_of_not_tooLarge ha
    rw [onFloats, hx, toFloat_of_tooLarge (h.resolve_left ha)]
    rfl

/-- What is converted is a zero exactly if it was one before. -/
theorem onFloats_of_not_tooLarge (ha : ¬a.TooLarge) (hb : ¬b.TooLarge) :
    ∃ x y, y.isZero = b.isZero ∧ onFloats f a b = (do return float (← f x y)) := by
  obtain ⟨x, hx, -⟩ := toFloat_of_not_tooLarge ha
  obtain ⟨y, hy, hzero⟩ := toFloat_of_not_tooLarge hb
  refine ⟨x, y, hzero, ?_⟩
  rw [onFloats, hx, hy]
  rfl

end

/-- An operation that has a result for all binary numbers fails only where a conversion does. -/
theorem onFloats_eq_error_iff {f : Binary64 → Binary64 → Binary64} :
    onFloats (fun x y => .ok (f x y)) a b = .error fault ↔
      (a.TooLarge ∨ b.TooLarge) ∧ fault = .integerTooLarge := by
  by_cases h : a.TooLarge ∨ b.TooLarge
  · rw [onFloats_of_tooLarge h, Except.error.injEq, eq_comm, and_iff_right h]
  · obtain ⟨ha, hb⟩ := not_or.mp h
    obtain ⟨x, y, -, heq⟩ := onFloats_of_not_tooLarge (f := fun x y => .ok (f x y)) ha hb
    rw [heq]
    exact iff_of_false nofun fun h' => h h'.1

/-- An operation that refuses zero as the second operand fails there as well. -/
theorem onFloats_unless_zero_eq_error_iff {f : Binary64 → Binary64 → Binary64} {zero : Fault} :
    onFloats (fun x y => if y.isZero then .error zero else .ok (f x y)) a b = .error fault ↔
      (a.TooLarge ∨ b.TooLarge) ∧ fault = .integerTooLarge ∨
        ¬a.TooLarge ∧ b.isZero ∧ fault = zero := by
  by_cases h : a.TooLarge ∨ b.TooLarge
  · have hzero : ¬(¬a.TooLarge ∧ b.isZero ∧ fault = zero) := by
      rintro ⟨ha, hb, -⟩
      exact h.elim ha (not_tooLarge_of_isZero hb)
    rw [onFloats_of_tooLarge h, Except.error.injEq, eq_comm, and_iff_right h, or_iff_left hzero]
  · obtain ⟨ha, hb⟩ := not_or.mp h
    obtain ⟨x, y, hy, heq⟩ := onFloats_of_not_tooLarge
      (f := fun x y => if y.isZero then .error zero else .ok (f x y)) ha hb
    rw [heq, hy, and_iff_right ha, or_iff_right fun h' => h h'.1]
    by_cases hzero : b.isZero
    · rw [if_pos hzero, and_iff_right hzero]
      exact (Except.error.injEq ..).to_iff.trans eq_comm
    · rw [if_neg hzero]
      exact iff_of_false nofun fun h' => hzero h'.1

/-- A mixed sum, difference or product fails with the conversion. -/
theorem fails_iff_tooLarge {o : String} (ho : o ∈ ["+", "-", "*"])
    (hmixed : a.isFloat ∨ b.isFloat) :
    Fails o a b fault ↔ (a.TooLarge ∨ b.TooLarge) ∧ fault = .integerTooLarge := by
  constructor
  · intro h
    cases h with
    | integerTooLarge _ _ hlarge => exact ⟨hlarge, rfl⟩
    | _ => simp_all
  · rintro ⟨hlarge, rfl⟩
    exact .integerTooLarge (List.mem_append_left ["/", "%"] ho) hmixed hlarge

/-- Sums, differences and products are exact for integers, and otherwise computed after a
conversion. -/
theorem total_eq_error_iff {op : Number → Number → Except Fault Number} {o : String}
    (f : Binary64 → Binary64 → Binary64) (ho : o ∈ ["+", "-", "*"])
    (hint : ∀ m n, ∃ c, op (int m) (int n) = .ok c)
    (hleft : ∀ x b, op (float x) b = onFloats (fun x y => .ok (f x y)) (float x) b)
    (hright : ∀ m y, op (int m) (float y) = onFloats (fun x y => .ok (f x y)) (int m) (float y)) :
    op a b = .error fault ↔ Fails o a b fault := by
  cases a with
  | float x => rw [hleft, onFloats_eq_error_iff, fails_iff_tooLarge ho (.inl rfl)]
  | int m =>
    cases b with
    | float y => rw [hright, onFloats_eq_error_iff, fails_iff_tooLarge ho (.inr rfl)]
    | int n =>
      obtain ⟨c, hc⟩ := hint m n
      rw [hc]
      refine iff_of_false nofun fun h => ?_
      cases h with
      | integerTooLarge _ hmixed => simp [isFloat] at hmixed
      | _ => simp_all

theorem add_eq_error_iff : a.add b = .error fault ↔ Fails "+" a b fault :=
  total_eq_error_iff Binary64.add (by simp) (fun _ _ => ⟨_, rfl⟩) (fun _ _ => rfl) fun _ _ => rfl

theorem sub_eq_error_iff : a.sub b = .error fault ↔ Fails "-" a b fault :=
  total_eq_error_iff Binary64.sub (by simp) (fun _ _ => ⟨_, rfl⟩) (fun _ _ => rfl) fun _ _ => rfl

theorem mul_eq_error_iff : a.mul b = .error fault ↔ Fails "*" a b fault :=
  total_eq_error_iff Binary64.mul (by simp) (fun _ _ => ⟨_, rfl⟩) (fun _ _ => rfl) fun _ _ => rfl

/-- Quotients and remainders refuse a zero divisor in addition, each in its own words. -/
theorem fails_iff_unless_zero {o : String} {zero : Fault}
    (ho : o = "/" ∧ zero = .floatDivisionByZero ∨ o = "%" ∧ zero = .floatModuloByZero)
    (hmixed : a.isFloat ∨ b.isFloat) :
    Fails o a b fault ↔ (a.TooLarge ∨ b.TooLarge) ∧ fault = .integerTooLarge ∨
      ¬a.TooLarge ∧ b.isZero ∧ fault = zero := by
  constructor
  · intro h
    cases h with
    | integerTooLarge _ _ hlarge => exact .inl ⟨hlarge, rfl⟩
    | floatDivisionByZero operator _ hfits hzero | floatModuloByZero operator _ hfits hzero =>
      exact .inr ⟨hfits, hzero, by simp_all⟩
    | _ => simp [isFloat] at hmixed
  · rintro (⟨hlarge, rfl⟩ | ⟨hfits, hzero, rfl⟩)
    · exact .integerTooLarge (by rcases ho with ⟨rfl, -⟩ | ⟨rfl, -⟩ <;> simp) hmixed hlarge
    · rcases ho with ⟨rfl, rfl⟩ | ⟨rfl, rfl⟩
      · exact .floatDivisionByZero rfl hmixed hfits hzero
      · exact .floatModuloByZero rfl hmixed hfits hzero

/-- A division of integers fails at zero, or out of range. -/
theorem div_int_eq_error_iff {m n : Int} :
    (int m).div (int n) = .error fault ↔ Fails "/" (int m) (int n) fault := by
  rw [div]
  constructor
  · split
    · next hn =>
      subst hn
      rintro ⟨⟩
      exact .divisionByZero rfl
    · next hn =>
      intro h
      rcases Nat.lt_or_ge m.natAbs (n.natAbs * rangeEnd) with hlt | hge
      · obtain ⟨x, hx⟩ := (quotient_eq hn m).2 hlt
        rw [hx] at h
        cases h
      · rw [(quotient_eq hn m).1 hge] at h
        cases h
        exact .quotientTooLarge rfl hn hge
  · intro h
    cases h with
    | integerTooLarge _ hmixed | floatDivisionByZero _ hmixed | floatModuloByZero _ hmixed =>
      simp [isFloat] at hmixed
    | divisionByZero => rw [if_pos rfl]
    | quotientTooLarge _ hn hlarge => rw [if_neg hn, (quotient_eq hn m).1 hlarge]
    | moduloByZero operator => simp at operator

/-- A remainder of integers fails at zero. -/
theorem mod_int_eq_error_iff {m n : Int} :
    (int m).mod (int n) = .error fault ↔ Fails "%" (int m) (int n) fault := by
  rw [mod]
  constructor
  · split
    · next hn =>
      subst hn
      rintro ⟨⟩
      exact .moduloByZero rfl
    · nofun
  · intro h
    cases h with
    | integerTooLarge _ hmixed | floatDivisionByZero _ hmixed | floatModuloByZero _ hmixed =>
      simp [isFloat] at hmixed
    | moduloByZero => rw [if_pos rfl]
    | quotientTooLarge operator | divisionByZero operator => simp at operator

/-- Quotients and remainders of other numbers than two integers are computed after a conversion. -/
theorem partial_eq_error_iff {op : Number → Number → Except Fault Number} {o : String} {zero : Fault}
    (f : Binary64 → Binary64 → Binary64)
    (ho : o = "/" ∧ zero = .floatDivisionByZero ∨ o = "%" ∧ zero = .floatModuloByZero)
    (hint : ∀ m n, op (int m) (int n) = .error fault ↔ Fails o (int m) (int n) fault)
    (hleft : ∀ x b, op (float x) b =
      onFloats (fun x y => if y.isZero then .error zero else .ok (f x y)) (float x) b)
    (hright : ∀ m y, op (int m) (float y) =
      onFloats (fun x y => if y.isZero then .error zero else .ok (f x y)) (int m) (float y)) :
    op a b = .error fault ↔ Fails o a b fault := by
  cases a with
  | float x =>
    rw [hleft, onFloats_unless_zero_eq_error_iff, fails_iff_unless_zero ho (.inl rfl)]
  | int m =>
    cases b with
    | float y =>
      rw [hright, onFloats_unless_zero_eq_error_iff, fails_iff_unless_zero ho (.inr rfl)]
    | int n => exact hint m n

theorem div_eq_error_iff : a.div b = .error fault ↔ Fails "/" a b fault :=
  partial_eq_error_iff Binary64.div (.inl ⟨rfl, rfl⟩) (fun _ _ => div_int_eq_error_iff)
    (fun _ _ => rfl) fun _ _ => rfl

theorem mod_eq_error_iff : a.mod b = .error fault ↔ Fails "%" a b fault :=
  partial_eq_error_iff Binary64.mod (.inr ⟨rfl, rfl⟩) (fun _ _ => mod_int_eq_error_iff)
    (fun _ _ => rfl) fun _ _ => rfl

end Number

end Monkey
