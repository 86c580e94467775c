import Mathlib
import Monkey.Number.Binary64

/-!
# Binary numbers with the same residue

A finite binary number is a rational number, a power of two times an integer. Two numbers are equal
if they are the same rational number, or the same infinity (`compare?_eq_iff`).

Residues are coarser. The modulus of the residues is odd, so a power of two can be divided out, and
the residue of a number tells its class modulo `2 ^ 61 - 1` and, unless the class is that of zero,
its sign; only the classes of `-1` and `-2` of the negative numbers are not told apart. So two
numbers have the same residue exactly if the rational numbers behind them are `Confused`
(`residue_eq_iff`), which is said without residues: the numerator of their difference is a multiple
of the modulus.
-/

namespace Monkey

namespace Binary64

/-! ## The rational numbers behind binary numbers -/

/-- The rational number `± m * 2 ^ e`. -/
def scaled (negative : Bool) (m : Nat) (e : Int) : ℚ := signed negative m * 2 ^ e

/-- The exact value of a number: an infinity with its sign, or a rational number. -/
def exactValue? : Binary64 → Option (Bool ⊕ ℚ)
  | finite negative m e => some (.inr (scaled negative m e))
  | infinite negative => some (.inl negative)
  | nan _ => none

/-- The rational number of which the residue is taken. One with the value 314159 stands in for
infinity. -/
def proxy : Binary64 → ℚ
  | finite negative m e => scaled negative m e
  | infinite negative => scaled negative 314159 0
  | nan _ => 0

/-- An exponent can be lowered as long as the mantissa makes up for it. -/
theorem mul_two_zpow {e e' : Int} (s : Int) (h : e' ≤ e) :
    (s : ℚ) * 2 ^ e = ((s * 2 ^ (e - e').toNat : Int) : ℚ) * 2 ^ e' := by
  have hexponent : e = (e - e').toNat + e' := by omega
  rw [Int.cast_mul, Int.cast_pow, Int.cast_ofNat, mul_assoc, ← zpow_natCast,
    ← zpow_add₀ two_ne_zero, ← hexponent]

/-- The comparison of mantissas with their exponents is one of rational numbers. -/
theorem compareScaled_eq_iff (a e b f : Int) :
    compareScaled a e b f = .eq ↔ (a : ℚ) * 2 ^ e = b * 2 ^ f := by
  have hpow : (2 : ℚ) ^ min e f ≠ 0 := zpow_ne_zero _ two_ne_zero
  rw [mul_two_zpow a (min_le_left e f), mul_two_zpow b (min_le_right e f),
    mul_left_inj' hpow, Int.cast_inj]
  exact Std.LawfulEqOrd.compare_eq_iff_eq

/-- Numbers are equal if their exact values are. -/
theorem compare?_eq_iff (x y : Binary64) :
    x.compare? y = some .eq ↔ x.exactValue? = y.exactValue? ∧ x.exactValue?.isSome := by
  cases x with
  | nan => simp [compare?, exactValue?]
  | infinite a =>
    cases y with
    | infinite b => cases a <;> cases b <;> decide
    | finite => cases a <;> simp [compare?, exactValue?]
    | nan => simp [compare?, exactValue?]
  | finite a m e =>
    cases y with
    | infinite b => cases b <;> simp [compare?, exactValue?]
    | finite b m' e' => simp [compare?, exactValue?, compareScaled_eq_iff, scaled]
    | nan => simp [compare?, exactValue?]

/-! ## Congruence -/

/-- The difference is a multiple of the modulus, up to a power of two. -/
def Congruent (u v : ℚ) : Prop := (residueModulus : Int) ∣ (u - v).num

theorem residueModulus_eq : residueModulus = 2305843009213693951 := rfl

/-- The modulus is odd. -/
theorem isCoprime_two_pow (k : Nat) : IsCoprime (residueModulus : Int) (2 ^ k) := by
  refine IsCoprime.pow_right ⟨1, -(2 ^ 60 - 1), ?_⟩
  norm_num [residueModulus_eq]

/-- A power of two does not change which numbers the modulus divides, as the modulus is odd. -/
theorem dvd_num_scaled_iff (z j : Int) :
    (residueModulus : Int) ∣ ((z : ℚ) * 2 ^ j).num ↔ (residueModulus : Int) ∣ z := by
  obtain ⟨k, l, rfl⟩ : ∃ k l : Nat, j = l - k := ⟨(-j).toNat, j.toNat, by omega⟩
  have hquotient :
      (z : ℚ) * 2 ^ ((l : Int) - k) = ((z * 2 ^ l : Int) : ℚ) / ((2 ^ k : Int) : ℚ) := by
    push_cast
    rw [zpow_sub₀ two_ne_zero, zpow_natCast, zpow_natCast, mul_div_assoc]
  rw [hquotient]
  generalize hq : ((z * 2 ^ l : Int) : ℚ) / ((2 ^ k : Int) : ℚ) = q
  have hden : IsCoprime (residueModulus : Int) q.den := by
    obtain ⟨d, hd⟩ : (q.den : Int) ∣ 2 ^ k := by
      rw [← hq, Rat.intCast_div_eq_divInt]
      exact Rat.den_dvd _ _
    exact (hd ▸ isCoprime_two_pow k).of_mul_right_left
  have hcross : q.num * 2 ^ k = z * 2 ^ l * q.den := by
    have hpow : ((2 ^ k : Int) : ℚ) ≠ 0 := by positivity
    rw [div_eq_iff hpow, ← Rat.num_div_den q, div_mul_eq_mul_div,
      eq_div_iff (by exact_mod_cast q.den_ne_zero)] at hq
    exact_mod_cast hq.symm
  -- all that stands between the numerator and `z` are powers of two and a denominator
  have hdrop {x y : Int} (hy : IsCoprime (residueModulus : Int) y) :
      (residueModulus : Int) ∣ x * y ↔ (residueModulus : Int) ∣ x :=
    ⟨hy.dvd_of_dvd_mul_right, fun hx => hx.mul_right y⟩
  calc (residueModulus : Int) ∣ q.num
    _ ↔ (residueModulus : Int) ∣ q.num * 2 ^ k := (hdrop (isCoprime_two_pow k)).symm
    _ ↔ (residueModulus : Int) ∣ z * 2 ^ l := by rw [hcross, hdrop hden]
    _ ↔ (residueModulus : Int) ∣ z := hdrop (isCoprime_two_pow l)

/-- The residue of `m * 2 ^ e` without a sign. -/
def rest (m : Nat) (e : Int) : Nat := m * Nat.pow 2 (e.emod 61).toNat % residueModulus

theorem rest_lt (m : Nat) (e : Int) : rest m e < residueModulus := Nat.mod_lt _ (by decide)

theorem signed_false (m : Nat) : signed false m = m := rfl

theorem signed_true (m : Nat) : signed true m = -(m : Int) := rfl

/-- Congruent numbers stay so with a sign. -/
theorem signed_modEq {negative : Bool} {m k : Nat} (h : (m : Int) ≡ k [ZMOD residueModulus]) :
    signed negative m ≡ signed negative k [ZMOD residueModulus] := by
  cases negative with
  | false => exact h
  | true => exact h.neg

theorem signed_mul (negative : Bool) (m k : Nat) :
    signed negative (m * k) = signed negative m * k := by
  cases negative <;> simp [signed]

/-- Modulo the modulus a power of two depends only on the exponent modulo 61. -/
theorem signed_mul_two_pow_modEq {e b : Int} (negative : Bool) (m : Nat) (h : b ≤ e / 61) :
    signed negative m * 2 ^ (e - 61 * b).toNat ≡ signed negative (rest m e)
      [ZMOD residueModulus] := by
  have hexponent : (e - 61 * b).toNat = 61 * (e / 61 - b).toNat + (e.emod 61).toNat := by
    have hsplit : e.emod 61 = e % 61 := rfl
    omega
  have hround : (2 : Int) ^ 61 ≡ 1 [ZMOD residueModulus] := by decide
  have hpow : (2 : Int) ^ (e - 61 * b).toNat ≡ 2 ^ (e.emod 61).toNat [ZMOD residueModulus] := by
    rw [hexponent, pow_add, pow_mul]
    simpa using (hround.pow _).mul_right (2 ^ (e.emod 61).toNat)
  have hrest : ((m * 2 ^ (e.emod 61).toNat : Nat) : Int) ≡ rest m e [ZMOD residueModulus] :=
    Int.natCast_modEq_iff.mpr (Nat.mod_modEq _ _).symm
  calc signed negative m * 2 ^ (e - 61 * b).toNat
    _ ≡ signed negative m * 2 ^ (e.emod 61).toNat [ZMOD residueModulus] := hpow.mul_left _
    _ = signed negative (m * 2 ^ (e.emod 61).toNat) := by
      rw [signed_mul, Nat.cast_pow, Nat.cast_ofNat]
    _ ≡ signed negative (rest m e) [ZMOD residueModulus] := signed_modEq hrest

/-- Two binary numbers are congruent if their signed rests are. -/
theorem congruent_scaled_iff {n₁ n₂ : Bool} {m₁ m₂ : Nat} {e₁ e₂ : Int} :
    Congruent (scaled n₁ m₁ e₁) (scaled n₂ m₂ e₂) ↔
      (residueModulus : Int) ∣ signed n₁ (rest m₁ e₁) - signed n₂ (rest m₂ e₂) := by
  -- down to `61 * b` both exponents go by their remainders and by whole rounds
  generalize hb : min (e₁ / 61) (e₂ / 61) = b
  have h₁ := signed_mul_two_pow_modEq n₁ m₁ (by omega : b ≤ e₁ / 61)
  have h₂ := signed_mul_two_pow_modEq n₂ m₂ (by omega : b ≤ e₂ / 61)
  rw [Congruent, scaled, scaled, mul_two_zpow _ (by omega : 61 * b ≤ e₁),
    mul_two_zpow _ (by omega : 61 * b ≤ e₂), ← sub_mul, ← Int.cast_sub, dvd_num_scaled_iff,
    ← Int.modEq_zero_iff_dvd, ← Int.modEq_zero_iff_dvd]
  exact ⟨(h₁.sub h₂).symm.trans, (h₁.sub h₂).trans⟩

/-! ## Numbers that residues do not tell apart -/

/-- Residues do not tell the two rational numbers apart. -/
inductive Confused (u v : ℚ) : Prop where
  /-- The numbers are congruent and do not have opposite signs. -/
  | aligned (signs : 0 ≤ u * v) (same : Congruent u v)
  /-- Both numbers are congruent to zero, where the sign is lost. -/
  | vanishing (left : Congruent u 0) (right : Congruent v 0)
  /-- The residue of the second number stands in for the one of the first. -/
  | minusOne (left : u < 0) (right : v < 0) (one : Congruent u (-1)) (two : Congruent v (-2))
  /-- The residue of the first number stands in for the one of the second. -/
  | minusTwo (left : u < 0) (right : v < 0) (two : Congruent u (-2)) (one : Congruent v (-1))

theorem scaled_nonneg (m : Nat) (e : Int) : 0 ≤ scaled false m e :=
  mul_nonneg (Int.cast_nonneg (Int.natCast_nonneg m)) (zpow_nonneg zero_le_two e)

/-- The sign of a binary number is that of its value. -/
theorem scaled_true (m : Nat) (e : Int) : scaled true m e = -scaled false m e := by
  simp [scaled, signed]

theorem scaled_eq_zero_iff {m : Nat} {e : Int} : scaled false m e = 0 ↔ m = 0 := by
  simp [scaled, signed, zpow_ne_zero]

theorem rest_zero (e : Int) : rest 0 e = 0 := by
  rw [rest, Nat.zero_mul, Nat.zero_mod]

variable {n n₁ n₂ : Bool} {m m₁ m₂ : Nat} {e e₁ e₂ : Int}

/-- A negative residue stands for the numbers that are congruent to it. -/
theorem congruent_neg_iff {j : Nat} (hj : j < residueModulus) :
    Congruent (scaled n m e) (-j) ↔ (residueModulus : Int) ∣ signed n (rest m e) + j := by
  have hscaled : (-(j : ℚ)) = scaled true j 0 := by simp [scaled, signed]
  have hrest : rest j 0 = j := by
    have hone : j * Nat.pow 2 ((0 : Int).emod 61).toNat = j := Nat.mul_one j
    rw [rest, hone, Nat.mod_eq_of_lt hj]
  rw [hscaled, congruent_scaled_iff, hrest, signed_true, sub_neg_eq_add]

/-- A number is congruent to zero if the modulus divides its rest. -/
theorem congruent_zero_iff :
    Congruent (scaled n m e) 0 ↔ (residueModulus : Int) ∣ signed n (rest m e) := by
  have hzero := congruent_neg_iff (n := n) (m := m) (e := e) (j := 0) (by decide)
  simpa using hzero

/-- A residue of zero has lost its sign; any other keeps it. -/
theorem signed_rest_eq_iff :
    signed n₁ (rest m₁ e₁) = signed n₂ (rest m₂ e₂) ↔
      0 ≤ scaled n₁ m₁ e₁ * scaled n₂ m₂ e₂ ∧ Congruent (scaled n₁ m₁ e₁) (scaled n₂ m₂ e₂) ∨
        Congruent (scaled n₁ m₁ e₁) 0 ∧ Congruent (scaled n₂ m₂ e₂) 0 := by
  have h₁ := rest_lt m₁ e₁
  have h₂ := rest_lt m₂ e₂
  have hproduct := mul_nonneg (scaled_nonneg m₁ e₁) (scaled_nonneg m₂ e₂)
  -- with opposite signs the product shows that one of the numbers is zero
  have hopposite (h : 0 ≤ -(scaled false m₁ e₁ * scaled false m₂ e₂)) :
      rest m₁ e₁ = 0 ∨ rest m₂ e₂ = 0 := by
    have hzero := le_antisymm (neg_nonneg.mp h) hproduct
    rw [mul_eq_zero, scaled_eq_zero_iff, scaled_eq_zero_iff] at hzero
    refine hzero.imp ?_ ?_
    · rintro rfl
      exact rest_zero e₁
    · rintro rfl
      exact rest_zero e₂
  rw [congruent_scaled_iff, congruent_zero_iff, congruent_zero_iff]
  rw [residueModulus_eq] at *
  cases n₁ with
  | false =>
    cases n₂ with
    | false =>
      simp only [signed_false, hproduct, true_and]
      omega
    | true =>
      simp only [signed_false, signed_true, scaled_true, mul_neg]
      constructor
      · omega
      · rintro (⟨hsigns, hdvd⟩ | hdvd)
        · have hzero := hopposite hsigns
          omega
        · omega
  | true =>
    cases n₂ with
    | false =>
      simp only [signed_false, signed_true, scaled_true, neg_mul]
      constructor
      · omega
      · rintro (⟨hsigns, hdvd⟩ | hdvd)
        · have hzero := hopposite hsigns
          omega
        · omega
    | true =>
      simp only [signed_true, scaled_true, neg_mul_neg, hproduct, true_and]
      omega

/-- Only negative numbers have a negative rest. -/
theorem signed_rest_eq_neg_iff {j : Nat} (hpos : 0 < j) (hj : j < residueModulus) :
    signed n (rest m e) = -j ↔ scaled n m e < 0 ∧ Congruent (scaled n m e) (-j) := by
  have hlt := rest_lt m e
  rw [congruent_neg_iff hj]
  rw [residueModulus_eq] at *
  cases n with
  | false =>
    have hsign := scaled_nonneg m e
    simp only [signed_false, hsign.not_gt, false_and, iff_false]
    omega
  | true =>
    have hsign : scaled true m e < 0 ↔ m ≠ 0 := by
      rw [scaled_true, neg_lt_zero, (scaled_nonneg m e).lt_iff_ne', ne_eq, scaled_eq_zero_iff]
    have hzero (h : m = 0) : rest m e = 0 := h ▸ rest_zero e
    rw [hsign, signed_true]
    omega

theorem residue_finite (negative : Bool) (m : Nat) (e : Int) :
    (finite negative m e).residue =
      if signed negative (rest m e) = -1 then -2 else signed negative (rest m e) := rfl

/-- **Equal residues are equal numbers up to the modulus**, the sign and the code of errors. -/
theorem residue_finite_eq_iff :
    (finite n₁ m₁ e₁).residue = (finite n₂ m₂ e₂).residue ↔
      Confused (scaled n₁ m₁ e₁) (scaled n₂ m₂ e₂) := by
  have hcases : (finite n₁ m₁ e₁).residue = (finite n₂ m₂ e₂).residue ↔
      signed n₁ (rest m₁ e₁) = signed n₂ (rest m₂ e₂) ∨
        (signed n₁ (rest m₁ e₁) = -(1 : Nat) ∧ signed n₂ (rest m₂ e₂) = -(2 : Nat) ∨
          signed n₁ (rest m₁ e₁) = -(2 : Nat) ∧ signed n₂ (rest m₂ e₂) = -(1 : Nat)) := by
    rw [residue_finite, residue_finite]
    split <;> split <;> omega
  have hone : 1 < residueModulus := by decide
  have htwo : 2 < residueModulus := by decide
  rw [hcases, signed_rest_eq_iff, signed_rest_eq_neg_iff Nat.one_pos hone,
    signed_rest_eq_neg_iff Nat.one_pos hone, signed_rest_eq_neg_iff Nat.two_pos htwo,
    signed_rest_eq_neg_iff Nat.two_pos htwo]
  push_cast
  constructor
  · rintro ((⟨signs, same⟩ | ⟨left, right⟩) | ⟨⟨left, one⟩, right, two⟩ | ⟨⟨left, two⟩, right, one⟩)
    · exact .aligned signs same
    · exact .vanishing left right
    · exact .minusOne left right one two
    · exact .minusTwo left right two one
  · rintro (⟨signs, same⟩ | ⟨left, right⟩ | ⟨left, right, one, two⟩ | ⟨left, right, two, one⟩)
    · exact .inl (.inl ⟨signs, same⟩)
    · exact .inl (.inr ⟨left, right⟩)
    · exact .inr (.inl ⟨⟨left, one⟩, right, two⟩)
    · exact .inr (.inr ⟨⟨left, two⟩, right, one⟩)

/-- Infinity is treated as a finite number. -/
theorem exists_finite {x : Binary64} (h : x.exactValue?.isSome) :
    ∃ negative m e, x.residue = (finite negative m e).residue ∧ x.proxy = scaled negative m e := by
  cases x with
  | finite negative m e => exact ⟨negative, m, e, rfl, rfl⟩
  | infinite negative =>
    refine ⟨negative, 314159, 0, ?_, rfl⟩
    cases negative <;> decide
  | nan => cases h

/-- **Two numbers have the same residue if and only if the rational numbers behind them are
confused.** -/
theorem residue_eq_iff {x y : Binary64} (hx : x.exactValue?.isSome) (hy : y.exactValue?.isSome) :
    x.residue = y.residue ↔ Confused x.proxy y.proxy := by
  obtain ⟨n₁, m₁, e₁, hresidue₁, hproxy₁⟩ := exists_finite hx
  obtain ⟨n₂, m₂, e₂, hresidue₂, hproxy₂⟩ := exists_finite hy
  rw [hresidue₁, hresidue₂, hproxy₁, hproxy₂, residue_finite_eq_iff]

/-- Numbers of equal value have one proxy. -/
theorem proxy_congr {x y : Binary64} (h : x.exactValue? = y.exactValue?) : x.proxy = y.proxy := by
  cases x <;> cases y <;> simp_all [exactValue?, proxy]

theorem Confused.refl (u : ℚ) : Confused u u := by
  refine .aligned (mul_self_nonneg u) ?_
  rw [Congruent, sub_self]
  exact dvd_zero _

end Binary64

end Monkey
