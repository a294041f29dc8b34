import Mathlib.Algebra.GroupWithZero.Nat
import Coverage.Number.Binary64

/-!
# Rounding quotients

The binary64 number nearest to a quotient has the exponent for which the quotient, in units of the last place, has 53
binary digits before the point. If the exponent is known, the number is known up to the rounding of one integer
quotient. A quotient below a power of two is rounded to a number that is not above it.
-/

namespace Coverage

/-! ## Integers -/

section Integers

variable {n d m b : Nat}

theorem roundDiv_eq (n d : Nat) :
    roundDiv n d = if 2 * (n % d) < d ∨ 2 * (n % d) = d ∧ n / d % 2 = 0 then n / d else n / d + 1 := by
  simp [roundDiv]

theorem roundDiv_le (n d : Nat) : roundDiv n d ≤ n / d + 1 := by
  rw [roundDiv_eq]
  split <;> omega

theorem roundDiv_le_of_lt (h : n < b * d) : roundDiv n d ≤ b := by
  have hquotient : n / d < b := Nat.div_lt_of_lt_mul (Nat.mul_comm b d ▸ h)
  have hround := roundDiv_le n d
  omega

/-- The rounded quotient is at most a half away. -/
theorem roundDiv_nearest (n : Nat) (hd : 0 < d) :
    2 * (d * roundDiv n d) ≤ 2 * n + d ∧ 2 * n ≤ 2 * (d * roundDiv n d) + d := by
  have hn : d * (n / d) + n % d = n := Nat.div_add_mod n d
  have hr : n % d < d := Nat.mod_lt n hd
  rw [roundDiv_eq]
  split
  · omega
  · rw [Nat.mul_add, Nat.mul_one]
    omega

/-- A quotient is rounded to an odd number or above if it is nearer to it than to the even number below. -/
theorem le_roundDiv_iff (hd : 0 < d) (hm : m % 2 = 1) : m ≤ roundDiv n d ↔ (2 * m - 1) * d < 2 * n := by
  have hn : d * (n / d) + n % d = n := Nat.div_add_mod n d
  have hr : n % d < d := Nat.mod_lt n hd
  rw [roundDiv_eq]
  generalize n / d = q at *
  generalize n % d = r at *
  subst hn
  rcases Nat.lt_trichotomy (q + 1) m with hlt | rfl | hgt
  · -- The quotient is below `m - 1`, so it is not rounded up to `m`.
    have hprod : (2 * q + 3) * d ≤ (2 * m - 1) * d := Nat.mul_le_mul_right d (by omega)
    have hexpand : (2 * q + 3) * d = 2 * (d * q) + 3 * d := by rw [Nat.add_mul, Nat.mul_assoc, Nat.mul_comm q d]
    constructor
    · intro h
      split at h <;> omega
    · intro h
      omega
  · have hexpand : (2 * (q + 1) - 1) * d = 2 * (d * q) + d := by
      rw [show 2 * (q + 1) - 1 = 2 * q + 1 by omega, Nat.add_mul, Nat.mul_assoc, Nat.mul_comm q d, Nat.one_mul]
    rw [hexpand]
    constructor
    · intro h
      split at h <;> omega
    · intro h
      split <;> omega
  · have hprod : (2 * m - 1) * d ≤ (2 * q - 1) * d := Nat.mul_le_mul_right d (by omega)
    have hexpand : (2 * q - 1) * d + d = 2 * (d * q) := by
      rw [← Nat.succ_mul, show (2 * q - 1).succ = 2 * q by omega, Nat.mul_assoc, Nat.mul_comm q d]
    constructor
    · intro _
      omega
    · intro _
      split <;> omega

end Integers

/-! ## Exponents -/

section Logarithms

variable {num den a b : Nat}

theorem log2_add_lt (hnum : num ≠ 0) (h : num * 2 ^ a < 2 ^ b * den) : num.log2 + a < b + (den.log2 + 1) := by
  have hbelow : 2 ^ num.log2 * 2 ^ a ≤ num * 2 ^ a := Nat.mul_le_mul_right _ (Nat.log2_self_le hnum)
  have habove : 2 ^ b * den ≤ 2 ^ b * 2 ^ (den.log2 + 1) := Nat.mul_le_mul_left _ (Nat.le_of_lt Nat.lt_log2_self)
  rw [← Nat.pow_add] at hbelow habove
  exact (Nat.pow_lt_pow_iff_right (by decide)).1 (Nat.lt_of_le_of_lt hbelow (Nat.lt_of_lt_of_le h habove))

theorem lt_log2_add (hden : den ≠ 0) (h : 2 ^ b * den ≤ num * 2 ^ a) : b + den.log2 < num.log2 + 1 + a := by
  have hbelow : 2 ^ b * 2 ^ den.log2 ≤ 2 ^ b * den := Nat.mul_le_mul_left _ (Nat.log2_self_le hden)
  have habove : num * 2 ^ a < 2 ^ (num.log2 + 1) * 2 ^ a :=
    Nat.mul_lt_mul_of_pos_right Nat.lt_log2_self (Nat.two_pow_pos a)
  rw [← Nat.pow_add] at hbelow habove
  exact (Nat.pow_lt_pow_iff_right (by decide)).1 (Nat.lt_of_le_of_lt (Nat.le_trans hbelow h) habove)

end Logarithms

namespace Binary64

variable {num den a : Nat}

theorem scaled_neg (num den : Nat) (ha : 0 < a) : exponentFor.scaled num den (-a) = (num * 2 ^ a, den) := by
  have hneg : ¬(0 : Int) ≤ -a := by omega
  rw [exponentFor.scaled, if_neg hneg, Int.neg_neg, Int.toNat_natCast]
  rfl

/-- The exponent for a quotient whose digits are counted with the exponent `-a` first. -/
theorem exponentFor_of_log2 (ha : 0 < a) (h : (num.log2 : Int) - den.log2 - 52 = -a) :
    exponentFor num den = max minExponent (if num * 2 ^ a / den < 2 ^ 52 then -(a : Int) - 1 else -a) := by
  unfold exponentFor
  rw [h]
  simp only [scaled_neg num den ha, Nat.pow_eq]

theorem two_mul_pow_pred (num : Nat) (ha : 0 < a) : num * 2 ^ a = 2 * (num * 2 ^ (a - 1)) := by
  obtain ⟨b, rfl⟩ := Nat.exists_eq_add_of_lt ha
  rw [Nat.zero_add, Nat.add_sub_cancel, Nat.pow_succ, Nat.mul_comm (2 ^ b) 2, Nat.mul_left_comm]

/-- The exponent `-a`, with which the quotient has 53 digits before the point. -/
theorem exponentFor_eq (hnum : num ≠ 0) (hden : den ≠ 0) (ha : 2 ≤ a) (ha' : a ≤ 1074)
    (hlow : 2 ^ 52 * den ≤ num * 2 ^ a) (hhigh : num * 2 ^ a < 2 ^ 53 * den) : exponentFor num den = -a := by
  have hupper := log2_add_lt hnum hhigh
  have hlower := lt_log2_add hden hlow
  rcases Nat.lt_or_ge (num.log2 + a) (den.log2 + 53) with hsame | hmore
  · have hdigits : ¬num * 2 ^ a / den < 2 ^ 52 :=
      Nat.not_lt.2 ((Nat.le_div_iff_mul_le (Nat.pos_of_ne_zero hden)).2 hlow)
    rw [exponentFor_of_log2 (a := a) (by omega) (by omega), if_neg hdigits, minExponent]
    omega
  · have hdouble := two_mul_pow_pred num (Nat.lt_of_lt_of_le Nat.zero_lt_two ha)
    have hdigits : num * 2 ^ (a - 1) / den < 2 ^ 52 := Nat.div_lt_of_lt_mul (by omega)
    rw [exponentFor_of_log2 (a := a - 1) (by omega) (by omega), if_pos hdigits, minExponent]
    omega

/-- A quotient of known exponent, rounded. -/
theorem ofQuotient_of_exponent (negative : Bool) (hnum : num ≠ 0) (ha : 2 ≤ a) (h : exponentFor num den = -a) :
    ofQuotient negative num den =
      if roundDiv (num * 2 ^ a) den = 2 ^ 53 then .finite negative (2 ^ 52) (1 - a)
      else .finite negative (roundDiv (num * 2 ^ a) den) (-a) := by
  unfold ofQuotient
  rw [if_neg hnum]
  simp only [h, scaled_neg num den (Nat.lt_of_lt_of_le Nat.zero_lt_two ha)]
  have hpow : Nat.pow 2 precision = 2 ^ 53 := rfl
  have hrange : ¬-(a : Int) > maxExponent ∧ ¬-(a : Int) + 1 > maxExponent := by
    simp only [maxExponent]
    omega
  rw [hpow]
  by_cases hcarry : roundDiv (num * 2 ^ a) den = 2 ^ 53
  · simp only [hcarry, if_true, if_neg hrange.2, Nat.pow_eq]
    rw [show -(a : Int) + 1 = 1 - a by omega]
  · simp only [hcarry, if_false, if_neg hrange.1]

theorem quotient_neg (m : Nat) (ha : 0 < a) : quotient m (-a) = (m, 2 ^ a) := by
  have hneg : ¬(0 : Int) ≤ -a := by omega
  rw [quotient, if_neg hneg, Int.neg_neg, Int.toNat_natCast]
  rfl

theorem mul_pow_le (num : Nat) {a b : Nat} (h : a ≤ b) : num * 2 ^ a ≤ num * 2 ^ b :=
  Nat.mul_le_mul_left num (Nat.pow_le_pow_right Nat.zero_lt_two h)

/-- The exponent for a quotient below `2 ^ (j - 1)`. -/
theorem exists_exponent_of_lt {j : Nat} (hj : j ≤ 50) (hnum : num ≠ 0) (hden : den ≠ 0) (h : num * 2 < 2 ^ j * den) :
    ∃ a : Nat, exponentFor num den = -a ∧ 54 ≤ a + j ∧ num * 2 ^ a < 2 ^ 53 * den := by
  have hpos : 0 < den := Nat.pos_of_ne_zero hden
  have hupper : num.log2 + 1 < j + (den.log2 + 1) := log2_add_lt hnum h
  obtain ⟨a, hlog⟩ : ∃ a, num.log2 + a = den.log2 + 52 := ⟨den.log2 + 52 - num.log2, by omega⟩
  rw [exponentFor_of_log2 (a := a) (by omega) (by omega), minExponent]
  by_cases hdigits : num * 2 ^ a / den < 2 ^ 52
  · have hlt : num * 2 ^ a < 2 ^ 52 * den := (Nat.div_lt_iff_lt_mul hpos).1 hdigits
    refine ⟨min 1074 (a + 1), by rw [if_pos hdigits]; omega, by omega, ?_⟩
    have hdouble : num * 2 ^ (a + 1) = 2 * (num * 2 ^ a) := two_mul_pow_pred num (Nat.succ_pos a)
    have hle := mul_pow_le num (Nat.min_le_right 1074 (a + 1))
    omega
  · have hmore : 54 ≤ a + j := by
      -- With one place less the quotient would have fewer digits.
      refine Nat.lt_of_le_of_ne (by omega) fun heq ↦ hdigits ((Nat.div_lt_iff_lt_mul hpos).2 ?_)
      have hscaled : num * 2 * 2 ^ (a - 1) < 2 ^ j * den * 2 ^ (a - 1) :=
        Nat.mul_lt_mul_of_pos_right h (Nat.two_pow_pos _)
      have hpow : 2 ^ j * den * 2 ^ (a - 1) = 2 ^ 52 * den := by
        rw [Nat.mul_right_comm, ← Nat.pow_add, show j + (a - 1) = 52 by omega]
      have hdouble := two_mul_pow_pred num (a := a) (by omega)
      rw [hpow, Nat.mul_right_comm] at hscaled
      omega
    refine ⟨min 1074 a, by rw [if_neg hdigits]; omega, by omega, ?_⟩
    have hle := mul_pow_le num (Nat.min_le_right 1074 a)
    have hbelow : num * 2 ^ a < 2 ^ (num.log2 + 1) * 2 ^ a :=
      Nat.mul_lt_mul_of_pos_right Nat.lt_log2_self (Nat.two_pow_pos a)
    have habove : 2 ^ 53 * 2 ^ den.log2 ≤ 2 ^ 53 * den := Nat.mul_le_mul_left _ (Nat.log2_self_le hden)
    rw [← Nat.pow_add, show num.log2 + 1 + a = 53 + den.log2 by omega, Nat.pow_add] at hbelow
    omega

/-- A quotient below a power of two is not rounded to above it. -/
theorem ofQuotient_of_lt (negative : Bool) {j : Nat} (hj : j ≤ 50) (hnum : num ≠ 0) (hden : den ≠ 0)
    (h : num * 2 < 2 ^ j * den) :
    ∃ m e, ofQuotient negative num den = .finite negative m e ∧ (quotient m e).1 * 2 ≤ 2 ^ j * (quotient m e).2 := by
  obtain ⟨a, hexponent, ha, hdigits⟩ := exists_exponent_of_lt hj hnum hden h
  have hbound : roundDiv (num * 2 ^ a) den ≤ 2 ^ 53 := roundDiv_le_of_lt hdigits
  rw [ofQuotient_of_exponent negative hnum (by omega) hexponent]
  split
  next hcarry =>
    refine ⟨_, _, rfl, ?_⟩
    rw [show 1 - (a : Int) = -(a - 1 : Nat) by omega, quotient_neg _ (by omega)]
    have hle : 2 ^ 53 ≤ 2 ^ (j + (a - 1)) := Nat.pow_le_pow_right Nat.zero_lt_two (by omega)
    rw [Nat.pow_add] at hle
    exact hle
  next =>
    refine ⟨_, _, rfl, ?_⟩
    rw [quotient_neg _ (by omega)]
    have hle : 2 ^ 54 ≤ 2 ^ (j + a) := Nat.pow_le_pow_right Nat.zero_lt_two (by omega)
    rw [Nat.pow_add] at hle
    exact Nat.le_trans (Nat.mul_le_mul_right 2 hbound) hle

end Binary64

end Coverage
