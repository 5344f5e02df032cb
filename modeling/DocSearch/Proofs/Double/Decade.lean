import DocSearch.Proofs.Double.Digits

/-!
# Decades

The decade of a decimal is the exponent of its first digit.  Nothing that is rounded to a normal magnitude lies in a
higher decade than the shortest decimal of the magnitude (`IsShortest.lt_decade`), and a decimal that is rounded to the
magnitude and is as short begins in the same one (`IsShortest.decade_eq`).  If a whole number is rounded to a magnitude,
the magnitude is a whole number (`one_dvd_units`).
-/

namespace DocSearch

namespace Double

variable {m : Nat} {x : Scientific}

namespace Scientific

/-- The number of digits. -/
def length (x : Scientific) : Nat := (Decimal.ofNat x.digits).length

/-- The exponent of the first digit. -/
def decade (x : Scientific) : Int := x.exponent + (x.length - 1 : Nat)

theorem length_pos (x : Scientific) : 0 < x.length := Decimal.length_ofNat_pos _

theorem digits_lt (x : Scientific) : x.digits < Nat.pow 10 x.length := Decimal.lt_pow_length_ofNat _

end Scientific

/-! ### Decades -/

theorem zpow_le_mul_zpow {n k : Nat} (e : Int) (h : Nat.pow 10 k ≤ n) : (10 : ℚ) ^ (k + e) ≤ n * 10 ^ e := by
  have hn : ((Nat.pow 10 k : Nat) : ℚ) ≤ n := by exact_mod_cast h
  rw [← zpow_mul_zpow, ← cast_ten_pow]
  exact mul_le_mul_of_nonneg_right hn (ten_zpow_pos e).le

theorem mul_zpow_lt_zpow {n k : Nat} (e : Int) (h : n < Nat.pow 10 k) : (n : ℚ) * 10 ^ e < 10 ^ (k + e) := by
  have hn : (n : ℚ) < (Nat.pow 10 k : Nat) := by exact_mod_cast h
  rw [← zpow_mul_zpow, ← cast_ten_pow]
  exact mul_lt_mul_of_pos_right hn (ten_zpow_pos e)

theorem ten_zpow_lt_iff {a b : Int} : (10 : ℚ) ^ a < 10 ^ b ↔ a < b := zpow_lt_zpow_iff_right₀ (by norm_num)

theorem ten_zpow_le_iff {a b : Int} : (10 : ℚ) ^ a ≤ 10 ^ b ↔ a ≤ b := zpow_le_zpow_iff_right₀ (by norm_num)

theorem size_lt_zpow {k : Nat} (h : units m < Nat.pow 10 k * one) : size m < 10 ^ (k : Int) := by
  have hunits : (units m : ℚ) < (Nat.pow 10 k * one : Nat) := Nat.cast_lt.2 h
  rwa [size, div_lt_iff₀ one_pos', ← cast_ten_pow, ← Nat.cast_mul]

theorem size_lt_zpow_neg {k : Nat} (h : units m * Nat.pow 10 k < one) : size m < 10 ^ (-(k : Int)) := by
  have hunits : ((units m * Nat.pow 10 k : Nat) : ℚ) < one := Nat.cast_lt.2 h
  rwa [size, zpow_neg, div_lt_iff₀ one_pos', inv_mul_eq_div, lt_div_iff₀ (ten_zpow_pos _), ← cast_ten_pow,
    ← Nat.cast_mul]

theorem zpow_neg_lt_size {k : Nat} (h : one < units m * Nat.pow 10 k) : (10 : ℚ) ^ (-(k : Int)) < size m := by
  have hunits : (one : ℚ) < (units m * Nat.pow 10 k : Nat) := Nat.cast_lt.2 h
  rwa [size, zpow_neg, lt_div_iff₀ one_pos', inv_mul_eq_div, div_lt_iff₀ (ten_zpow_pos _), ← cast_ten_pow,
    ← Nat.cast_mul]

namespace IsShortest

theorem digits_pos (h : IsShortest x m) : 0 < x.digits := by
  have := h.last
  omega

theorem length_le (h : IsShortest x m) (hm : 0 < m) {n k : Nat} {e : Int} (hn : n < Nat.pow 10 k)
    (hround : RoundsTo (n * 10 ^ e) m) : x.length ≤ k := by
  rcases Nat.eq_zero_or_pos k with rfl | hk
  · have hzero : n = 0 := Nat.lt_one_iff.1 hn
    have hpos := hround.pos hm
    rw [hzero, Nat.cast_zero, zero_mul] at hpos
    exact absurd hpos (lt_irrefl 0)
  · exact (Decimal.length_ofNat_le_iff hk).2 (h.fewest n k e hn hround)

theorem length_le_seventeen (h : IsShortest x m) : x.length ≤ 17 :=
  (Decimal.length_ofNat_le_iff (by decide)).2 h.seventeen

theorem decade_bounds (h : IsShortest x m) : (10 : ℚ) ^ x.decade ≤ x.value ∧ x.value < 10 ^ (x.decade + 1) := by
  have hpos := x.length_pos
  have hlow := zpow_le_mul_zpow x.exponent (Decimal.pow_le_of_pos h.digits_pos)
  have hhigh := mul_zpow_lt_zpow x.exponent x.digits_lt
  have hdecade : x.decade = ((Decimal.ofNat x.digits).length - 1 : Nat) + x.exponent := Int.add_comm ..
  have hdecade' : x.decade + 1 = x.length + x.exponent := by
    unfold Scientific.decade
    omega
  rw [hdecade', hdecade]
  exact ⟨hlow, hhigh⟩

/-- A power of ten that is rounded to a normal magnitude is its shortest decimal. -/
theorem eq_of_roundsTo_zpow (h : IsShortest x m) (hm : leadingBit ≤ m) {j : Int} (hj : RoundsTo (10 ^ j) m) :
    x.length = 1 ∧ x.exponent = j := by
  have hpos : 0 < m := Nat.lt_of_lt_of_le (by decide) hm
  have hdigits : x.digits < Nat.pow 10 1 := h.fewest 1 1 j (by decide) (by simpa using hj)
  have hlength := (Decimal.length_ofNat_le_iff (by decide)).2 hdigits
  have hdigits' : (x.digits : ℚ) ≤ 9 := by exact_mod_cast Nat.le_of_lt_succ hdigits
  have hone : (1 : ℚ) ≤ x.digits := by exact_mod_cast h.digits_pos
  have hup := hj.sub_le h.rounds hm
  have hdown := h.rounds.sub_le hj hm
  rw [Scientific.value] at hup hdown
  have hpow := ten_zpow_pos x.exponent
  have hpow' := ten_zpow_pos j
  have hle : x.exponent ≤ j := by
    by_contra hlt
    have hle := ten_zpow_le_iff.2 (show j + 1 ≤ x.exponent by omega)
    rw [zpow_add₀ (by norm_num), zpow_one] at hle
    nlinarith
  have hge : j ≤ x.exponent := by
    by_contra hlt
    have hle := ten_zpow_le_iff.2 (show x.exponent + 1 ≤ j by omega)
    rw [zpow_add₀ (by norm_num), zpow_one] at hle
    nlinarith
  exact ⟨le_antisymm hlength x.length_pos, le_antisymm hle hge⟩

/-- Nothing that is rounded to a normal magnitude reaches the decade behind that of its shortest decimal. -/
theorem lt_decade (h : IsShortest x m) (hm : leadingBit ≤ m) {y : ℚ} (hy : RoundsTo y m) : y < 10 ^ (x.decade + 1) := by
  by_contra hle
  have hpower := h.rounds.convex hy h.decade_bounds.2.le (not_lt.1 hle)
  obtain ⟨hlength, hexponent⟩ := h.eq_of_roundsTo_zpow hm hpower
  unfold Scientific.decade at hexponent
  omega

/-- As few digits as possible begin in the same decade. -/
theorem decade_eq (h : IsShortest x m) (hm : leadingBit ≤ m) {n : Nat} {j : Int} (hn : n < Nat.pow 10 x.length)
    (hround : RoundsTo (n * 10 ^ (j - (x.length - 1 : Nat))) m) : j = x.decade := by
  have hpos : 0 < m := Nat.lt_of_lt_of_le (by decide) hm
  have hlength := x.length_pos
  have hfirst : Nat.pow 10 (x.length - 1) ≤ n := by
    by_contra hlt
    have := h.length_le hpos (Nat.lt_of_not_le hlt) hround
    omega
  have hlow := zpow_le_mul_zpow (j - (x.length - 1 : Nat)) hfirst
  have hhigh := mul_zpow_lt_zpow (j - (x.length - 1 : Nat)) hn
  rw [add_sub_cancel] at hlow
  rw [show (x.length : Int) + (j - (x.length - 1 : Nat)) = j + 1 by omega] at hhigh
  have hle : j < x.decade + 1 := ten_zpow_lt_iff.1 (lt_of_le_of_lt hlow (h.lt_decade hm hround))
  by_contra hne
  -- the power of ten between both is a digit, so the other number has one digit too and cannot be so near
  have hbetween := ten_zpow_le_iff.2 (show j + 1 ≤ x.decade by omega)
  have hpower := hround.convex h.rounds hhigh.le (hbetween.trans h.decade_bounds.1)
  obtain ⟨hone, -⟩ := h.eq_of_roundsTo_zpow hm hpower
  rw [hone] at hn hround
  have hnine : (n : ℚ) ≤ 9 := by exact_mod_cast Nat.le_of_lt_succ hn
  have hnear := hround.sub_le hpower hm
  have hpow := ten_zpow_pos j
  rw [Nat.sub_self, Nat.cast_zero, sub_zero, zpow_add₀ (by norm_num), zpow_one] at hnear
  nlinarith

theorem natAbs_decade_lt (h : IsShortest x m) (hm : 0 < m) (hfinite : m < infinity) : x.decade.natAbs < 1000 := by
  obtain ⟨hlow, hhigh⟩ := h.decade_bounds
  have hupper : x.decade < 999 := by
    have hvalue : x.value < size infinity := by
      by_contra hge
      have := (RoundsTo.size_self infinity).mono h.rounds (not_lt.1 hge)
      omega
    have hsize : size infinity < 10 ^ ((999 : Nat) : Int) := size_lt_zpow (by decide +kernel)
    exact ten_zpow_lt_iff.1 (lt_of_le_of_lt hlow (hvalue.trans hsize))
  have hlower : -((998 : Nat) : Int) < x.decade + 2 := by
    have hsize : (10 : ℚ) ^ (-((998 : Nat) : Int)) < size 1 := zpow_neg_lt_size (by decide +kernel)
    have hmono := size_strictMono.monotone hm
    have hvalue := h.rounds.below 0 hm
    rw [size_zero] at hvalue
    refine ten_zpow_lt_iff.1 (lt_trans (lt_of_lt_of_le hsize hmono) ?_)
    have hnext : (10 : ℚ) ^ (x.decade + 2) = 10 * 10 ^ (x.decade + 1) := by
      rw [show x.decade + 2 = 1 + (x.decade + 1) by omega, ← zpow_mul_zpow, zpow_one]
    linarith [ten_zpow_pos (x.decade + 1)]
  omega

end IsShortest

/-- Numbers that are rounded to subnormal magnitudes are small. -/
theorem RoundsTo.lt_of_subnormal {y : ℚ} (hy : RoundsTo y m) (hm : m < leadingBit) :
    y < 10 ^ (-((307 : Nat) : Int)) := by
  have hsize : size leadingBit < 10 ^ (-((307 : Nat) : Int)) := size_lt_zpow_neg (by decide +kernel)
  refine lt_trans ?_ hsize
  by_contra hge
  have := (RoundsTo.size_self leadingBit).mono hy (not_lt.1 hge)
  omega

/-! ### Whole numbers -/

theorem size_eq_of_dvd (h : one ∣ units m) : size m = (units m / one : Nat) := by
  obtain ⟨k, hk⟩ := h
  rw [size, hk, Nat.mul_div_cancel_left k one_pos, Nat.cast_mul, mul_div_cancel_left₀ _ one_pos'.ne']

/-- A magnitude that a whole number is rounded to is a whole number. -/
theorem one_dvd_units {k : Nat} (hm : 0 < m) (h : RoundsTo k m) : one ∣ units m := by
  obtain ⟨e, he⟩ : ∃ e, one = Nat.pow 2 e := ⟨_, one_eq rfl⟩
  rcases Nat.le_or_le e (scale m) with hle | hle
  · rw [units, he]
    exact Dvd.dvd.mul_left (Nat.pow_dvd_pow 2 hle) _
  · -- both are multiples of the spacing, and nearer than the spacing
    obtain ⟨c, hc⟩ : Nat.pow 2 (scale m) ∣ one := he ▸ Nat.pow_dvd_pow 2 hle
    have hpos := spacing_pos m
    have hk : (k : ℚ) = (k * c : Nat) * spacing m := by
      have hone := one_pos'.ne'
      have hone' : (one : ℚ) = Nat.pow 2 (scale m) * c := by exact_mod_cast hc
      rw [spacing, Nat.cast_mul, mul_div_assoc', eq_div_iff hone, hone']
      ring
    have hnear := h.abs_sub_le hm
    rw [hk, size_eq_mul_spacing, ← sub_mul, abs_mul, abs_of_pos hpos, ← mul_assoc] at hnear
    have hhalf : 2 * |((k * c : Nat) : ℚ) - significand m| ≤ 1 := le_of_mul_le_mul_right (by linarith) hpos
    have hhalf' : 2 * |((k * c : Nat) : ℤ) - significand m| ≤ 1 := by exact_mod_cast hhalf
    have hzero : |((k * c : Nat) : ℤ) - significand m| = 0 := by
      have := abs_nonneg (((k * c : Nat) : ℤ) - significand m)
      omega
    have hsame : k * c = significand m := by exact_mod_cast sub_eq_zero.1 (abs_eq_zero.1 hzero)
    exact ⟨k, by rw [units, ← hsame, hc]; ring⟩

theorem IsShortest.one_dvd (h : IsShortest x m) (hm : 0 < m) (he : 0 ≤ x.exponent) : one ∣ units m := by
  obtain ⟨k, hk⟩ := Int.eq_ofNat_of_zero_le he
  have hvalue : x.value = (x.digits * Nat.pow 10 k : Nat) := by
    rw [Scientific.value, hk, Nat.cast_mul, cast_ten_pow]
  exact one_dvd_units hm (hvalue ▸ h.rounds)

end Double

end DocSearch
