import DocSearch.Proofs.Decimal

/-!
# Exact numerals of doubles

A decimal that is exactly a finite double reads as that double (`Double.ofRatio?_of_exact`), and long division
writes every finite double as such a decimal: a whole number of units of `2 ^ (-1074)` needs no more than 1074
places.  So some numeral denotes each finite double (`Double.denotes_exactNumeral`).
-/

namespace DocSearch

namespace Double

/-! ### Reading exact decimals -/

theorem significand_lt (m : Nat) : significand m < 2 * leadingBit := by
  unfold significand scale leadingBit
  omega

theorem leadingBit_le_significand {m : Nat} (h : 0 < scale m) : leadingBit ≤ significand m := by
  unfold significand scale leadingBit at *
  omega

theorem scale_add_significand (m : Nat) : leadingBit * scale m + significand m = m := by
  unfold significand scale leadingBit
  omega

private theorem log2_lt_of_lt {n k : Nat} (hk : 0 < k) (h : n < Nat.pow 2 k) : Nat.log2 n < k := by
  rcases Nat.eq_zero_or_pos n with rfl | hn
  · rw [Nat.log2_zero]
    exact hk
  · exact (Nat.log2_lt (by omega)).2 h

/-- The leading place of a magnitude is the 53rd above its grid, or a lower one on the finest grid. -/
theorem log2_units (m : Nat) : Nat.log2 (units m) - 52 = scale m := by
  have hlt := significand_lt m
  have hpos : 0 < Nat.pow 2 (scale m) := Nat.two_pow_pos _
  have hhigh : units m < Nat.pow 2 (53 + scale m) := by
    have hpow : Nat.pow 2 (53 + scale m) = 2 * leadingBit * Nat.pow 2 (scale m) := Nat.pow_add 2 53 (scale m)
    rw [units, hpow]
    exact Nat.mul_lt_mul_of_pos_right hlt hpos
  have hlog := log2_lt_of_lt (by omega) hhigh
  rcases Nat.eq_zero_or_pos (scale m) with hs | hs
  · omega
  · have hlow : Nat.pow 2 (52 + scale m) ≤ units m := by
      have hpow : Nat.pow 2 (52 + scale m) = leadingBit * Nat.pow 2 (scale m) := Nat.pow_add 2 52 (scale m)
      rw [units, hpow]
      exact Nat.mul_le_mul_right _ (leadingBit_le_significand hs)
    have hne : units m ≠ 0 := Nat.ne_of_gt (Nat.lt_of_lt_of_le (Nat.two_pow_pos _) hlow)
    have := (Nat.le_log2 hne).2 hlow
    omega

theorem roundHalfEven_mul {n den : Nat} (h : 0 < den) : roundHalfEven (n * den) den = n := by
  unfold roundHalfEven
  rw [Nat.mul_div_cancel _ h, Nat.mul_mod_left]
  simp [h]

theorem nearest_of_exact {m num den : Nat} (hden : 0 < den) (h : num * one = units m * den) :
    nearest num den = m := by
  have hscale : gridScale num den = scale m := by
    rw [gridScale, h, Nat.mul_div_cancel _ hden, log2_units]
  have hplaces : num * one = significand m * (den * Nat.pow 2 (scale m)) := by
    rw [h, units, Nat.mul_assoc, Nat.mul_comm den]
  have hpos : 0 < den * Nat.pow 2 (scale m) := Nat.mul_pos hden (Nat.two_pow_pos _)
  show leadingBit * gridScale num den + roundHalfEven (num * one) (den * Nat.pow 2 (gridScale num den)) = m
  rw [hscale, hplaces, roundHalfEven_mul hpos, scale_add_significand]

/-- A decimal that is exactly a finite magnitude is in range and loses nothing. -/
theorem ofRatio?_of_exact {m num den : Nat} (hm : m < infinity) (hden : 0 < den) (h : num * one = units m * den)
    (negative : Bool) : ofRatio? negative num den = some (ofMagnitude negative m) := by
  have hlossless : isLossy num den = false := by
    unfold isLossy
    rw [h, Nat.mul_mod_left]
    rfl
  unfold ofRatio?
  rw [nearest_of_exact hden h, hlossless]
  simp [hm]

theorem ofMagnitude_magnitude (d : Double) : ofMagnitude d.isNegative d.magnitude = d := by
  obtain ⟨bits⟩ := d
  have hlt := bits.toNat_lt_size
  have hbits : (if signBit ≤ bits.toNat then signBit else 0) + bits.toNat % signBit = bits.toNat := by
    unfold signBit
    simp only [UInt64.size] at hlt
    split <;> omega
  simp only [ofMagnitude, isNegative, magnitude, decide_eq_true_eq, hbits, UInt64.ofNat_toNat]

theorem toNat_ofMagnitude {negative : Bool} {m : Nat} (h : m < signBit) :
    (ofMagnitude negative m).bits.toNat = (if negative then signBit else 0) + m := by
  simp only [ofMagnitude, UInt64.toNat_ofNat']
  unfold signBit at *
  split <;> omega

theorem magnitude_ofMagnitude {negative : Bool} {m : Nat} (h : m < signBit) :
    (ofMagnitude negative m).magnitude = m := by
  rw [magnitude, toNat_ofMagnitude h]
  unfold signBit at *
  split <;> omega

theorem isNegative_ofMagnitude {negative : Bool} {m : Nat} (h : m < signBit) :
    (ofMagnitude negative m).isNegative = negative := by
  rw [isNegative, toNat_ofMagnitude h]
  cases negative <;> simp [h]

/-! ### Writing exact decimals -/

/-- The places of `r / one` behind the point by long division, as long as something remains, but `n` at most. -/
def expansion : Nat → Nat → Text
  | 0, _ => []
  | n + 1, r =>
    Decimal.digit (10 * r / one) :: if 10 * r % one = 0 then [] else expansion n (10 * r % one)

theorem one_pos : 0 < one := by decide +kernel

theorem one_dvd_ten_pow : one ∣ Nat.pow 10 1074 := by decide +kernel

theorem isDigits_expansion {n r : Nat} (hr : r < one) : ∀ b ∈ expansion n r, isDigit b = true := by
  have hdigit : ∀ k < 10, isDigit (Decimal.digit k) = true := by decide
  induction n generalizing r with
  | zero => exact nofun
  | succ n ih =>
    have hq : 10 * r / one < 10 := Nat.div_lt_of_lt_mul (by omega)
    intro b hb
    rw [expansion, List.mem_cons] at hb
    rcases hb with rfl | hb
    · exact hdigit _ hq
    · split at hb
      · cases hb
      · exact ih (Nat.mod_lt _ one_pos) b hb

/-- A place `q` in front of the places of the remainder `r'`. -/
private theorem value_place {q r r' : Nat} (hq : q < 10) (hr : one * q + r' = 10 * r) {s : Text}
    (hs : Decimal.value s * one = r' * Nat.pow 10 s.length) :
    Decimal.value (Decimal.digit q :: s) * one = r * Nat.pow 10 (Decimal.digit q :: s).length := by
  have hvalue : Decimal.value (Decimal.digit q :: s) = q * Nat.pow 10 s.length + Decimal.value s := by
    rw [← List.singleton_append, Decimal.value_append]
    simp [Decimal.value, Decimal.digitValue_digit hq]
  have hpow : Nat.pow 10 (Decimal.digit q :: s).length = 10 * Nat.pow 10 s.length := Nat.pow_succ'
  calc Decimal.value (Decimal.digit q :: s) * one
      = q * Nat.pow 10 s.length * one + Decimal.value s * one := by rw [hvalue, Nat.add_mul]
    _ = (one * q + r') * Nat.pow 10 s.length := by rw [hs]; ring
    _ = r * Nat.pow 10 (Decimal.digit q :: s).length := by rw [hr, hpow]; ring

/-- The places are exactly the number, if `n` of them can be. -/
theorem value_expansion {n r : Nat} (hr : r < one) (h : one ∣ r * Nat.pow 10 n) :
    Decimal.value (expansion n r) * one = r * Nat.pow 10 (expansion n r).length := by
  induction n generalizing r with
  | zero =>
    have h0 : r = 0 := Nat.eq_zero_of_dvd_of_lt (by simpa using h) hr
    simp [expansion, Decimal.value, h0]
  | succ n ih =>
    have hdiv := Nat.div_add_mod (10 * r) one
    have hq : 10 * r / one < 10 := Nat.div_lt_of_lt_mul (by omega)
    have hlt : 10 * r % one < one := Nat.mod_lt _ one_pos
    rw [expansion]
    refine value_place hq hdiv ?_
    split
    · rename_i h0
      simp [h0, Decimal.value]
    · refine ih hlt ?_
      have hsum : r * Nat.pow 10 (n + 1) =
          one * (10 * r / one * Nat.pow 10 n) + 10 * r % one * Nat.pow 10 n := by
        have hpow : Nat.pow 10 (n + 1) = 10 * Nat.pow 10 n := Nat.pow_succ'
        calc r * Nat.pow 10 (n + 1) = 10 * r * Nat.pow 10 n := by rw [hpow]; ring
          _ = (one * (10 * r / one) + 10 * r % one) * Nat.pow 10 n := by rw [hdiv]
          _ = one * (10 * r / one * Nat.pow 10 n) + 10 * r % one * Nat.pow 10 n := by ring
      rw [hsum] at h
      exact (Nat.dvd_add_right (Nat.dvd_mul_right ..)).1 h

/-- The numeral that writes a finite double exactly. -/
def exactNumeral (d : Double) : Numeral where
  negative := d.isNegative
  whole := Decimal.ofNat (units d.magnitude / one)
  fraction := some (expansion 1074 (units d.magnitude % one))
  whole_digits := Decimal.isDigits_ofNat _
  fraction_digits := by
    rintro _ ⟨⟩
    exact ⟨List.cons_ne_nil _ _, isDigits_expansion (Nat.mod_lt _ one_pos)⟩

/-- The digits of the exact numeral as a number, which has so many places behind the point. -/
theorem value_exactNumeral (u : Nat) :
    Decimal.value (Decimal.ofNat (u / one) ++ expansion 1074 (u % one)) * one =
      u * Nat.pow 10 (expansion 1074 (u % one)).length := by
  have hplaces := value_expansion (Nat.mod_lt u one_pos)
    (Nat.dvd_trans one_dvd_ten_pow (Nat.dvd_mul_left _ (u % one)))
  have hdiv := Nat.div_add_mod u one
  generalize expansion 1074 (u % one) = s at hplaces ⊢
  calc Decimal.value (Decimal.ofNat (u / one) ++ s) * one
      = u / one * Nat.pow 10 s.length * one + Decimal.value s * one := by
        rw [Decimal.value_append, Decimal.value_ofNat, Nat.add_mul]
    _ = (one * (u / one) + u % one) * Nat.pow 10 s.length := by rw [hplaces]; ring
    _ = u * Nat.pow 10 s.length := by rw [hdiv]

theorem denotes_exactNumeral {d : Double} (h : d.isFinite = true) : d.exactNumeral.Denotes (.double d) := by
  have hfinite : d.magnitude < infinity := by simpa [isFinite] using h
  have hpos : 0 < Nat.pow 10 (expansion 1074 (units d.magnitude % one)).length := Nat.pow_pos (by decide)
  have hexact := ofRatio?_of_exact hfinite hpos (value_exactNumeral _) d.isNegative
  rw [ofMagnitude_magnitude] at hexact
  exact .decimal rfl hexact

end Double

end DocSearch
