import DocSearch.Proofs.Double.Notation

/-!
# The shortest notation

Positional notation and scientific notation write numerals (`Scientific.exists_positional_of_neg`,
`Scientific.exists_positional_of_dvd`, `Scientific.exists_scientific`).  Of the texts in scientific notation that are
rounded to a magnitude, the one of its shortest decimal has the fewest bytes (`IsShortest.length_scientific_le`).  A
text in fixed notation can have fewer bytes than positional notation, which writes all the digits of a whole number, but
then it has more than scientific notation (`IsShortest.length_positional_le_or`).
-/

namespace DocSearch

namespace Double

variable {m : Nat} {x : Scientific}

namespace Scientific

/-! ### The numerals that are written -/

/-- Positional notation with a point. -/
theorem exists_positional_of_neg (negative : Bool) (he : x.exponent < 0) (m : Nat) :
    ∃ n : Numeral, n.negative = negative ∧ n.unsigned = positional m x ∧ n.size = x.value := by
  obtain ⟨k, hk⟩ : ∃ k : Nat, x.exponent = -(k : Int) := ⟨x.exponent.natAbs, by omega⟩
  have hs := Decimal.isDigits_ofNat x.digits
  have hvalue : x.value = Decimal.value (Decimal.ofNat x.digits) * 10 ^ (-(k : Int)) := by
    rw [value, hk, Decimal.value_ofNat]
  unfold positional
  rw [if_neg (by omega), hvalue, hk, Int.natAbs_neg, Int.natAbs_natCast]
  dsimp only
  generalize Decimal.ofNat x.digits = s at hs
  by_cases hlt : k < s.length
  · obtain ⟨n, hn, -, htext, hsize⟩ :=
      Numeral.exists_of_digits negative hs (k := s.length - k) (by omega) (by omega)
    rw [if_neg (show s.length ≠ s.length - k by omega)] at htext
    rw [Nat.sub_sub_self hlt.le] at hsize
    exact ⟨n, hn, by rw [htext, if_pos hlt], hsize⟩
  · -- the digits stand behind zeros, the first of them in front of the point
    have hzeros : IsDigits (List.replicate (k - s.length + 1) '0'.toUInt8 ++ s) := by
      refine ⟨List.append_ne_nil_of_right_ne_nil _ hs.1, fun b hb => ?_⟩
      rcases List.mem_append.1 hb with hb | hb
      · rw [(List.mem_replicate.1 hb).2]
        decide
      · exact hs.2 b hb
    have hlength : (List.replicate (k - s.length + 1) '0'.toUInt8 ++ s).length = k + 1 := by
      rw [List.length_append, List.length_replicate]
      omega
    obtain ⟨n, hn, -, htext, hsize⟩ := Numeral.exists_of_digits negative hzeros (k := 1) (by decide) (by omega)
    rw [hlength, Decimal.value_zeros_append, Nat.add_sub_cancel] at hsize
    refine ⟨n, hn, ?_, hsize⟩
    have hpoint : ascii "0." = ['0'.toUInt8, '.'.toUInt8] := by decide
    have hpos : 0 < s.length := List.length_pos_of_ne_nil hs.1
    rw [htext, hlength, if_neg hlt, if_neg (show k + 1 ≠ 1 by omega), hpoint, List.append_assoc]
    rfl

/-- Positional notation of a whole number. -/
theorem exists_positional_of_dvd (negative : Bool) (he : 0 ≤ x.exponent) (hm : one ∣ units m) :
    ∃ n : Numeral, n.negative = negative ∧ n.unsigned = positional m x ∧ n.size = size m := by
  have hs := Decimal.isDigits_ofNat (units m / one)
  obtain ⟨n, hn, -, htext, hsize⟩ := Numeral.exists_of_digits negative hs (Decimal.length_ofNat_pos _) le_rfl
  refine ⟨n, hn, ?_, ?_⟩
  · rw [htext, if_pos rfl, List.append_nil, List.take_length, positional, if_pos he]
  · rw [hsize, Decimal.value_ofNat, Nat.sub_self, size_eq_of_dvd hm]
    exact mul_one _

/-- The exponent with a sign and two digits at least. -/
theorem exists_exponentPart (e : Int) : ∃ (below : Bool) (digits : Text),
    IsDigits digits ∧ digits.length = max 2 (Decimal.ofNat e.natAbs).length ∧
    (if below then -(Decimal.value digits : Int) else Decimal.value digits) = e ∧
    exponentPart e = (if below then '-'.toUInt8 else '+'.toUInt8) :: digits := by
  have hdigits := Decimal.isDigits_ofNat e.natAbs
  have hvalue := Decimal.value_ofNat e.natAbs
  have hpos := Decimal.length_ofNat_pos e.natAbs
  unfold exponentPart
  dsimp only
  generalize Decimal.ofNat e.natAbs = s at hdigits hvalue hpos
  have hsign : ∀ v : Nat, v = e.natAbs → (if decide (e < 0) then -(v : Int) else v) = e := by
    rintro v rfl
    simp only [decide_eq_true_eq]
    split <;> omega
  by_cases hs : s.length < 2
  · refine ⟨decide (e < 0), '0'.toUInt8 :: s, ⟨List.cons_ne_nil _ _, ?_⟩, ?_, hsign _ ?_, ?_⟩
    · exact List.forall_mem_cons.2 ⟨by decide, hdigits.2⟩
    · rw [List.length_cons]
      omega
    · rw [← hvalue]
      exact Decimal.value_zeros_append 1 s
    · simp [hs]
  · refine ⟨decide (e < 0), s, hdigits, by omega, hsign _ hvalue, ?_⟩
    simp [hs]

/-- Scientific notation. -/
theorem exists_scientific (negative : Bool) (x : Scientific) :
    ∃ n : PowerNumeral, n.mantissa.negative = negative ∧ n.unsigned = scientific x ∧ n.size = x.value := by
  obtain ⟨below, exponent, hexponent, hlength, hpower, htext⟩ := exists_exponentPart x.decade
  have htwo : 2 ≤ exponent.length := by omega
  obtain ⟨n, hn, hwhole, hunsigned, hsize⟩ :=
    Numeral.exists_of_digits negative (Decimal.isDigits_ofNat x.digits) (k := 1) (by decide) x.length_pos
  refine ⟨⟨n, below, exponent, hwhole, hexponent, htwo⟩, hn, ?_, ?_⟩
  · rw [PowerNumeral.unsigned, PowerNumeral.powerText, hunsigned, ← htext]
    rfl
  · -- the power of ten makes up for the digits behind the point
    rw [PowerNumeral.size, PowerNumeral.power, hpower, hsize, mul_assoc, zpow_mul_zpow, value, Decimal.value_ofNat,
      decade, length]
    congr 2
    omega

end Scientific

/-! ### Lengths -/

theorem length_exponentPart (e : Int) : (exponentPart e).length = 1 + max 2 (Decimal.ofNat e.natAbs).length := by
  obtain ⟨below, digits, -, hlength, -, htext⟩ := Scientific.exists_exponentPart e
  rw [htext, List.length_cons, hlength]
  omega

theorem length_scientific (x : Scientific) :
    (scientific x).length =
      x.length + (if x.length = 1 then 0 else 1) + 2 + max 2 (Decimal.ofNat x.decade.natAbs).length := by
  have hpos := x.length_pos
  have hexponent := length_exponentPart x.decade
  unfold Scientific.decade Scientific.length at *
  unfold scientific
  dsimp only
  generalize Decimal.ofNat x.digits = s at *
  rw [List.length_append, List.length_append, List.length_cons, hexponent, List.length_take]
  by_cases hone : s.length = 1
  · simp only [if_pos hone, List.length_nil]
    omega
  · simp only [if_neg hone, List.length_cons, List.length_drop]
    omega

theorem length_positional_of_neg (he : x.exponent < 0) :
    (positional m x).length = if x.exponent.natAbs < x.length then x.length + 1 else x.exponent.natAbs + 2 := by
  have hpoint : (ascii "0.").length = 2 := by decide
  unfold positional Scientific.length
  rw [if_neg (by omega)]
  dsimp only
  generalize Decimal.ofNat x.digits = s
  split
  · rw [List.length_append, List.length_cons, List.length_take, List.length_drop]
    omega
  · rw [List.length_append, List.length_append, List.length_replicate, hpoint]
    omega

namespace IsShortest

/-- With the same number of digits the exponents are the same, or both have three digits. -/
private theorem length_decade_le (h : IsShortest x m) (hm : 0 < m) (hfinite : m < infinity) {n : PowerNumeral}
    (hn : RoundsTo n.size m) (hsame : x.length = n.mantissa.digits.length) :
    (Decimal.ofNat x.decade.natAbs).length ≤ n.exponent.length := by
  have hwhole := n.whole_length
  have hdigits := n.mantissa.length_digits
  have hpos := x.length_pos
  have hplaces : n.mantissa.places = x.length - 1 := by omega
  have hpower := n.natAbs_power_lt
  rw [n.size_eq] at hn
  rcases Nat.lt_or_ge m leadingBit with hsub | hnormal
  · have hthree : (Decimal.ofNat x.decade.natAbs).length ≤ 3 :=
      (Decimal.length_ofNat_le_iff (by decide)).2 (h.natAbs_decade_lt hm hfinite)
    have hfirst : Nat.pow 10 (x.length - 1) ≤ Decimal.value n.mantissa.digits := by
      by_contra hless
      have := h.length_le hm (Nat.lt_of_not_le hless) hn
      omega
    have hlow := zpow_le_mul_zpow (n.power - n.mantissa.places) hfirst
    rw [hplaces, add_sub_cancel, ← hplaces] at hlow
    have hsmall := ten_zpow_lt_iff.1 (lt_of_le_of_lt hlow (hn.lt_of_subnormal hsub))
    by_contra hless
    have hpow : Nat.pow 10 n.exponent.length ≤ Nat.pow 10 2 := Nat.pow_le_pow_right (by decide) (by omega)
    have hhundred : Nat.pow 10 2 = 100 := rfl
    omega
  · have hlt := n.mantissa.value_digits_lt
    rw [hplaces] at hn
    rw [← hsame] at hlt
    rw [← h.decade_eq hnormal hlt hn]
    exact (Decimal.length_ofNat_le_iff (by have := n.two_le_length; omega)).2 hpower

/-- No text in scientific notation is shorter. -/
theorem length_scientific_le (h : IsShortest x m) (hm : 0 < m) (hfinite : m < infinity) {n : PowerNumeral}
    (hn : RoundsTo n.size m) : (scientific x).length ≤ n.unsigned.length := by
  have hwhole := n.whole_length
  have hdigits := n.mantissa.length_digits
  have hle := h.length_le hm n.mantissa.value_digits_lt (n.size_eq ▸ hn)
  have hthree : (Decimal.ofNat x.decade.natAbs).length ≤ 3 :=
    (Decimal.length_ofNat_le_iff (by decide)).2 (h.natAbs_decade_lt hm hfinite)
  have htwo := n.two_le_length
  have hpos := x.length_pos
  rw [length_scientific, n.length_unsigned]
  rcases Nat.lt_or_eq_of_le hle with hmore | hsame
  · rw [if_neg (show n.mantissa.places ≠ 0 by omega)]
    split <;> omega
  · have hexponent := h.length_decade_le hm hfinite hn hsame
    by_cases hone : x.length = 1
    · rw [if_pos hone]
      omega
    · rw [if_neg hone, if_neg (show n.mantissa.places ≠ 0 by omega)]
      omega

theorem length_scientific_le_of_finite (h : IsShortest x m) (hm : 0 < m) (hfinite : m < infinity) :
    (scientific x).length ≤ x.length + (if x.length = 1 then 0 else 1) + 5 := by
  have hthree : (Decimal.ofNat x.decade.natAbs).length ≤ 3 :=
    (Decimal.length_ofNat_le_iff (by decide)).2 (h.natAbs_decade_lt hm hfinite)
  rw [length_scientific]
  omega

variable {n : Numeral}

private theorem value_digits_pos (hm : 0 < m) (hn : RoundsTo n.size m) : 0 < Decimal.value n.digits := by
  by_contra hzero
  have hpos := hn.pos hm
  rw [Numeral.size_eq, Nat.eq_zero_of_not_pos hzero, Nat.cast_zero, zero_mul] at hpos
  exact lt_irrefl 0 hpos

/-- A subnormal number in fixed notation has more than three hundred zeros. -/
private theorem places_of_subnormal (hm : 0 < m) (hsub : m < leadingBit) (hn : RoundsTo n.size m) : 307 < n.places := by
  have hfirst : Nat.pow 10 0 ≤ Decimal.value n.digits := value_digits_pos hm hn
  have hlow := zpow_le_mul_zpow (-(n.places : Int)) hfirst
  rw [← Numeral.size_eq] at hlow
  have hsmall := ten_zpow_lt_iff.1 (lt_of_le_of_lt hlow (hn.lt_of_subnormal hsub))
  omega

/-- A number in fixed notation needs the places of the shortest decimal. -/
private theorem natAbs_le_places (h : IsShortest x m) (hm : leadingBit ≤ m) (he : x.exponent < 0)
    (hn : RoundsTo n.size m) : x.exponent.natAbs ≤ n.places := by
  have hpos : 0 < m := Nat.lt_of_lt_of_le (by decide) hm
  have hlength := x.length_pos
  by_contra hless
  have hupper := h.lt_decade hm hn
  rw [Numeral.size_eq] at hupper hn
  have hdecade := ten_zpow_le_iff.2 (show x.decade + 1 ≤ (x.length - 1 : Nat) + -(n.places : Int) by
    unfold Scientific.decade
    omega)
  rw [← zpow_mul_zpow ((x.length - 1 : Nat) : Int)] at hdecade
  have hlt := lt_of_mul_lt_mul_right (lt_of_lt_of_le hupper hdecade) (ten_zpow_pos _).le
  rw [← cast_ten_pow] at hlt
  have := h.length_le hpos (Nat.cast_lt.1 hlt) hn
  omega

/-- A whole number has so many digits in front of the point, or it is a long power of ten. -/
private theorem length_whole_or (h : IsShortest x m) (hm : leadingBit ≤ m) (hone : one ∣ units m)
    (hn : RoundsTo n.size m) :
    (Decimal.ofNat (units m / one)).length ≤ n.unsigned.length ∨ x.length = 1 ∧ 6 < n.unsigned.length := by
  have hpos : 0 < m := Nat.lt_of_lt_of_le (by decide) hm
  have hlength := n.length_unsigned
  have hdigits := n.length_digits
  have hsize := size_eq_of_dvd hone
  have hwhole : 0 < units m / one := by
    have hsize' := size_pos hpos
    rw [hsize] at hsize'
    exact_mod_cast hsize'
  have hfirst := Decimal.pow_le_of_pos hwhole
  have hlen := Decimal.length_ofNat_pos (units m / one)
  generalize units m / one = v at hsize hwhole hfirst hlen
  generalize (Decimal.ofNat v).length = w at hfirst hlen
  obtain ⟨j, rfl⟩ : ∃ j, w = j + 1 := ⟨w - 1, by omega⟩
  rcases Nat.lt_or_ge n.unsigned.length (j + 1) with hless | hge
  · right
    -- the text writes less than the power of ten, and that is rounded to the same magnitude
    have hlow : (10 : ℚ) ^ (j : Int) ≤ size m := by
      rw [hsize, ← cast_ten_pow]
      exact_mod_cast hfirst
    have hupper := n.size_lt
    have hwhole' := ten_zpow_le_iff.2 (show (n.whole.length : Int) ≤ j by omega)
    have hpower := hn.convex (.size_self m) (hupper.le.trans hwhole') hlow
    refine ⟨(h.eq_of_roundsTo_zpow hm hpower).1, ?_⟩
    have hnear := hn.sub_le hpower hm
    have hsame : n.whole.length = j := by
      by_contra hne
      have hshort := ten_zpow_le_iff.2 (show (n.whole.length : Int) + 1 ≤ j by omega)
      rw [zpow_add₀ (by norm_num), zpow_one] at hshort
      have := ten_zpow_pos (j : Int)
      linarith
    have hplaces : n.places = 0 := by
      split at hlength <;> omega
    have hvalue := Numeral.size_add_one_le hplaces
    rw [hsame] at hvalue
    by_contra hshort
    have hsix := ten_zpow_le_iff.2 (show (j : Int) ≤ 6 by omega)
    rw [show (10 : ℚ) ^ (6 : Int) = 1000000 by norm_num] at hsix
    linarith
  · exact Or.inl hge

/-- A text in fixed notation is not shorter than positional notation, or longer than scientific notation. -/
theorem length_positional_le_or (h : IsShortest x m) (hm : 0 < m) (hfinite : m < infinity) (hn : RoundsTo n.size m) :
    (positional m x).length ≤ n.unsigned.length ∨ (scientific x).length < n.unsigned.length := by
  have hscientific := h.length_scientific_le_of_finite hm hfinite
  have hlength := n.length_unsigned
  have hdigits := n.length_digits
  have hwhole : 0 < n.whole.length := List.length_pos_of_ne_nil n.whole_digits.1
  rcases Nat.lt_or_ge m leadingBit with hsub | hnormal
  · have hplaces := places_of_subnormal hm hsub hn
    have hseventeen := h.length_le_seventeen
    right
    split at hscientific <;> omega
  · rcases lt_or_ge x.exponent 0 with he | he
    · have hplaces := h.natAbs_le_places hnormal he hn
      have hlt := n.value_digits_lt
      rw [Numeral.size_eq] at hn
      have hle := h.length_le hm hlt hn
      left
      rw [length_positional_of_neg he, hlength, if_neg (show n.places ≠ 0 by omega)]
      split <;> omega
    · have hone := h.one_dvd hm he
      rw [positional, if_pos he]
      rcases h.length_whole_or hnormal hone hn with hle | ⟨hx, hlong⟩
      · exact Or.inl hle
      · rw [if_pos hx] at hscientific
        omega

end IsShortest

end Double

end DocSearch
