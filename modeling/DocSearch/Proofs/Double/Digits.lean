import DocSearch.Double.Shortest
import DocSearch.Proofs.Double.Rounding

/-!
# The fewest digits

The shortest decimal of a magnitude is rounded to it and has no trailing zeros, and no decimal with fewer digits is
rounded to it (`Double.isShortest_shortest`).  On a grid of decimals it is enough to look at the neighbours of the
magnitude, because what is rounded to it lies without gaps around it, and no more than 17 digits are needed because the
grid is then finer than the spacing of the magnitudes.
-/

namespace DocSearch

namespace Double

/-! ### Decimals -/

theorem ten_zpow_pos (e : Int) : (0 : ℚ) < 10 ^ e := zpow_pos (by norm_num) e

theorem cast_ten_pow (k : Nat) : ((Nat.pow 10 k : Nat) : ℚ) = 10 ^ (k : Int) := by
  rw [zpow_natCast, Nat.pow_eq]
  norm_num

namespace Scientific

/-- The number of a decimal. -/
def value (x : Scientific) : ℚ := x.digits * 10 ^ x.exponent

theorem ratio_spec (x : Scientific) : 0 < x.ratio.2 ∧ (x.ratio.1 / x.ratio.2 : ℚ) = x.value := by
  obtain ⟨digits, e⟩ := x
  unfold ratio value
  rcases lt_or_ge e 0 with he | he
  · obtain ⟨k, rfl⟩ : ∃ k : Nat, e = -k := ⟨e.natAbs, by omega⟩
    rw [if_pos he, Int.natAbs_neg, Int.natAbs_natCast]
    refine ⟨Nat.pow_pos (by decide), ?_⟩
    rw [cast_ten_pow, zpow_neg, div_eq_mul_inv]
  · obtain ⟨k, rfl⟩ : ∃ k : Nat, e = k := ⟨e.natAbs, by omega⟩
    rw [if_neg (Int.not_lt.2 he), Int.natAbs_natCast]
    refine ⟨Nat.one_pos, ?_⟩
    rw [Nat.cast_mul, cast_ten_pow, Nat.cast_one, div_one]

theorem readsAs_iff {x : Scientific} {m : Nat} : x.readsAs m = true ↔ RoundsTo x.value m := by
  obtain ⟨hpos, hvalue⟩ := x.ratio_spec
  rw [← hvalue, ← nearest_eq_iff hpos]
  exact beq_iff_eq

end Scientific

/-! ### Grids -/

variable {m : Nat} {e : Int}

private theorem div_bounds {a b : Nat} (hb : 0 < b) :
    ((a / b : Nat) : ℚ) ≤ a / b ∧ (a / b : ℚ) < (a / b : Nat) + 1 := by
  have hb' : (0 : ℚ) < b := by exact_mod_cast hb
  rw [le_div_iff₀ hb', div_lt_iff₀ hb']
  exact ⟨by exact_mod_cast Nat.div_mul_le_self a b, by exact_mod_cast Nat.lt_mul_of_div_lt (Nat.lt_succ_self _) hb⟩

/-- The magnitude lies between its two neighbours on a grid. -/
theorem floorOn_bounds (m : Nat) (e : Int) :
    floorOn m e * 10 ^ e ≤ size m ∧ size m < (floorOn m e + 1) * (10 : ℚ) ^ e := by
  have hone := one_pos'.ne'
  rw [← le_div_iff₀ (ten_zpow_pos e), ← div_lt_iff₀ (ten_zpow_pos e)]
  unfold floorOn
  rcases lt_or_ge e 0 with he | he
  · obtain ⟨k, rfl⟩ : ∃ k : Nat, e = -k := ⟨e.natAbs, by omega⟩
    rw [if_pos he, Int.natAbs_neg, Int.natAbs_natCast]
    have hsize : size m / 10 ^ (-k : Int) = (units m * Nat.pow 10 k : Nat) / one := by
      rw [size, zpow_neg, Nat.cast_mul, cast_ten_pow]
      field_simp
    rw [hsize]
    exact div_bounds one_pos
  · obtain ⟨k, rfl⟩ : ∃ k : Nat, e = k := ⟨e.natAbs, by omega⟩
    rw [if_neg (by omega), Int.natAbs_natCast]
    have hsize : size m / 10 ^ (k : Int) = units m / (one * Nat.pow 10 k : Nat) := by
      rw [size, Nat.cast_mul, cast_ten_pow, div_div]
    rw [hsize]
    exact div_bounds (Nat.mul_pos one_pos (Nat.pow_pos (by decide)))

/-- The first digit in front of the point. -/
private theorem decade_of_one_le {u : Nat} (hle : one ≤ u) :
    (10 : ℚ) ^ (((Decimal.ofNat (u / one)).length : Int) - 1) ≤ u / one ∧
      (u / one : ℚ) < 10 ^ (((Decimal.ofNat (u / one)).length : Int) - 1 + 1) := by
  obtain ⟨hlow, hhigh⟩ := div_bounds (a := u) one_pos
  have hpow := Decimal.pow_le_of_pos (Nat.div_pos hle one_pos)
  have hlt := Decimal.lt_pow_length_ofNat (u / one)
  have hlen := Decimal.length_ofNat_pos (u / one)
  generalize (Decimal.ofNat (u / one)).length = k at hpow hlt hlen
  obtain ⟨j, rfl⟩ : ∃ j, k = j + 1 := ⟨k - 1, by omega⟩
  have hpow' : ((Nat.pow 10 j : Nat) : ℚ) ≤ (u / one : Nat) := by exact_mod_cast hpow
  have hlt' : ((u / one : Nat) : ℚ) + 1 ≤ (Nat.pow 10 (j + 1) : Nat) := by exact_mod_cast hlt
  rw [cast_ten_pow] at hpow' hlt'
  have hj : ((j + 1 : Nat) : Int) - 1 = j := by omega
  have hj' : ((j + 1 : Nat) : Int) - 1 + 1 = (j + 1 : Nat) := by omega
  rw [hj', hj]
  exact ⟨by linarith, by linarith⟩

/-- The first digit behind the point that is no zero. -/
private theorem decade_of_lt_one {u : Nat} (hpos : 0 < u) (hlt : u < one) :
    (10 : ℚ) ^ (-((Decimal.ofNat ((one - 1) / u)).length : Int)) ≤ u / one ∧
      (u / one : ℚ) < 10 ^ (-((Decimal.ofNat ((one - 1) / u)).length : Int) + 1) := by
  have hpow := Decimal.pow_le_of_pos (Nat.div_pos (show u ≤ one - 1 by omega) hpos)
  have hlast := Decimal.lt_pow_length_ofNat ((one - 1) / u)
  have hlen := Decimal.length_ofNat_pos ((one - 1) / u)
  generalize (Decimal.ofNat ((one - 1) / u)).length = k at hpow hlast hlen
  obtain ⟨j, rfl⟩ : ∃ j, k = j + 1 := ⟨k - 1, by omega⟩
  -- `10 ^ j` times the magnitude is below one, and ten times as much is not
  have hbelow : Nat.pow 10 j * u < one := by
    have hmul : Nat.pow 10 j * u ≤ one - 1 := Nat.mul_le_of_le_div u _ _ hpow
    omega
  have habove : one ≤ Nat.pow 10 (j + 1) * u := by
    have := (Nat.div_lt_iff_lt_mul hpos).1 hlast
    omega
  have hbelow' : ((Nat.pow 10 j : Nat) : ℚ) * u < one := by exact_mod_cast hbelow
  have habove' : (one : ℚ) ≤ (Nat.pow 10 (j + 1) : Nat) * u := by exact_mod_cast habove
  rw [cast_ten_pow] at hbelow' habove'
  have hj : -((j + 1 : Nat) : Int) + 1 = -j := by omega
  rw [hj, zpow_neg, zpow_neg, inv_eq_one_div, inv_eq_one_div, div_le_div_iff₀ (ten_zpow_pos _) one_pos',
    div_lt_div_iff₀ one_pos' (ten_zpow_pos _)]
  exact ⟨by linarith, by linarith⟩

/-- The exponent of the first digit. -/
theorem decimalExponent_bounds (hm : 0 < m) :
    (10 : ℚ) ^ decimalExponent m ≤ size m ∧ size m < 10 ^ (decimalExponent m + 1) := by
  have hpos : 0 < units m := Nat.lt_of_le_of_lt (Nat.zero_le _) (units_strictMono hm)
  unfold decimalExponent size
  dsimp only
  split
  · exact decade_of_one_le ‹_›
  · exact decade_of_lt_one hpos (Nat.lt_of_not_le ‹_›)

/-- Neither neighbour is read back, or one that is read back is chosen. -/
theorem onGrid?_cases (m : Nat) (e : Int) :
    (onGrid? m e = none ∧ Scientific.readsAs ⟨floorOn m e, e⟩ m = false ∧
      Scientific.readsAs ⟨floorOn m e + 1, e⟩ m = false) ∨
    ∃ x, onGrid? m e = some x ∧ x.exponent = e ∧ (x.digits = floorOn m e ∨ x.digits = floorOn m e + 1) ∧
      x.readsAs m = true := by
  -- unfolded as a function: compared with its value, the kernel would compute the neighbours
  obtain ⟨f, hf⟩ : ∃ f, f = onGrid? := ⟨_, rfl⟩
  rw [← hf]
  delta onGrid? at hf
  rw [hf]
  cases hb : Scientific.readsAs ⟨floorOn m e, e⟩ m <;> cases ha : Scientific.readsAs ⟨floorOn m e + 1, e⟩ m
  all_goals simp only [hb, ha]
  · exact Or.inl ⟨trivial, trivial, trivial⟩
  · exact Or.inr ⟨_, rfl, rfl, Or.inr rfl, ha⟩
  · exact Or.inr ⟨_, rfl, rfl, Or.inl rfl, hb⟩
  · right
    split
    · exact ⟨_, rfl, rfl, Or.inl rfl, hb⟩
    · exact ⟨_, rfl, rfl, Or.inr rfl, ha⟩

theorem onGrid?_eq_some {x : Scientific} (h : onGrid? m e = some x) :
    x.exponent = e ∧ (x.digits = floorOn m e ∨ x.digits = floorOn m e + 1) ∧ RoundsTo x.value m := by
  rcases onGrid?_cases m e with ⟨hnone, -⟩ | ⟨y, hy, he, hd, hr⟩
  · rw [hnone] at h
    cases h
  · rw [hy] at h
    cases h
    exact ⟨he, hd, Scientific.readsAs_iff.1 hr⟩

/-- If a number on a grid is rounded to the magnitude, so is a neighbour of the magnitude. -/
theorem not_roundsTo_of_onGrid? (h : onGrid? m e = none) (n : Nat) : ¬ RoundsTo (n * 10 ^ e) m := by
  intro hn
  obtain ⟨hlow, hhigh⟩ := floorOn_bounds m e
  have hmono : ∀ {a b : Nat}, a ≤ b → (a : ℚ) * 10 ^ e ≤ b * 10 ^ e := fun hab =>
    mul_le_mul_of_nonneg_right (by exact_mod_cast hab) (ten_zpow_pos e).le
  have hneighbour : RoundsTo (Scientific.value ⟨floorOn m e, e⟩) m ∨
      RoundsTo (Scientific.value ⟨floorOn m e + 1, e⟩) m := by
    rcases le_or_gt n (floorOn m e) with hle | hlt
    · exact Or.inl (hn.convex (.size_self m) (hmono hle) hlow)
    · have habove : size m ≤ (floorOn m e + 1 : Nat) * 10 ^ e := by
        push_cast
        exact hhigh.le
      exact Or.inr ((RoundsTo.size_self m).convex hn habove (hmono hlt))
  rw [← Scientific.readsAs_iff, ← Scientific.readsAs_iff] at hneighbour
  rcases onGrid?_cases m e with ⟨-, hbelow, habove⟩ | ⟨x, hx, -⟩
  · rw [hbelow, habove] at hneighbour
    rcases hneighbour with hb | ha
    · cases hb
    · cases ha
  · rw [hx] at h
    cases h

/-! ### The search -/

/-- The spacing grows only at the powers of two. -/
private theorem spacing_below (hm : 0 < m) : (∀ k, k + 1 = m → spacing k = spacing m) ∨ significand m = leadingBit := by
  obtain ⟨k, rfl⟩ : ∃ k, m = k + 1 := ⟨m - 1, by omega⟩
  have hscale : scale k = scale (k + 1) ∨ significand (k + 1) = leadingBit := by
    unfold significand scale leadingBit
    omega
  refine hscale.imp_left fun h j hj => ?_
  obtain rfl : j = k := by omega
  rw [spacing, spacing, h]

/-- A grid of 17 digits is so fine that one of its numbers is rounded to the magnitude. -/
theorem exists_roundsTo_seventeen (hm : 0 < m) (he : (10 : ℚ) ^ (e + 16) ≤ size m) :
    ∃ n : Nat, RoundsTo (n * 10 ^ e) m := by
  obtain ⟨hlow, hhigh⟩ := floorOn_bounds m e
  have hstep : (10 : ℚ) ^ 16 * 10 ^ e ≤ size m := by
    rwa [zpow_add₀ (by norm_num), mul_comm, zpow_ofNat] at he
  have hsize := size_eq_mul_spacing m
  have hpos := spacing_pos m
  by_cases habove : 2 * ((floorOn m e + 1) * (10 : ℚ) ^ e - size m) < spacing m
  · refine ⟨floorOn m e + 1, ?_⟩
    push_cast
    exact roundsTo_of_above hhigh.le habove
  · refine ⟨floorOn m e, roundsTo_of_below ?_ hlow ?_⟩
    -- below a power of two the spacing is half as wide, but then the number above is near enough
    · refine (spacing_below hm).resolve_right fun hplaces => habove ?_
      have hleading : ((leadingBit : Nat) : ℚ) = 2 ^ 52 := by norm_num [leadingBit]
      rw [hplaces, hleading] at hsize
      linarith
    · have hplaces : (significand m : ℚ) ≤ 2 ^ 53 := by
        have hlt : significand m ≤ 2 ^ 53 := (significand_lt m).le
        exact_mod_cast hlt
      have hbound := mul_le_mul_of_nonneg_right hplaces hpos.le
      linarith

private theorem findSome?_range_eq_some {α : Type} {f : Nat → Option α} {n : Nat} {a : α}
    (h : (List.range n).findSome? f = some a) : ∃ k < n, f k = some a ∧ ∀ i < k, f i = none := by
  induction n with
  | zero => cases h
  | succ n ih =>
    rw [List.range_succ, List.findSome?_append] at h
    cases hfront : (List.range n).findSome? f with
    | some b =>
      rw [hfront] at h
      obtain ⟨k, hk, hfound⟩ := ih (hfront.trans h)
      exact ⟨k, Nat.lt_succ_of_lt hk, hfound⟩
    | none =>
      rw [hfront] at h
      have hnone := List.findSome?_eq_none_iff.1 hfront
      refine ⟨n, Nat.lt_succ_self n, by simpa using h, fun i hi => hnone i (List.mem_range.2 hi)⟩

/-- The decimal is what the first grid offers that offers one, out of those of 1, 2, … 17 digits. -/
theorem shortestFrom_spec (hm : 0 < m) (he : (10 : ℚ) ^ e ≤ size m) :
    ∃ n : Nat, n < 17 ∧ onGrid? m (e - n) = some (shortestFrom m e) ∧ ∀ k < n, onGrid? m (e - k) = none := by
  have hlast : onGrid? m (e - (16 : Nat)) ≠ none := by
    intro hnone
    have he' : (10 : ℚ) ^ (e - (16 : Nat) + 16) ≤ size m := by
      rwa [show e - (16 : Nat) + 16 = e by omega]
    obtain ⟨n, hn⟩ := exists_roundsTo_seventeen hm he'
    exact not_roundsTo_of_onGrid? hnone n hn
  obtain ⟨f, hf⟩ : ∃ f, f = shortestFrom := ⟨_, rfl⟩
  rw [← hf]
  delta shortestFrom at hf
  rw [hf]
  cases hfound : (List.range 17).findSome? fun n : Nat => onGrid? m (e - n) with
  | none => exact absurd (List.findSome?_eq_none_iff.1 hfound 16 (by decide)) hlast
  | some x =>
    simp only [hfound]
    exact findSome?_range_eq_some hfound

/-! ### Trailing zeros -/

theorem stripZeros_spec {digits : Nat} (hpos : 0 < digits) (e : Int) :
    ∃ k : Nat, digits = (stripZeros digits e).digits * 10 ^ k ∧ (stripZeros digits e).exponent = e + k ∧
      (stripZeros digits e).digits % 10 ≠ 0 := by
  induction digits using Nat.strongRecOn generalizing e with
  | ind digits ih =>
    unfold stripZeros
    split
    · rename_i h
      obtain ⟨k, hdigits, hexponent, hlast⟩ := ih (digits / 10) (by omega) (by omega) (e + 1)
      refine ⟨k + 1, ?_, ?_, hlast⟩
      · rw [pow_succ, ← mul_assoc, ← hdigits]
        omega
      · rw [hexponent]
        push_cast
        ring
    · refine ⟨0, by simp, by simp, ?_⟩
      show digits % 10 ≠ 0
      omega

/-! ### The shortest decimal -/

/-- The decimal is rounded to the magnitude, ends with a digit other than zero, and has as few digits as any. -/
structure IsShortest (x : Scientific) (m : Nat) : Prop where
  rounds : RoundsTo x.value m
  last : x.digits % 10 ≠ 0
  fewest : ∀ (n k : Nat) (e : Int), n < Nat.pow 10 k → RoundsTo (n * 10 ^ e) m → x.digits < Nat.pow 10 k
  seventeen : x.digits < Nat.pow 10 17

theorem RoundsTo.pos {x : ℚ} (h : RoundsTo x m) (hm : 0 < m) : 0 < x := by
  have hbelow := h.below 0 hm
  have hsize := size_pos hm
  rw [size_zero] at hbelow
  linarith

/-- Of the numbers up to a power of ten, only those with a zero at the end are not below it. -/
private theorem lt_pow_of_mul_le {d k s : Nat} (hlast : d % 10 ≠ 0) (hs : 0 < s) (h : d * 10 ^ k ≤ Nat.pow 10 s) :
    d < Nat.pow 10 s := by
  obtain ⟨j, rfl⟩ : ∃ j, s = j + 1 := ⟨s - 1, by omega⟩
  have hpow : Nat.pow 10 (j + 1) = 10 * Nat.pow 10 j := Nat.pow_succ'
  have hle : d ≤ Nat.pow 10 (j + 1) := Nat.le_trans (Nat.le_mul_of_pos_right d (Nat.pow_pos (by decide))) h
  omega

theorem zpow_mul_zpow (a b : Int) : (10 : ℚ) ^ a * 10 ^ b = 10 ^ (a + b) := (zpow_add₀ (by norm_num) a b).symm

/-- A number with so few digits has a place on the grid for so many, or the first digit alone is enough. -/
private theorem exists_roundsTo_grid {n k : Nat} {E : Int} (hE : (10 : ℚ) ^ E ≤ size m) (hn : n < Nat.pow 10 (k + 1))
    (h : RoundsTo (n * 10 ^ e) m) : ∃ j : Nat, RoundsTo (j * 10 ^ (E - k)) m := by
  rcases le_or_gt (E - k) e with hle | hlt
  · obtain ⟨i, hi⟩ := Int.le.dest hle
    refine ⟨n * Nat.pow 10 i, ?_⟩
    rwa [Nat.cast_mul, cast_ten_pow, mul_assoc, zpow_mul_zpow, add_comm, hi]
  · refine ⟨Nat.pow 10 k, ?_⟩
    rw [cast_ten_pow, zpow_mul_zpow, add_sub_cancel]
    refine h.convex (.size_self m) ?_ hE
    have hn' : (n : ℚ) ≤ (Nat.pow 10 (k + 1) : Nat) := by exact_mod_cast hn.le
    calc (n : ℚ) * 10 ^ e ≤ (Nat.pow 10 (k + 1) : Nat) * 10 ^ e := mul_le_mul_of_nonneg_right hn' (ten_zpow_pos e).le
      _ = 10 ^ ((k + 1 : Nat) + e : Int) := by rw [cast_ten_pow, zpow_mul_zpow]
      _ ≤ 10 ^ E := zpow_le_zpow_right₀ (by norm_num) (by omega)

theorem isShortest_shortest (hm : 0 < m) : IsShortest (shortest m) m := by
  obtain ⟨hlow, hhigh⟩ := decimalExponent_bounds hm
  obtain ⟨n, hn, hfound, hnone⟩ := shortestFrom_spec hm hlow
  obtain ⟨hexponent, hdigits, hrounds⟩ := onGrid?_eq_some hfound
  unfold shortest
  generalize shortestFrom m (decimalExponent m) = y at hexponent hdigits hrounds
  generalize decimalExponent m = E at hlow hhigh hnone hexponent hdigits
  have hpos : 0 < y.digits := by
    by_contra hzero
    have hvalue := hrounds.pos hm
    rw [Scientific.value, Nat.eq_zero_of_not_pos hzero, Nat.cast_zero, zero_mul] at hvalue
    exact lt_irrefl 0 hvalue
  have hbound : y.digits ≤ Nat.pow 10 (n + 1) := by
    have hlt : (floorOn m (E - n) : ℚ) * 10 ^ (E - n : Int) < (Nat.pow 10 (n + 1) : Nat) * 10 ^ (E - n : Int) := by
      rw [cast_ten_pow, zpow_mul_zpow, show ((n + 1 : Nat) : Int) + (E - n) = E + 1 by omega]
      linarith [(floorOn_bounds m (E - n)).1]
    have hfloor : floorOn m (E - n) < Nat.pow 10 (n + 1) := by
      exact_mod_cast lt_of_mul_lt_mul_right hlt (ten_zpow_pos _).le
    omega
  obtain ⟨k, hstrip, hexponent', hlast⟩ := stripZeros_spec hpos y.exponent
  dsimp only
  generalize stripZeros y.digits y.exponent = x at hstrip hexponent' hlast
  have hfewer : ∀ s, n < s → x.digits < Nat.pow 10 s := by
    intro s hs
    have hle : Nat.pow 10 (n + 1) ≤ Nat.pow 10 s := Nat.pow_le_pow_right (by decide) hs
    exact lt_pow_of_mul_le hlast (by omega) (hstrip ▸ Nat.le_trans hbound hle)
  refine ⟨?_, hlast, fun i s e hi hround => ?_, ?_⟩
  · have hvalue : x.value = y.value := by
      rw [Scientific.value, Scientific.value, hstrip, hexponent', Nat.cast_mul, ← Nat.pow_eq, cast_ten_pow, mul_assoc,
        zpow_mul_zpow, add_comm]
    rwa [hvalue]
  · rcases Nat.lt_or_ge n s with hs | hs
    · exact hfewer s hs
    · rcases s with _ | s
      · have hzero : i = 0 := Nat.lt_one_iff.1 hi
        have hvalue := hround.pos hm
        rw [hzero, Nat.cast_zero, zero_mul] at hvalue
        exact absurd hvalue (lt_irrefl 0)
      -- the search would have stopped at the grid for so many digits
      · obtain ⟨j, hj⟩ := exists_roundsTo_grid hlow hi hround
        exact absurd hj (not_roundsTo_of_onGrid? (hnone s hs) j)
  · exact hfewer 17 hn

end Double

end DocSearch
