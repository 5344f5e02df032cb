import DocSearch.Proofs.Double.Exact
import Mathlib.Algebra.Order.Field.Rat
import Mathlib.Tactic.FieldSimp
import Mathlib.Tactic.Linarith
import Mathlib.Tactic.Positivity

/-!
# Rounding to doubles

A magnitude stands for a rational number (`Double.size`).  A number is rounded to a magnitude if it lies in its
interval, which reaches half way to both neighbours, and half way itself belongs to the even one (`Double.RoundsTo`).
The interval is convex, no number lies in two of them, and reading finds the right one (`Double.nearest_eq_iff`).
-/

namespace DocSearch

namespace Double

/-! ### The grid -/

/-- On the grid of a scale, the leading place of the last significand already belongs to the next one. -/
theorem units_grid {s r : Nat} (hs : s = 0 ∨ leadingBit ≤ r) (hr : r ≤ 2 * leadingBit) :
    units (leadingBit * s + r) = r * Nat.pow 2 s := by
  rcases Nat.lt_or_eq_of_le hr with hlt | rfl
  · have hscale : scale (leadingBit * s + r) = s := by
      unfold scale leadingBit at *
      omega
    have hplaces : significand (leadingBit * s + r) = r := by
      rw [significand, hscale, Nat.add_sub_cancel_left]
    rw [units, hscale, hplaces]
  · have hscale : scale (leadingBit * s + 2 * leadingBit) = s + 1 := by
      unfold scale leadingBit at *
      omega
    have hplaces : significand (leadingBit * s + 2 * leadingBit) = leadingBit := by
      rw [significand, hscale]
      unfold leadingBit
      omega
    have hpow : Nat.pow 2 (s + 1) = 2 * Nat.pow 2 s := Nat.pow_succ'
    rw [units, hscale, hplaces, hpow]
    ring

theorem units_succ (m : Nat) : units (m + 1) = units m + Nat.pow 2 (scale m) := by
  have hlt := significand_lt m
  have hplaces : scale m = 0 ∨ leadingBit ≤ significand m :=
    (Nat.eq_zero_or_pos (scale m)).imp_right leadingBit_le_significand
  have hnext := units_grid (s := scale m) (r := significand m + 1) (by omega) (by omega)
  rw [← Nat.add_assoc, scale_add_significand] at hnext
  rw [hnext, units]
  ring

theorem units_strictMono : StrictMono units := by
  refine strictMono_nat_of_lt_succ fun m => ?_
  have hpos : 0 < Nat.pow 2 (scale m) := Nat.two_pow_pos _
  rw [units_succ]
  omega

/-- The number that a magnitude stands for. -/
def size (m : Nat) : ℚ := units m / one

theorem one_pos' : (0 : ℚ) < one := by exact_mod_cast one_pos

theorem size_strictMono : StrictMono size := by
  intro m n h
  have hunits : (units m : ℚ) < units n := by exact_mod_cast units_strictMono h
  exact div_lt_div_of_pos_right hunits one_pos'

theorem size_zero : size 0 = 0 := by
  have hunits : units 0 = 0 := by rw [units, significand, Nat.zero_sub, Nat.zero_mul]
  rw [size, hunits, Nat.cast_zero, zero_div]

theorem size_nonneg (m : Nat) : 0 ≤ size m := by
  unfold size
  positivity

theorem size_pos {m : Nat} (h : 0 < m) : 0 < size m := by
  have := size_strictMono h
  rwa [size_zero] at this

/-! ### Spacing -/

/-- The distance from a magnitude to the next one. -/
def spacing (m : Nat) : ℚ := Nat.pow 2 (scale m) / one

theorem spacing_pos (m : Nat) : 0 < spacing m := div_pos (by exact_mod_cast Nat.two_pow_pos (scale m)) one_pos'

theorem size_succ (m : Nat) : size (m + 1) = size m + spacing m := by
  rw [size, size, spacing, units_succ, ← add_div]
  push_cast
  rfl

theorem size_eq_mul_spacing (m : Nat) : size m = significand m * spacing m := by
  rw [size, spacing, units]
  push_cast
  ring

/-- The exponent is a variable here, so that the power is not computed. -/
theorem one_eq {e : Nat} (he : e = 1074) : one = Nat.pow 2 e := by
  unfold one
  exact congrArg _ he.symm

theorem spacing_eq (m : Nat) : spacing m = 2 ^ ((scale m : Int) - 1074) := by
  obtain ⟨e, he⟩ : ∃ e, e = 1074 := ⟨_, rfl⟩
  have hpow : ∀ k : Nat, ((Nat.pow 2 k : Nat) : ℚ) = 2 ^ (k : Int) := by
    intro k
    rw [Nat.pow_eq, Nat.cast_pow, zpow_natCast, Nat.cast_ofNat]
  rw [spacing, one_eq he, hpow, hpow, ← zpow_sub₀ (by norm_num), he]
  rfl

theorem spacing_mono {m n : Nat} (h : m ≤ n) : spacing m ≤ spacing n := by
  have hscale : scale m ≤ scale n := Nat.sub_le_sub_right (Nat.div_le_div_right h) 1
  have hpow : Nat.pow 2 (scale m) ≤ Nat.pow 2 (scale n) := Nat.pow_le_pow_right (by decide) hscale
  exact div_le_div_of_nonneg_right (by exact_mod_cast hpow) one_pos'.le

/-! ### Intervals -/

/-- The number lies in the interval of the magnitude. -/
structure RoundsTo (x : ℚ) (m : Nat) : Prop where
  above : ∀ n, m < n → 2 * x ≤ size m + size n
  below : ∀ n, n < m → size n + size m ≤ 2 * x
  tie : ∀ n, n ≠ m → 2 * x = size m + size n → m % 2 = 0

namespace RoundsTo

variable {x y z : ℚ} {m n : Nat}

/-- It is enough to look at the neighbours. -/
theorem of_neighbours (above : 2 * x ≤ size m + size (m + 1)) (below : ∀ k, k + 1 = m → size k + size m ≤ 2 * x)
    (tieAbove : 2 * x = size m + size (m + 1) → m % 2 = 0)
    (tieBelow : ∀ k, k + 1 = m → 2 * x = size k + size m → m % 2 = 0) : RoundsTo x m := by
  have hup : ∀ n, m < n → size (m + 1) ≤ size n := fun n hn => size_strictMono.monotone hn
  have hdown : ∀ k, k + 1 = m → ∀ n, n < m → size n ≤ size k :=
    fun k hk n hn => size_strictMono.monotone (by omega)
  refine ⟨fun n hn => by linarith [hup n hn], fun n hn => ?_, fun n hne heq => ?_⟩
  · obtain ⟨k, rfl⟩ := Nat.exists_eq_add_of_lt (Nat.zero_lt_of_lt hn)
    have hk : 0 + k + 1 = 0 + k + 1 := rfl
    linarith [below _ hk, hdown _ hk n hn]
  · rcases Nat.lt_or_gt_of_ne hne with hn | hn
    · obtain ⟨k, rfl⟩ := Nat.exists_eq_add_of_lt (Nat.zero_lt_of_lt hn)
      have hk : 0 + k + 1 = 0 + k + 1 := rfl
      exact tieBelow _ hk (by linarith [below _ hk, hdown _ hk n hn])
    · exact tieAbove (by linarith [hup n hn])

theorem size_self (m : Nat) : RoundsTo (size m) m := by
  refine ⟨fun n hn => ?_, fun n hn => ?_, fun n hne heq => ?_⟩
  · linarith [size_strictMono hn]
  · linarith [size_strictMono hn]
  · exact absurd (size_strictMono.injective (by linarith)) hne

/-- What lies between two numbers of an interval belongs to it. -/
theorem convex (hx : RoundsTo x m) (hz : RoundsTo z m) (hxy : x ≤ y) (hyz : y ≤ z) : RoundsTo y m := by
  refine ⟨fun n hn => by linarith [hz.above n hn], fun n hn => by linarith [hx.below n hn], fun n hne heq => ?_⟩
  rcases Nat.lt_or_gt_of_ne hne with hn | hn
  · exact hx.tie n hne (by linarith [hx.below n hn])
  · exact hz.tie n hne (by linarith [hz.above n hn])

theorem mono (hx : RoundsTo x m) (hy : RoundsTo y n) (hxy : x ≤ y) : m ≤ n := by
  by_contra hlt
  have hnm : n < m := Nat.lt_of_not_le hlt
  have hbelow := hx.below n hnm
  have habove := hy.above m hnm
  have hm : m % 2 = 0 := hx.tie n (by omega) (by linarith)
  have hn : n % 2 = 0 := hy.tie m (by omega) (by linarith)
  -- two even magnitudes have an odd one between them, which is nearer
  have hmid := size_strictMono (show n + 1 < m by omega)
  linarith [hy.above (n + 1) (by omega)]

theorem unique (hm : RoundsTo x m) (hn : RoundsTo x n) : m = n :=
  Nat.le_antisymm (hm.mono hn le_rfl) (hn.mono hm le_rfl)

end RoundsTo

/-! ### Reading -/

theorem roundHalfEven_cases (num den : Nat) :
    roundHalfEven num den = num / den ∨ roundHalfEven num den = num / den + 1 := by
  unfold roundHalfEven
  dsimp only
  split
  · exact Or.inl rfl
  · exact Or.inr rfl

/-- The whole number differs from the quotient by half at most, and by half only if it is even. -/
theorem roundHalfEven_spec {num den : Nat} (hden : 0 < den) {y : ℚ} (hy : y = num / den) :
    2 * (roundHalfEven num den : ℚ) - 1 ≤ 2 * y ∧ 2 * y ≤ 2 * roundHalfEven num den + 1 ∧
      (2 * y = 2 * roundHalfEven num den - 1 ∨ 2 * y = 2 * roundHalfEven num den + 1 →
        roundHalfEven num den % 2 = 0) := by
  have hpos : (0 : ℚ) < den := by exact_mod_cast hden
  have hdiv : (num : ℚ) = den * (num / den : Nat) + (num % den : Nat) := by
    exact_mod_cast (Nat.div_add_mod num den).symm
  obtain ⟨part, hpart⟩ : ∃ part : ℚ, part = (num % den : Nat) / den := ⟨_, rfl⟩
  have hsum : y = (num / den : Nat) + part := by
    rw [hy, hdiv, hpart]
    field_simp
  have hzero : 0 ≤ part := by
    rw [hpart]
    positivity
  have hone : part < 1 := by
    rw [hpart, div_lt_one hpos]
    exact_mod_cast Nat.mod_lt num hden
  have hless : 2 * (num % den) < den ↔ 2 * part < 1 := by
    rw [hpart, ← mul_div_assoc, div_lt_one hpos]
    exact_mod_cast Iff.rfl
  have hhalf : 2 * (num % den) = den ↔ 2 * part = 1 := by
    rw [hpart, ← mul_div_assoc, div_eq_one_iff_eq hpos.ne']
    exact_mod_cast Iff.rfl
  unfold roundHalfEven
  simp only [Bool.or_eq_true, Bool.and_eq_true, decide_eq_true_eq, beq_iff_eq, hless, hhalf]
  split
  · rename_i hdown
    refine ⟨by linarith, ?_, ?_⟩
    · rcases hdown with h | ⟨h, -⟩ <;> linarith
    · rintro (h | h)
      · linarith
      · exact hdown.elim (fun hlt => by linarith) And.right
  · rename_i hup
    have hge : 1 ≤ 2 * part := not_lt.1 fun h => hup (Or.inl h)
    push_cast
    refine ⟨by linarith, by linarith, ?_⟩
    rintro (h | h)
    · have hodd : (num / den) % 2 ≠ 0 := fun he => hup (Or.inr ⟨by linarith, he⟩)
      omega
    · linarith

/-- The quotient has 53 places on its grid, or fewer on the finest one. -/
private theorem places_bounds (num den : Nat) :
    num * one / (den * Nat.pow 2 (gridScale num den)) < 2 * leadingBit ∧
      (gridScale num den = 0 ∨ leadingBit ≤ num * one / (den * Nat.pow 2 (gridScale num den))) := by
  rw [← Nat.div_div_eq_div_mul]
  unfold gridScale
  generalize num * one / den = u
  have hpos : 0 < Nat.pow 2 (Nat.log2 u - 52) := Nat.two_pow_pos _
  constructor
  · have hlt : u < Nat.pow 2 (Nat.log2 u + 1) := Nat.lt_log2_self
    have hpow : Nat.pow 2 (53 + (Nat.log2 u - 52)) = 2 * leadingBit * Nat.pow 2 (Nat.log2 u - 52) :=
      Nat.pow_add 2 53 _
    have hle : Nat.pow 2 (Nat.log2 u + 1) ≤ Nat.pow 2 (53 + (Nat.log2 u - 52)) :=
      Nat.pow_le_pow_right (by decide) (by omega)
    rw [Nat.div_lt_iff_lt_mul hpos, ← hpow]
    exact Nat.lt_of_lt_of_le hlt hle
  · rcases Nat.eq_zero_or_pos (Nat.log2 u - 52) with h0 | hs
    · exact Or.inl h0
    · right
      have hne : u ≠ 0 := by
        rintro rfl
        rw [Nat.log2_zero] at hs
        omega
      have hle : Nat.pow 2 (Nat.log2 u) ≤ u := Nat.log2_self_le hne
      have hpow : Nat.pow 2 (52 + (Nat.log2 u - 52)) = leadingBit * Nat.pow 2 (Nat.log2 u - 52) :=
        Nat.pow_add 2 52 _
      rw [Nat.le_div_iff_mul_le hpos, ← hpow, Nat.add_sub_cancel' (by omega)]
      exact hle

private theorem size_grid {s k : Nat} (hs : s = 0 ∨ leadingBit ≤ k) (hk : k ≤ 2 * leadingBit) :
    size (leadingBit * s + k) = k * (Nat.pow 2 s / one) := by
  rw [size, units_grid hs hk]
  push_cast
  ring

private theorem step_le_spacing {s r : Nat} (hs : s = 0 ∨ leadingBit ≤ r) :
    (Nat.pow 2 s / one : ℚ) ≤ spacing (leadingBit * s + r) := by
  have hscale : s ≤ scale (leadingBit * s + r) := by
    unfold scale leadingBit at *
    omega
  have hpow : Nat.pow 2 s ≤ Nat.pow 2 (scale (leadingBit * s + r)) := Nat.pow_le_pow_right (by decide) hscale
  exact div_le_div_of_nonneg_right (by exact_mod_cast hpow) one_pos'.le

/-- The number in front of a number on the grid of a scale is one step away, but in front of a power of two the grid
is finer. -/
private theorem size_grid_pred {s r k : Nat} (hs : s = 0 ∨ leadingBit ≤ r) (hr : r ≤ 2 * leadingBit)
    (hk : k + 1 = leadingBit * s + r) :
    0 < s ∧ r = leadingBit ∨ size k + size (leadingBit * s + r) = (2 * r - 1) * (Nat.pow 2 s / one) := by
  have hstep : ∀ j, r = j + 1 → (s = 0 ∨ leadingBit ≤ j) →
      size k + size (leadingBit * s + r) = (2 * r - 1) * (Nat.pow 2 s / one) := by
    rintro j rfl hj
    have hk' : k = leadingBit * s + j := by omega
    rw [size_grid hs hr, hk', size_grid hj (by omega)]
    push_cast
    ring
  rcases Nat.eq_zero_or_pos s with h0 | hpos
  · have hr' : r = k + 1 := by
      rw [h0] at hk
      omega
    exact Or.inr (hstep k hr' (Or.inl h0))
  · rcases Nat.eq_or_lt_of_le (hs.resolve_left (by omega)) with hlead | hlt
    · exact Or.inl ⟨hpos, hlead.symm⟩
    · exact Or.inr (hstep (r - 1) (by omega) (Or.inr (by omega)))

/-- A whole number of steps of the grid of a scale that is nearest to a number there. -/
private theorem roundsTo_grid {s r : Nat} {x y : ℚ} (hs : s = 0 ∨ leadingBit ≤ r) (hr : r ≤ 2 * leadingBit)
    (hy : s = 0 ∨ (leadingBit : ℚ) ≤ y) (hx : x = y * (Nat.pow 2 s / one)) (hlow : 2 * (r : ℚ) - 1 ≤ 2 * y)
    (hhigh : 2 * y ≤ 2 * r + 1) (htie : 2 * y = 2 * r - 1 ∨ 2 * y = 2 * r + 1 → r % 2 = 0) :
    RoundsTo x (leadingBit * s + r) := by
  have hpos : (0 : ℚ) < Nat.pow 2 s / one := div_pos (by exact_mod_cast Nat.two_pow_pos s) one_pos'
  have hplaces := size_grid hs hr
  have hnext := step_le_spacing hs
  have hprev : ∀ k, k + 1 = leadingBit * s + r →
      size k + size (leadingBit * s + r) < 2 * x ∨
        size k + size (leadingBit * s + r) = (2 * r - 1) * (Nat.pow 2 s / one) := by
    intro k hk
    refine (size_grid_pred hs hr hk).imp_left fun ⟨hscale, hlead⟩ => ?_
    -- the number is not below the power of two
    have hle : size (leadingBit * s + r) ≤ x := by
      rw [hplaces, hx, hlead]
      exact mul_le_mul_of_nonneg_right (hy.resolve_left (by omega)) hpos.le
    linarith [size_strictMono (show k < leadingBit * s + r by omega)]
  generalize (Nat.pow 2 s / one : ℚ) = step at *
  have heven : r % 2 = 0 → (leadingBit * s + r) % 2 = 0 := by
    unfold leadingBit
    omega
  have hupper := mul_le_mul_of_nonneg_right hhigh hpos.le
  have hlower := mul_le_mul_of_nonneg_right hlow hpos.le
  have hsucc := size_succ (leadingBit * s + r)
  refine .of_neighbours (by linarith) (fun k hk => ?_) (fun heq => heven (htie (Or.inr ?_))) fun k hk heq => ?_
  · rcases hprev k hk with h | h <;> linarith
  · exact le_antisymm hhigh (le_of_mul_le_mul_right (by linarith) hpos)
  · rcases hprev k hk with h | h
    · linarith
    · exact heven (htie (Or.inl (mul_right_cancel₀ hpos.ne' (by linarith))))

/-- A quotient is rounded to the magnitude nearest to it. -/
theorem roundsTo_nearest {num den : Nat} (hden : 0 < den) : RoundsTo (num / den) (nearest num den) := by
  obtain ⟨hplaces, hleading⟩ := places_bounds num den
  have hcases := roundHalfEven_cases (num * one) (den * Nat.pow 2 (gridScale num den))
  have hpow : 0 < Nat.pow 2 (gridScale num den) := Nat.two_pow_pos _
  have hden' : 0 < den * Nat.pow 2 (gridScale num den) := Nat.mul_pos hden hpow
  have hspec := roundHalfEven_spec hden' (y := (num * one : Nat) / (den * Nat.pow 2 (gridScale num den) : Nat)) rfl
  obtain ⟨hlow, hhigh, htie⟩ := hspec
  have hden'' : (0 : ℚ) < (den * Nat.pow 2 (gridScale num den) : Nat) := by exact_mod_cast hden'
  refine roundsTo_grid (hleading.imp_right fun h => by omega) (by omega) (hleading.imp_right fun h => ?_) ?_ hlow hhigh
    htie
  · rw [le_div_iff₀ hden'']
    exact_mod_cast (Nat.le_div_iff_mul_le hden').1 h
  · have hone := one_pos'.ne'
    have hden0 : (den : ℚ) ≠ 0 := by exact_mod_cast hden.ne'
    have hpow0 : ((Nat.pow 2 (gridScale num den) : Nat) : ℚ) ≠ 0 := by exact_mod_cast hpow.ne'
    rw [Nat.cast_mul, Nat.cast_mul]
    field_simp

theorem nearest_eq_iff {num den m : Nat} (hden : 0 < den) : nearest num den = m ↔ RoundsTo (num / den) m :=
  ⟨fun h => h ▸ roundsTo_nearest hden, fun h => (roundsTo_nearest hden).unique h⟩

/-! ### Close numbers -/

variable {x y : ℚ} {m : Nat}

/-- What lies above a magnitude by less than half its spacing is rounded to it. -/
theorem roundsTo_of_above (h : size m ≤ x) (hx : 2 * (x - size m) < spacing m) : RoundsTo x m := by
  have hsucc := size_succ m
  refine .of_neighbours (by linarith) (fun k hk => ?_) (fun heq => by linarith) fun k hk heq => ?_
  · linarith [size_strictMono (show k < m by omega)]
  · linarith [size_strictMono (show k < m by omega)]

/-- The same below it, if the spacing there is not smaller. -/
theorem roundsTo_of_below (hm : ∀ k, k + 1 = m → spacing k = spacing m) (h : x ≤ size m)
    (hx : 2 * (size m - x) < spacing m) : RoundsTo x m := by
  have hpos := spacing_pos m
  have hpred : ∀ k, k + 1 = m → size m = size k + spacing m := by
    intro k hk
    rw [← hm k hk, ← size_succ, hk]
  refine .of_neighbours ?_ (fun k hk => ?_) (fun heq => ?_) fun k hk heq => ?_
  · linarith [size_succ m]
  · linarith [hpred k hk]
  · linarith [size_succ m]
  · linarith [hpred k hk]

/-- An interval reaches no further than half the spacing. -/
theorem RoundsTo.abs_sub_le (h : RoundsTo x m) (hm : 0 < m) : 2 * |x - size m| ≤ spacing m := by
  obtain ⟨k, rfl⟩ : ∃ k, m = k + 1 := ⟨m - 1, by omega⟩
  have habove := h.above (k + 1 + 1) (by omega)
  have hbelow := h.below k (by omega)
  have hsucc := size_succ k
  have hmono := spacing_mono (show k ≤ k + 1 by omega)
  rw [size_succ (k + 1)] at habove
  have hle : |x - size (k + 1)| ≤ spacing (k + 1) / 2 := abs_sub_le_iff.2 ⟨by linarith, by linarith⟩
  linarith

/-- The numbers that are rounded to a normal magnitude are close together. -/
theorem RoundsTo.sub_le (hx : RoundsTo x m) (hy : RoundsTo y m) (hm : leadingBit ≤ m) : 2 ^ 51 * (y - x) ≤ y := by
  have hpos : 0 < m := Nat.lt_of_lt_of_le (by decide) hm
  have hplaces : (2 : ℚ) ^ 52 ≤ significand m := by
    have hle : leadingBit ≤ significand m := by
      unfold significand scale leadingBit at *
      omega
    calc (2 : ℚ) ^ 52 = leadingBit := by norm_num [leadingBit]
      _ ≤ significand m := by exact_mod_cast hle
  have hsize : 2 ^ 52 * spacing m ≤ size m := by
    rw [size_eq_mul_spacing]
    exact mul_le_mul_of_nonneg_right hplaces (spacing_pos m).le
  have hx' := abs_le.1 (show |x - size m| ≤ spacing m / 2 by linarith [hx.abs_sub_le hpos])
  have hy' := abs_le.1 (show |y - size m| ≤ spacing m / 2 by linarith [hy.abs_sub_le hpos])
  linarith [spacing_pos m]

end Double

end DocSearch
