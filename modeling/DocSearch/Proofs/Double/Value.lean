import DocSearch.Proofs.Double.Rounding

/-!
# The double nearest to a number

A double is nearest to a number if no other one is nearer to it, and it is even if another one is as near
(`Double.IsNearest`).  For each sign there is one double nearest to a number, and it is the one that the magnitude of
the number rounds to (`Double.isNearest_iff`), or an infinity if that lies past the finite ones.
-/

namespace DocSearch

/-- The number with the given sign and the given size. -/
def signed (negative : Bool) (x : ℚ) : ℚ := if negative then -x else x

theorem abs_signed_sub_signed (negative : Bool) (x y : ℚ) : |signed negative x - signed negative y| = |x - y| := by
  cases negative
  · rfl
  · rw [signed, signed, if_pos rfl, if_pos rfl, neg_sub_neg, abs_sub_comm]

theorem abs_signed_sub_signed_not {x y : ℚ} (negative : Bool) (hx : 0 ≤ x) (hy : 0 ≤ y) :
    |signed negative x - signed (!negative) y| = x + y := by
  cases negative
  · simpa [signed] using abs_of_nonneg (add_nonneg hx hy)
  · have h : signed true x - signed (!true) y = -(x + y) := by
      simp only [signed, Bool.not_true, if_true, Bool.false_eq_true, if_false]
      ring
    rw [h, abs_neg, abs_of_nonneg (add_nonneg hx hy)]

namespace Double

/-- The number that a double stands for.  An infinity counts as the power of two behind the finite numbers. -/
def value (d : Double) : ℚ := signed d.isNegative (size d.magnitude)

theorem size_infinity : size infinity = 2 ^ (1024 : Int) := by
  have hsignificand : significand infinity = 2 ^ 52 := by decide
  have hscale : scale infinity = 2046 := by decide
  rw [size_eq_mul_spacing, spacing_eq, hsignificand, hscale, Nat.cast_pow, Nat.cast_ofNat, ← zpow_natCast,
    ← zpow_add₀ (by norm_num)]
  rfl

/-- No number is nearer to `x` than the double, and of two that are equally near it is the even one. -/
structure IsNearest (d : Double) (x : ℚ) : Prop where
  isNumber : d.isNaN = false
  closest : ∀ d' : Double, d'.isNaN = false → |x - d.value| ≤ |x - d'.value|
  tie : ∀ d' : Double, d'.isNaN = false → d'.value ≠ d.value → |x - d.value| = |x - d'.value| → d.magnitude % 2 = 0

theorem isNaN_eq_false {d : Double} : d.isNaN = false ↔ d.magnitude ≤ infinity := by
  rw [isNaN, decide_eq_false_iff_not, not_lt]

theorem ofMagnitude_of_le (negative : Bool) {m : Nat} (h : m ≤ infinity) :
    (ofMagnitude negative m).magnitude = m ∧ (ofMagnitude negative m).isNegative = negative ∧
      (ofMagnitude negative m).isNaN = false := by
  have hlt : m < signBit := Nat.lt_of_le_of_lt h (by decide)
  exact ⟨magnitude_ofMagnitude hlt, isNegative_ofMagnitude hlt, isNaN_eq_false.2 (by rwa [magnitude_ofMagnitude hlt])⟩

theorem value_ofMagnitude {negative : Bool} {m : Nat} (h : m ≤ infinity) :
    (ofMagnitude negative m).value = signed negative (size m) := by
  obtain ⟨hm, hn, -⟩ := ofMagnitude_of_le negative h
  rw [value, hm, hn]

/-! ### Magnitudes -/

/-- The same for magnitudes, the infinite one included. -/
private structure IsBest (x : ℚ) (k : Nat) : Prop where
  le : k ≤ infinity
  closest : ∀ n ≤ infinity, |x - size k| ≤ |x - size n|
  tie : ∀ n ≤ infinity, n ≠ k → |x - size k| = |x - size n| → k % 2 = 0

/-- A number is nearer to the lower of two others if it lies below the middle between them. -/
private theorem abs_sub_le_iff {x a b : ℚ} (hab : a < b) : |x - a| ≤ |x - b| ↔ 2 * x ≤ a + b := by
  rw [← sq_le_sq]
  constructor
  · intro h
    by_contra hlt
    nlinarith
  · intro h
    nlinarith

private theorem abs_sub_ge_iff {x a b : ℚ} (hab : a < b) : |x - b| ≤ |x - a| ↔ a + b ≤ 2 * x := by
  rw [← sq_le_sq]
  constructor
  · intro h
    by_contra hlt
    nlinarith
  · intro h
    nlinarith

private theorem isBest_of_roundsTo {x : ℚ} {m : Nat} (h : RoundsTo x m) : IsBest x (min m infinity) := by
  have habove : ∀ n, min m infinity < n → n ≤ infinity →
      2 * x ≤ size (min m infinity) + size n ∧ (2 * x = size (min m infinity) + size n → min m infinity % 2 = 0) := by
    intro n hn hle
    have hm : min m infinity = m := by omega
    rw [hm] at hn ⊢
    exact ⟨h.above n hn, h.tie n (by omega)⟩
  have hbelow : ∀ n, n < min m infinity →
      size n + size (min m infinity) ≤ 2 * x ∧ (2 * x = size n + size (min m infinity) → min m infinity % 2 = 0) := by
    intro n hn
    rcases Nat.le_or_ge m infinity with hm | hm
    · rw [Nat.min_eq_left hm] at hn ⊢
      exact ⟨h.below n hn, fun heq => h.tie n (by omega) (by linarith)⟩
    · rw [Nat.min_eq_right hm] at hn ⊢
      have hmono := size_strictMono.monotone hm
      exact ⟨by linarith [h.below n (by omega)], fun _ => by decide⟩
  refine ⟨Nat.min_le_right .., fun n hle => ?_, fun n hle hne heq => ?_⟩
  · rcases Nat.lt_trichotomy n (min m infinity) with hn | rfl | hn
    · exact (abs_sub_ge_iff (size_strictMono hn)).2 (hbelow n hn).1
    · exact le_rfl
    · exact (abs_sub_le_iff (size_strictMono hn)).2 (habove n hn hle).1
  · rcases Nat.lt_or_gt_of_ne hne with hn | hn
    · have hlt := size_strictMono hn
      have hmid := (abs_sub_le_iff hlt).1 heq.ge
      exact (hbelow n hn).2 (le_antisymm hmid (hbelow n hn).1)
    · have hlt := size_strictMono hn
      have hmid := (abs_sub_ge_iff hlt).1 heq.ge
      exact (habove n hn hle).2 (le_antisymm (habove n hn hle).1 hmid)

private theorem IsBest.le_of_isBest {x : ℚ} {k k' : Nat} (h : IsBest x k) (h' : IsBest x k') : k ≤ k' := by
  by_contra hlt
  have hk : k' < k := Nat.lt_of_not_le hlt
  have heq : |x - size k| = |x - size k'| := le_antisymm (h.closest k' h'.le) (h'.closest k h.le)
  have heven := h.tie k' h'.le (by omega) heq
  have heven' := h'.tie k h.le (by omega) heq.symm
  -- two even magnitudes have an odd one between them, which is nearer
  have hmid := h.closest (k' + 1) (by have := h.le; omega)
  have hbetween := size_strictMono (show k' + 1 < k by omega)
  have hlow := size_strictMono (show k' < k' + 1 by omega)
  have hsum := (abs_sub_le_iff (size_strictMono hk)).1 heq.ge
  have hsum' := (abs_sub_ge_iff hbetween).1 hmid
  linarith

/-- A double with the sign of a number is as far away from it as their magnitudes are. -/
private theorem abs_sub_value {x : ℚ} {negative : Bool} {d : Double} (hs : d.isNegative = negative) :
    |signed negative x - d.value| = |x - size d.magnitude| := by
  rw [value, hs, abs_signed_sub_signed]

private theorem abs_sub_value_ofMagnitude (x : ℚ) (negative : Bool) {k : Nat} (hk : k ≤ infinity) :
    |signed negative x - (ofMagnitude negative k).value| = |x - size k| := by
  rw [value_ofMagnitude hk, abs_signed_sub_signed]

private theorem IsNearest.isBest {x : ℚ} {d : Double} (h : d.IsNearest (signed d.isNegative x)) :
    IsBest x d.magnitude := by
  refine ⟨isNaN_eq_false.1 h.isNumber, fun n hn => ?_, fun n hn hne heq => ?_⟩
  · rw [← abs_sub_value rfl, ← abs_sub_value_ofMagnitude x d.isNegative hn]
    exact h.closest _ (ofMagnitude_of_le d.isNegative hn).2.2
  · refine h.tie _ (ofMagnitude_of_le d.isNegative hn).2.2 (fun hvalue => hne ?_) ?_
    · have hzero : |signed d.isNegative (size d.magnitude) - (ofMagnitude d.isNegative n).value| = 0 := by
        rw [hvalue, value, sub_self, abs_zero]
      rw [abs_sub_value_ofMagnitude _ _ hn, abs_eq_zero, sub_eq_zero] at hzero
      exact (size_strictMono.injective hzero).symm
    · rw [abs_sub_value rfl, abs_sub_value_ofMagnitude _ _ hn, heq]

private theorem IsBest.isNearest {x : ℚ} (hx : 0 ≤ x) {d : Double} (h : IsBest x d.magnitude) :
    d.IsNearest (signed d.isNegative x) := by
  have hzero : |x - size d.magnitude| ≤ x := by
    have hle := h.closest 0 (Nat.zero_le _)
    rwa [size_zero, sub_zero, abs_of_nonneg hx] at hle
  have hother : ∀ d' : Double, d'.isNegative = !d.isNegative →
      |signed d.isNegative x - d'.value| = x + size d'.magnitude := by
    intro d' hs
    rw [value, hs, abs_signed_sub_signed_not _ hx (size_nonneg _)]
  refine ⟨isNaN_eq_false.2 h.le, fun d' hd' => ?_, fun d' hd' hne heq => ?_⟩
  · rw [abs_sub_value rfl]
    rcases Bool.eq_or_eq_not d'.isNegative d.isNegative with hs | hs
    · rw [abs_sub_value hs]
      exact h.closest _ (isNaN_eq_false.1 hd')
    · rw [hother d' hs]
      linarith [size_nonneg d'.magnitude]
  · rw [abs_sub_value rfl] at heq
    rcases Bool.eq_or_eq_not d'.isNegative d.isNegative with hs | hs
    · rw [abs_sub_value hs] at heq
      refine h.tie _ (isNaN_eq_false.1 hd') (fun hm => hne ?_) heq
      rw [value, value, hs, hm]
    -- on the other side of zero only zero itself is as near
    · rw [hother d' hs] at heq
      have hn : d'.magnitude = 0 := by
        by_contra hpos
        linarith [size_pos (Nat.pos_of_ne_zero hpos)]
      have hk : d.magnitude ≠ 0 := by
        intro hk
        refine hne ?_
        rw [value, value, hn, hk, size_zero]
        simp [signed]
      refine h.tie 0 (Nat.zero_le _) hk.symm ?_
      rw [heq, hn, size_zero, sub_zero, add_zero, abs_of_nonneg hx]

/-- Of the doubles with the sign of a number, the one that its magnitude rounds to is nearest to it. -/
theorem isNearest_iff {x : ℚ} (hx : 0 ≤ x) {m : Nat} (hm : RoundsTo x m) {d : Double} :
    d.IsNearest (signed d.isNegative x) ↔ d.magnitude = min m infinity := by
  have hbest := isBest_of_roundsTo hm
  constructor
  · intro h
    exact Nat.le_antisymm (h.isBest.le_of_isBest hbest) (hbest.le_of_isBest h.isBest)
  · intro h
    exact IsBest.isNearest hx (h ▸ hbest)

theorem exists_roundsTo {x : ℚ} (hx : 0 ≤ x) : ∃ m, RoundsTo x m := by
  have hnum : ((x.num.toNat : ℤ) : ℚ) = x.num := by rw [Int.toNat_of_nonneg (Rat.num_nonneg.2 hx)]
  have hrounds : RoundsTo (x.num.toNat / x.den) (nearest x.num.toNat x.den) := roundsTo_nearest x.den_pos
  rw [← Int.cast_natCast, hnum, Rat.num_div_den] at hrounds
  exact ⟨_, hrounds⟩

/-- For each number and sign there is a nearest double. -/
theorem exists_isNearest {x : ℚ} (hx : 0 ≤ x) (negative : Bool) :
    ∃ d : Double, d.isNegative = negative ∧ d.IsNearest (signed negative x) := by
  obtain ⟨m, hm⟩ := exists_roundsTo hx
  obtain ⟨hmag, hneg, -⟩ := ofMagnitude_of_le negative (Nat.min_le_right m infinity)
  have hnearest := (isNearest_iff hx hm).2 hmag
  rw [hneg] at hnearest
  exact ⟨_, hneg, hnearest⟩

/-! ### Reading ratios -/

/-- The least normal number. -/
def leastNormal : ℚ := size leadingBit

/-- The largest finite number. -/
def greatest : ℚ := size (infinity - 1)

theorem leastNormal_eq : leastNormal = 2 ^ (-1022 : Int) := by
  have hsignificand : significand leadingBit = 2 ^ 52 := by decide
  have hscale : scale leadingBit = 0 := by decide
  rw [leastNormal, size_eq_mul_spacing, spacing_eq, hsignificand, hscale, Nat.cast_pow, Nat.cast_ofNat, ← zpow_natCast,
    ← zpow_add₀ (by norm_num)]
  rfl

theorem greatest_eq : greatest = (2 ^ 53 - 1) * 2 ^ (971 : Int) := by
  have hsignificand : significand (infinity - 1) = 2 ^ 53 - 1 := by decide
  have hscale : scale (infinity - 1) = 2045 := by decide
  rw [greatest, size_eq_mul_spacing, spacing_eq, hsignificand, hscale]
  norm_num

variable {num den : Nat} {negative : Bool}

/-- A ratio in range is read as the finite double nearest to it. -/
theorem isNearest_of_ofRatio? (hden : 0 < den) {d : Double} (h : ofRatio? negative num den = some d) :
    d.isFinite = true ∧ d.isNegative = negative ∧ d.IsNearest (signed negative (num / den)) := by
  unfold ofRatio? at h
  dsimp only at h
  split at h
  · cases h
  · rename_i hrange
    cases h
    have hlt : nearest num den < infinity := by
      rw [Bool.or_eq_true, not_or, decide_eq_true_eq] at hrange
      omega
    obtain ⟨hm, hn, -⟩ := ofMagnitude_of_le negative hlt.le
    have hrounds : RoundsTo (num / den) (nearest num den) := roundsTo_nearest hden
    have hnearest := (isNearest_iff (by positivity) hrounds).2 (hm.trans (Nat.min_eq_left hlt.le).symm)
    rw [hn] at hnearest
    exact ⟨by rw [isFinite, hm, decide_eq_true hlt], hn, hnearest⟩

/-- A ratio with an infinity nearest to it is out of range. -/
theorem ofRatio?_of_infinite (hden : 0 < den) {d : Double} (hd : d.IsNearest (signed d.isNegative (num / den)))
    (hfinite : d.isFinite = false) : ofRatio? d.isNegative num den = none := by
  have hrounds : RoundsTo (num / den) (nearest num den) := roundsTo_nearest hden
  have hm := (isNearest_iff (by positivity) hrounds).1 hd
  rw [isFinite, decide_eq_false_iff_not] at hfinite
  unfold ofRatio?
  dsimp only
  rw [decide_eq_true (show infinity ≤ nearest num den by omega)]
  rfl

/-- Zero and what lies between the least normal and the largest finite number is in range. -/
theorem exists_ofRatio? (negative : Bool) (hden : 0 < den)
    (h : (num / den : ℚ) = 0 ∨ leastNormal ≤ num / den ∧ (num / den : ℚ) ≤ greatest) :
    ∃ d, ofRatio? negative num den = some d := by
  have hpos : (0 : ℚ) < den := by exact_mod_cast hden
  have hlt : nearest num den < infinity := by
    have hgreatest : (num / den : ℚ) ≤ size (infinity - 1) := by
      rcases h with h | h
      · rw [h]
        exact size_nonneg _
      · exact h.2
    have hle := (roundsTo_nearest hden).mono (.size_self (infinity - 1)) hgreatest
    have hinfinity : 0 < infinity := by decide
    omega
  have hloss : (isTiny num den && isLossy num den) = false := by
    rcases h with h | ⟨h, -⟩
    · have hnum : num = 0 := by
        rw [div_eq_zero_iff, or_iff_left hpos.ne'] at h
        exact_mod_cast h
      rw [isLossy, hnum, Nat.zero_mul, Nat.zero_mod]
      exact Bool.and_false _
    · have hunits : leadingBit * den ≤ num * one := by
        have hleading : units leadingBit = leadingBit := by decide +kernel
        rw [leastNormal, size, hleading, div_le_div_iff₀ one_pos' hpos] at h
        exact_mod_cast h
      have htiny : isTiny num den = false := by
        rw [isTiny, decide_eq_false_iff_not]
        have hfour := Nat.mul_le_mul_left 4 hunits
        rw [← Nat.mul_assoc] at hfour
        omega
      rw [htiny, Bool.false_and]
  refine ⟨ofMagnitude negative (nearest num den), ?_⟩
  unfold ofRatio?
  dsimp only
  rw [hloss, decide_eq_false (Nat.not_le.2 hlt)]
  rfl

end Double

/-! ### Numerals -/

namespace Numeral

/-- All digits, those behind the point included. -/
def digits (n : Numeral) : Text := n.whole ++ n.fraction.getD []

/-- How many digits there are behind the point. -/
def places (n : Numeral) : Nat := (n.fraction.getD []).length

/-- The number that is written, without its sign. -/
def size (n : Numeral) : ℚ := Decimal.value n.digits / Nat.pow 10 n.places

/-- The number that is written. -/
def value (n : Numeral) : ℚ := signed n.negative n.size

theorem size_nonneg (n : Numeral) : 0 ≤ n.size := by
  unfold size
  positivity

theorem abs_value (n : Numeral) : |n.value| = n.size := by
  have h := abs_signed_sub_signed n.negative n.size 0
  rwa [sub_zero, abs_of_nonneg n.size_nonneg, show signed n.negative 0 = 0 by simp [signed], sub_zero] at h

theorem size_of_fraction {n : Numeral} {f : Text} (hf : n.fraction = some f) :
    n.size = Decimal.value (n.whole ++ f) / Nat.pow 10 f.length := by
  rw [size, digits, places, hf]
  rfl

end Numeral

end DocSearch
