import DocSearch.Decimal
import DocSearch.Proofs.Numeral
import Mathlib.Data.List.Basic
import Mathlib.Data.List.Induction
import Mathlib.Tactic.Ring

/-!
# Numerals and sums of words

A number has one numeral without leading zeros (`Decimal.isCanonical_iff`).  The numeral of a sum is exact whether the
words are added or their digits (`Decimal.sum_eq`).  Digit by digit, addition runs over the digits of both numerals
from the lowest on, and the digits that it has yet to write are those of what is left of both numbers and the carry
(`addLowFirst_lowDigits`).
-/

namespace DocSearch

namespace Decimal

/-- The words are added only where their sum is a word. -/
theorem le_maxWord_sub_iff {a b : UInt64} : a ≤ maxWord - b ↔ a.toNat + b.toNat < UInt64.size := by
  have hb := b.toNat_lt_size
  have hmax : maxWord.toNat = UInt64.size - 1 := by decide
  have hle : b ≤ maxWord := by
    rw [UInt64.le_iff_toNat_le]
    omega
  rw [UInt64.le_iff_toNat_le, UInt64.toNat_sub_of_le _ _ hle]
  omega

/-- Where the words are added, their sum is the sum of the numbers. -/
theorem toNat_add_of_le {a b : UInt64} (h : a ≤ maxWord - b) : (a + b).toNat = a.toNat + b.toNat := by
  rw [UInt64.toNat_add, Nat.mod_eq_of_lt (le_maxWord_sub_iff.1 h)]

/-! ### Digits from the lowest on -/

/-- The digits of a number, the lowest first; zero has none. -/
def lowDigits (n : Nat) : Text := if n = 0 then [] else digit (n % 10) :: lowDigits (n / 10)

theorem lowDigits_of_pos {n : Nat} (h : 0 < n) : lowDigits n = digit (n % 10) :: lowDigits (n / 10) := by
  rw [lowDigits, if_neg (by omega)]

theorem lowDigits_zero : lowDigits 0 = [] := by
  rw [lowDigits, if_pos rfl]

theorem ofNat_eq_reverse {n : Nat} (h : 0 < n) : ofNat n = (lowDigits n).reverse := by
  induction n using Nat.strongRecOn with
  | ind n ih =>
    rw [ofNat, lowDigits_of_pos h]
    split
    · rename_i hlt
      rw [Nat.mod_eq_of_lt hlt, Nat.div_eq_of_lt hlt, lowDigits_zero]
      rfl
    · rw [ih (n / 10) (by omega) (by omega), List.reverse_cons]

theorem isDigits_ofNat (n : Nat) : IsDigits (ofNat n) := by
  have hdigit : ∀ k < 10, isDigit (digit k) = true := by decide
  induction n using Nat.strongRecOn with
  | ind n ih =>
    rw [ofNat]
    split
    · rename_i hlt
      exact ⟨by simp, by simpa using hdigit n hlt⟩
    · refine ⟨by simp, fun b hb => ?_⟩
      rcases List.mem_append.1 hb with hb | hb
      · exact (ih (n / 10) (by omega)).2 b hb
      · rw [List.mem_singleton.1 hb]
        exact hdigit _ (by omega)

/-! ### Leading zeros -/

/-- The string of digits denotes `n` and has no zero in front of other digits. -/
structure IsCanonical (s : Text) (n : Nat) : Prop where
  digits : IsDigits s
  value_eq : value s = n
  leading : s.head? = some '0'.toUInt8 → s = ['0'.toUInt8]

private theorem digit_digitValue (b : UInt8) : isDigit b = true → digitValue b < 10 ∧ digit (digitValue b) = b := by
  revert b
  exact forall_byte (by decide +kernel)

private theorem ofNat_zero : ofNat 0 = ['0'.toUInt8] := by
  rw [ofNat]
  rfl

private theorem head?_ofNat {n : Nat} (h : 0 < n) : (ofNat n).head? ≠ some '0'.toUInt8 := by
  induction n using Nat.strongRecOn with
  | ind n ih =>
    rw [ofNat]
    split
    · rename_i hlt
      have hdigit : ∀ k < 10, 0 < k → digit k ≠ '0'.toUInt8 := by decide
      simpa using hdigit n hlt h
    · rw [List.head?_append_of_ne_nil _ (isDigits_ofNat _).1]
      exact ih (n / 10) (by omega) (by omega)

theorem isCanonical_ofNat (n : Nat) : IsCanonical (ofNat n) n := by
  refine ⟨isDigits_ofNat n, value_ofNat n, fun hzero => ?_⟩
  rcases Nat.eq_zero_or_pos n with rfl | hn
  · exact ofNat_zero
  · exact absurd hzero (head?_ofNat hn)

private theorem ofNat_value {s : Text} (hs : IsDigits s) (hlead : s.head? = some '0'.toUInt8 → s = ['0'.toUInt8]) :
    ofNat (value s) = s := by
  induction s using List.reverseRecOn with
  | nil => exact absurd rfl hs.1
  | append_singleton s b ih =>
    obtain ⟨hlt, hdigit⟩ := digit_digitValue b (hs.2 b (by simp))
    rw [value_append_singleton]
    by_cases hnil : s = []
    · subst hnil
      rw [show value [] = 0 from rfl, Nat.mul_zero, Nat.zero_add, ofNat, if_pos hlt, hdigit, List.nil_append]
    · have hne : s.head? ≠ some '0'.toUInt8 := by
        intro hzero
        rw [List.head?_append_of_ne_nil _ hnil] at hlead
        have hlength := congrArg List.length (hlead hzero)
        simp [hnil] at hlength
      have hfront : ofNat (value s) = s := ih ⟨hnil, fun c hc => hs.2 c (by simp [hc])⟩ fun hzero => absurd hzero hne
      -- digits without a zero in front denote no zero
      have hpos : 0 < value s := by
        by_contra hzero
        rw [Nat.eq_zero_of_not_pos hzero, ofNat_zero] at hfront
        exact hne (hfront ▸ rfl)
      rw [ofNat, if_neg (by omega), show (10 * value s + digitValue b) / 10 = value s by omega, hfront,
        show (10 * value s + digitValue b) % 10 = digitValue b by omega, hdigit]

/-- A number has one numeral without leading zeros. -/
theorem isCanonical_iff {s : Text} {n : Nat} : IsCanonical s n ↔ s = ofNat n := by
  constructor
  · rintro ⟨hs, rfl, hlead⟩
    exact (ofNat_value hs hlead).symm
  · rintro rfl
    exact isCanonical_ofNat n

/-! ### Places of digits -/

private theorem foldl_value (s : Text) (n : Nat) :
    s.foldl (fun n b => 10 * n + digitValue b) n = n * Nat.pow 10 s.length + value s := by
  induction s generalizing n with
  | nil => simp [value]
  | cons b s ih =>
    have hpow : Nat.pow 10 (b :: s).length = Nat.pow 10 s.length * 10 := rfl
    have hvalue : value (b :: s) = digitValue b * Nat.pow 10 s.length + value s := by
      rw [value, List.foldl_cons, ih, Nat.mul_zero, Nat.zero_add]
    rw [List.foldl_cons, ih, hvalue, hpow]
    ring

/-- Digits count by their place: those in front by a power of ten for each digit behind them. -/
theorem value_append (s t : Text) : value (s ++ t) = value s * Nat.pow 10 t.length + value t := by
  rw [value, List.foldl_append, foldl_value t]
  rfl

theorem value_zeros_append (k : Nat) (s : Text) : value (List.replicate k '0'.toUInt8 ++ s) = value s := by
  have hzeros : value (List.replicate k '0'.toUInt8) = 0 := by
    induction k with
    | zero => rfl
    | succ k ih =>
      rw [List.replicate_succ', value_append_singleton, ih]
      rfl
  rw [value_append, hzeros, Nat.zero_mul, Nat.zero_add]

/-! ### Numbers of digits -/

theorem value_lt {s : Text} (hs : ∀ b ∈ s, isDigit b = true) : value s < Nat.pow 10 s.length := by
  induction s using List.reverseRecOn with
  | nil => decide
  | append_singleton s b ih =>
    have hfront := ih fun c hc => hs c (List.mem_append_left _ hc)
    have hlt := (digit_digitValue b (hs b (by simp))).1
    have hpow : Nat.pow 10 (s ++ [b]).length = 10 * Nat.pow 10 s.length := by
      rw [List.length_append, List.length_singleton]
      exact Nat.pow_succ'
    rw [value_append_singleton, hpow]
    omega

/-- A numeral is as long as the power of ten that it does not reach. -/
theorem length_ofNat_le_iff {n k : Nat} (hk : 0 < k) : (ofNat n).length ≤ k ↔ n < Nat.pow 10 k := by
  induction k generalizing n with
  | zero => omega
  | succ k ih =>
    have hpow : Nat.pow 10 (k + 1) = 10 * Nat.pow 10 k := Nat.pow_succ'
    rw [ofNat, hpow]
    rcases Nat.lt_or_ge n 10 with hn | hn
    · have hpos : 0 < Nat.pow 10 k := Nat.pow_pos (by decide)
      rw [if_pos hn, List.length_singleton]
      omega
    · rw [if_neg (by omega), List.length_append, List.length_singleton, Nat.add_le_add_iff_right]
      rcases Nat.eq_zero_or_pos k with rfl | hk'
      · have hne : (ofNat (n / 10)).length ≠ 0 := fun h => (isDigits_ofNat (n / 10)).1 (List.length_eq_zero_iff.1 h)
        have hone : Nat.pow 10 0 = 1 := rfl
        omega
      · rw [ih hk']
        omega

theorem length_ofNat_pos (n : Nat) : 0 < (ofNat n).length := List.length_pos_of_ne_nil (isDigits_ofNat n).1

theorem lt_pow_length_ofNat (n : Nat) : n < Nat.pow 10 (ofNat n).length :=
  (length_ofNat_le_iff (length_ofNat_pos n)).1 (Nat.le_refl _)

theorem pow_le_of_pos {n : Nat} (hn : 0 < n) : Nat.pow 10 ((ofNat n).length - 1) ≤ n := by
  rcases Nat.eq_zero_or_pos ((ofNat n).length - 1) with h | h
  · rw [h]
    exact hn
  · by_contra hlt
    have := (length_ofNat_le_iff h).2 (Nat.lt_of_not_le hlt)
    omega

/-! ### Adding digit by digit -/

private theorem addCarry_lowDigits (n c : Nat) (hc : c ≤ 1) : addCarry (lowDigits n) c = lowDigits (n + c) := by
  induction n using Nat.strongRecOn generalizing c with
  | ind n ih =>
    rcases Nat.eq_zero_or_pos n with rfl | hn
    · rw [lowDigits_zero, addCarry, Nat.zero_add]
      rcases Nat.le_one_iff_eq_zero_or_eq_one.1 hc with rfl | rfl
      · rw [lowDigits_zero]
        rfl
      · rw [lowDigits_of_pos (by decide), lowDigits_zero]
        rfl
    · rw [lowDigits_of_pos hn, lowDigits_of_pos (show 0 < n + c by omega), addCarry, digitValue_digit (by omega),
        ih (n / 10) (by omega) _ (by omega)]
      congr 2 <;> omega

/-- What is still to be written is the sum of what is left of both numbers and the carry. -/
theorem addLowFirst_lowDigits (m n c : Nat) (hc : c ≤ 1) :
    addLowFirst (lowDigits m) (lowDigits n) c = lowDigits (m + n + c) := by
  induction m using Nat.strongRecOn generalizing n c with
  | ind m ih =>
    rcases Nat.eq_zero_or_pos m with rfl | hm
    · rw [lowDigits_zero, addLowFirst, addCarry_lowDigits n c hc, Nat.zero_add]
    · rcases Nat.eq_zero_or_pos n with rfl | hn
      · have h := addCarry_lowDigits m c hc
        rw [lowDigits_of_pos hm] at h ⊢
        rw [lowDigits_zero, addLowFirst, h, Nat.add_zero]
      · rw [lowDigits_of_pos hm, lowDigits_of_pos hn, lowDigits_of_pos (show 0 < m + n + c by omega), addLowFirst,
          digitValue_digit (by omega), digitValue_digit (by omega), ih (m / 10) (by omega) _ _ (by omega)]
        congr 2 <;> omega

theorem reverse_ofNat (n : Nat) : (ofNat n).reverse = digit (n % 10) :: lowDigits (n / 10) := by
  rcases Nat.eq_zero_or_pos n with rfl | hn
  · rw [ofNat, Nat.zero_div, lowDigits_zero]
    rfl
  · rw [ofNat_eq_reverse hn, List.reverse_reverse, lowDigits_of_pos hn]

/-- Adding the digits of two numerals gives the numeral of the sum, however long they are. -/
theorem add_ofNat (m n : Nat) : add (ofNat m) (ofNat n) = ofNat (m + n) := by
  rw [add, List.reverse_eq_iff, reverse_ofNat, reverse_ofNat, reverse_ofNat, addLowFirst,
    digitValue_digit (by omega), digitValue_digit (by omega), addLowFirst_lowDigits _ _ _ (by omega)]
  congr 2 <;> omega

/-- The numeral of a sum of words is that of the sum of the numbers. -/
theorem sum_eq (a b : UInt64) : sum a b = ofNat (a.toNat + b.toNat) := by
  unfold sum
  split
  · rename_i h
    rw [toNat_add_of_le h]
  · exact add_ofNat _ _

end Decimal

end DocSearch
