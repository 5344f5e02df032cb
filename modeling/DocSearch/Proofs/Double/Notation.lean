import DocSearch.Proofs.Double.Decade
import DocSearch.Proofs.Double.Value

/-!
# Fixed and scientific notation

A number is written in fixed notation by a numeral, and in scientific notation by a numeral with one digit in front of
the point and a power of ten (`PowerNumeral`).  Either way the text tells the number, and no text is in both notations,
so that a text reads as one double at most (`Double.ReadsFrom.unique`).
-/

namespace DocSearch

/-- A number in scientific notation. -/
structure PowerNumeral where
  mantissa : Numeral
  /-- Whether the exponent is negative. -/
  below : Bool
  exponent : Text
  whole_length : mantissa.whole.length = 1
  exponent_digits : IsDigits exponent
  two_le_length : 2 ≤ exponent.length

namespace PowerNumeral

/-- The exponent with its letter and its sign. -/
def powerText (n : PowerNumeral) : Text :=
  'e'.toUInt8 :: (if n.below then '-'.toUInt8 else '+'.toUInt8) :: n.exponent

def text (n : PowerNumeral) : Text := n.mantissa.text ++ n.powerText

/-- The text without the sign of the number. -/
def unsigned (n : PowerNumeral) : Text := n.mantissa.unsigned ++ n.powerText

/-- The exponent as a number. -/
def power (n : PowerNumeral) : Int := if n.below then -Decimal.value n.exponent else Decimal.value n.exponent

/-- The number that is written, without its sign. -/
def size (n : PowerNumeral) : ℚ := n.mantissa.size * 10 ^ n.power

def value (n : PowerNumeral) : ℚ := signed n.mantissa.negative n.size

end PowerNumeral

/-! ### Numerals and their lengths -/

namespace Numeral

theorem size_eq (n : Numeral) : n.size = Decimal.value n.digits * 10 ^ (-(n.places : Int)) := by
  rw [size, Double.cast_ten_pow, zpow_neg, div_eq_mul_inv]

theorem value_digits_lt (n : Numeral) : Decimal.value n.digits < Nat.pow 10 n.digits.length := by
  refine Decimal.value_lt fun b hb => ?_
  rcases List.mem_append.1 hb with hb | hb
  · exact n.whole_digits.2 b hb
  · cases hf : n.fraction with
    | none =>
      rw [hf] at hb
      cases hb
    | some f =>
      rw [hf] at hb
      exact (n.fraction_digits f hf).2 b hb

theorem length_digits (n : Numeral) : n.digits.length = n.whole.length + n.places := List.length_append

/-- The point takes a byte if digits follow it. -/
theorem length_unsigned (n : Numeral) : n.unsigned.length = n.digits.length + if n.places = 0 then 0 else 1 := by
  rw [length_digits, unsigned, List.length_append]
  unfold pointed places
  cases hf : n.fraction with
  | none => rfl
  | some f =>
    have hpos : f.length ≠ 0 := fun h => (n.fraction_digits f hf).1 (List.length_eq_zero_iff.1 h)
    rw [Option.elim_some, Option.getD_some, if_neg hpos, List.length_cons]
    rfl

theorem size_lt (n : Numeral) : n.size < 10 ^ (n.whole.length : Int) := by
  have hdigits := n.length_digits
  have hlt := Double.mul_zpow_lt_zpow (-(n.places : Int)) n.value_digits_lt
  rw [← size_eq] at hlt
  rwa [show (n.digits.length : Int) + -n.places = n.whole.length by omega] at hlt

/-- A whole number is one below the power of ten at least. -/
theorem size_add_one_le {n : Numeral} (hplaces : n.places = 0) : n.size + 1 ≤ 10 ^ (n.whole.length : Int) := by
  have hdigits := n.length_digits
  have hlt := n.value_digits_lt
  rw [show n.digits.length = n.whole.length by omega] at hlt
  have hnext : ((Decimal.value n.digits + 1 : Nat) : ℚ) ≤ (Nat.pow 10 n.whole.length : Nat) := Nat.cast_le.2 hlt
  rw [Double.cast_ten_pow] at hnext
  rw [size_eq, hplaces]
  simpa using hnext

/-- Digits are a numeral with a point behind the first `k` of them, or without a point if there are no more. -/
theorem exists_of_digits (negative : Bool) {s : Text} (hs : IsDigits s) {k : Nat} (hk : 0 < k) (hle : k ≤ s.length) :
    ∃ n : Numeral, n.negative = negative ∧ n.whole.length = k ∧
      n.unsigned = s.take k ++ (if s.length = k then [] else '.'.toUInt8 :: s.drop k) ∧
      n.size = Decimal.value s * 10 ^ (-((s.length - k : Nat) : Int)) := by
  have hwhole : IsDigits (s.take k) := by
    refine ⟨List.ne_nil_of_length_pos ?_, fun b hb => hs.2 b (List.mem_of_mem_take hb)⟩
    rw [List.length_take]
    omega
  by_cases hall : s.length = k
  · refine ⟨⟨negative, s.take k, none, hwhole, nofun⟩, rfl, List.length_take_of_le hle, ?_, ?_⟩
    · rw [if_pos hall]
      rfl
    · rw [size_eq, digits, places]
      dsimp only [Option.getD]
      rw [List.append_nil, List.take_of_length_le hall.le, List.length_nil, hall, Nat.sub_self]
  · have hfraction : IsDigits (s.drop k) := by
      refine ⟨List.ne_nil_of_length_pos ?_, fun b hb => hs.2 b (List.mem_of_mem_drop hb)⟩
      rw [List.length_drop]
      omega
    have hfraction' : ∀ f ∈ some (s.drop k), IsDigits f := fun _ hf => Option.mem_some.1 hf ▸ hfraction
    refine ⟨⟨negative, s.take k, some (s.drop k), hwhole, hfraction'⟩, rfl, List.length_take_of_le hle, ?_, ?_⟩
    · rw [if_neg hall]
      rfl
    · rw [size_eq, digits, places]
      dsimp only [Option.getD]
      rw [List.take_append_drop, List.length_drop]

end Numeral

/-! ### Texts and numbers -/

namespace Numeral

theorem ext_text {n n' : Numeral} (h : n.text = n'.text) : n = n' := by
  have hsplit : (n.negative, n.unsigned) = (n'.negative, n'.unsigned) := by
    rw [← splitSign_text, ← splitSign_text, h]
  obtain ⟨hsign, hunsigned⟩ := Prod.mk.inj hsplit
  have hcut : ∀ k : Numeral, k.unsigned.cut '.'.toUInt8 = k.fraction.map fun f => (k.whole, f) := by
    intro k
    have hwhole : '.'.toUInt8 ∉ k.whole := k.whole_digits.not_mem (by decide)
    unfold unsigned pointed
    cases k.fraction with
    | none => rw [Option.elim_none, List.append_nil, Text.cut_eq_none.2 hwhole, Option.map_none]
    | some f => rw [Option.elim_some, Text.cut_eq_some.2 ⟨rfl, hwhole⟩, Option.map_some]
  have hparts := (hcut n).symm.trans ((congrArg (Text.cut '.'.toUInt8) hunsigned).trans (hcut n'))
  obtain ⟨negative, whole, fraction, hw, hf⟩ := n
  obtain ⟨negative', whole', fraction', hw', hf'⟩ := n'
  dsimp only at hsign hparts
  subst hsign
  cases fraction with
  | none =>
    cases fraction' with
    | none =>
      have hwhole : whole = whole' := by simpa [unsigned, pointed] using hunsigned
      subst hwhole
      rfl
    | some f' => cases hparts
  | some f =>
    cases fraction' with
    | none => cases hparts
    | some f' =>
      cases hparts
      rfl

theorem letter_not_mem_text (n : Numeral) : 'e'.toUInt8 ∉ n.text := not_mem_text (by decide) (by decide) (by decide)

end Numeral

namespace PowerNumeral

theorem cut_text (n : PowerNumeral) :
    n.text.cut 'e'.toUInt8 = some (n.mantissa.text, (if n.below then '-'.toUInt8 else '+'.toUInt8) :: n.exponent) :=
  Text.cut_eq_some.2 ⟨rfl, n.mantissa.letter_not_mem_text⟩

theorem ext_text {n n' : PowerNumeral} (h : n.text = n'.text) : n = n' := by
  have hcut := (n.cut_text.symm.trans (congrArg (Text.cut 'e'.toUInt8) h)).trans n'.cut_text
  obtain ⟨hmantissa, hpower⟩ := Prod.mk.inj (Option.some.inj hcut)
  obtain ⟨hsign, hexponent⟩ := List.cons.inj hpower
  have hbelow : n.below = n'.below := by
    revert hsign
    cases n.below <;> cases n'.below <;> decide
  replace hmantissa := Numeral.ext_text hmantissa
  obtain ⟨mantissa, below, exponent, _, _, _⟩ := n
  obtain ⟨mantissa', below', exponent', _, _, _⟩ := n'
  dsimp only at hmantissa hbelow hexponent
  subst hmantissa hbelow hexponent
  rfl

theorem text_ne_text (n : PowerNumeral) (k : Numeral) : n.text ≠ k.text := by
  intro h
  have hcut := n.cut_text
  rw [h, Text.cut_eq_none.2 k.letter_not_mem_text] at hcut
  cases hcut

theorem size_nonneg (n : PowerNumeral) : 0 ≤ n.size :=
  mul_nonneg n.mantissa.size_nonneg (zpow_nonneg (by norm_num) _)

theorem size_eq (n : PowerNumeral) :
    n.size = Decimal.value n.mantissa.digits * 10 ^ (n.power - n.mantissa.places) := by
  rw [size, Numeral.size_eq, mul_assoc, Double.zpow_mul_zpow]
  congr 2
  omega

theorem length_unsigned (n : PowerNumeral) : n.unsigned.length =
    n.mantissa.digits.length + (if n.mantissa.places = 0 then 0 else 1) + 2 + n.exponent.length := by
  rw [unsigned, List.length_append, Numeral.length_unsigned, powerText]
  simp only [List.length_cons]
  omega

theorem natAbs_power_lt (n : PowerNumeral) : n.power.natAbs < Nat.pow 10 n.exponent.length := by
  have habs : n.power.natAbs = Decimal.value n.exponent := by
    unfold power
    split <;> omega
  rw [habs]
  exact Decimal.value_lt n.exponent_digits.2

end PowerNumeral

/-! ### Reading -/

namespace Double

/-- Read in fixed notation, the text is a number with the sign of the double, and the double is nearest to it. -/
def ReadsFixed (d : Double) (t : Text) : Prop :=
  ∃ n : Numeral, n.text = t ∧ n.negative = d.isNegative ∧ d.IsNearest n.value

/-- The same in scientific notation. -/
def ReadsScientific (d : Double) (t : Text) : Prop :=
  ∃ n : PowerNumeral, n.text = t ∧ n.mantissa.negative = d.isNegative ∧ d.IsNearest n.value

/-- The double is what the text reads as. -/
def ReadsFrom (d : Double) (t : Text) : Prop := d.ReadsFixed t ∨ d.ReadsScientific t

/-- A number with a sign has one nearest double. -/
theorem IsNearest.unique {d d' : Double} {x : ℚ} (hx : 0 ≤ x) {negative : Bool} (hd : negative = d.isNegative)
    (hd' : negative = d'.isNegative) (h : d.IsNearest (signed negative x)) (h' : d'.IsNearest (signed negative x)) :
    d = d' := by
  obtain ⟨m, hm⟩ := exists_roundsTo hx
  have hmag := (isNearest_iff hx hm).1 (hd ▸ h)
  have hmag' := (isNearest_iff hx hm).1 (hd' ▸ h')
  rw [← ofMagnitude_magnitude d, ← ofMagnitude_magnitude d', hmag, hmag', ← hd, ← hd']

theorem ReadsFrom.unique {d d' : Double} {t : Text} (h : d.ReadsFrom t) (h' : d'.ReadsFrom t) : d = d' := by
  rcases h with ⟨n, hn, hsign, hnearest⟩ | ⟨n, hn, hsign, hnearest⟩ <;>
    rcases h' with ⟨n', hn', hsign', hnearest'⟩ | ⟨n', hn', hsign', hnearest'⟩
  · obtain rfl := Numeral.ext_text (hn.trans hn'.symm)
    exact hnearest.unique n.size_nonneg hsign hsign' hnearest'
  · exact absurd (hn'.trans hn.symm) (n'.text_ne_text n)
  · exact absurd (hn.trans hn'.symm) (n.text_ne_text n')
  · obtain rfl := PowerNumeral.ext_text (hn.trans hn'.symm)
    exact hnearest.unique n.size_nonneg hsign hsign' hnearest'

/-- For finite doubles, reading is rounding. -/
theorem isNearest_iff_roundsTo {d : Double} (hd : d.isFinite = true) {x : ℚ} (hx : 0 ≤ x) :
    d.IsNearest (signed d.isNegative x) ↔ RoundsTo x d.magnitude := by
  have hlt : d.magnitude < infinity := by simpa [isFinite] using hd
  constructor
  · intro h
    obtain ⟨m, hm⟩ := exists_roundsTo hx
    have hmag := (isNearest_iff hx hm).1 h
    have heq : d.magnitude = m := by omega
    rwa [heq]
  · intro h
    exact (isNearest_iff hx h).2 (Nat.min_eq_left hlt.le).symm

end Double

end DocSearch
