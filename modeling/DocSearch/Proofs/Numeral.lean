import DocSearch.Proofs.Text
import DocSearch.Value.Numeral

/-!
# Written numbers

A numeral is a sign, digits, and possibly a point with further digits.  What it denotes is said here by its
value: without a point the word of 64 bits with that value, with a point the nearest double.  The key fact:
reading the text of a numeral gives what it denotes and nothing else (`Numeral.ofNumeral?_text`).
-/

namespace DocSearch

/-- A nonempty string of digits. -/
def IsDigits (s : Text) : Prop := s ≠ [] ∧ ∀ b ∈ s, isDigit b = true

/-- A number as it is written. -/
structure Numeral where
  negative : Bool
  whole : Text
  /-- The digits after the point, if there is one. -/
  fraction : Option Text
  whole_digits : IsDigits whole
  fraction_digits : ∀ f ∈ fraction, IsDigits f

namespace Numeral

def sign (n : Numeral) : Text := if n.negative then [ '-'.toUInt8] else []

/-- The point and the digits after it. -/
def pointed (n : Numeral) : Text := n.fraction.elim [] fun f => '.'.toUInt8 :: f

/-- The numeral without its sign. -/
def unsigned (n : Numeral) : Text := n.whole ++ n.pointed

def text (n : Numeral) : Text := n.sign ++ n.unsigned

/-- The integer in front of the point. -/
def integer (n : Numeral) : Int := if n.negative then -Decimal.value n.whole else Decimal.value n.whole

/-- What a numeral stands for; a numeral out of range stands for nothing. -/
inductive Denotes (n : Numeral) : Scalar → Prop
  | integer {v : Int64} (hf : n.fraction = none) (hv : v.toInt = n.integer) : Denotes n (.int v)
  | decimal {f : Text} {d : Double} (hf : n.fraction = some f)
      (hd : Double.ofRatio? n.negative (Decimal.value (n.whole ++ f)) (Nat.pow 10 f.length) = some d) :
      Denotes n (.double d)

end Numeral

/-! ### Reading digits -/

theorem ne_of_isDigit {b c : UInt8} (hc : isDigit c = false) (hb : isDigit b = true) : b ≠ c := by
  rintro rfl
  rw [hc] at hb
  cases hb

theorem isDigits_singleton {b : UInt8} (hb : isDigit b = true) : IsDigits [b] :=
  ⟨List.cons_ne_nil _ _, fun _ hc => List.mem_singleton.1 hc ▸ hb⟩

theorem IsDigits.not_mem {s : Text} {c : UInt8} (h : IsDigits s) (hc : isDigit c = false) : c ∉ s :=
  fun hmem => ne_of_isDigit hc (h.2 _ hmem) rfl

theorem Decimal.word?_eq_some {digits : Text} {n : UInt64} :
    word? digits = some n ↔ n.toNat = value digits := by
  unfold word?
  constructor
  · intro h
    split at h
    · cases h
      exact UInt64.toNat_ofNat_of_lt ‹_›
    · cases h
  · intro h
    have hlt := n.toNat_lt_size
    rw [← h, if_pos hlt, UInt64.ofNat_toNat]

theorem Scalar.ofInteger?_eq_some {negative : Bool} {digits : Text} {s : Scalar} :
    ofInteger? negative digits = some s ↔
      ∃ v : Int64, v.toInt = (if negative then -(Decimal.value digits : Int) else Decimal.value digits) ∧
        s = .int v := by
  unfold ofInteger?
  dsimp only
  generalize (if negative then -(Decimal.value digits : Int) else Decimal.value digits) = n
  constructor
  · intro h
    split at h
    · rename_i hn
      cases h
      have hmax := Int64.toInt_maxValue
      exact ⟨_, Int64.toInt_ofInt_of_le hn.1 (by omega), rfl⟩
    · cases h
  · rintro ⟨v, rfl, rfl⟩
    rw [if_pos ⟨v.le_toInt, v.toInt_le⟩, Int64.ofInt_toInt]

/-! ### Reading numerals -/

namespace Numeral

/-- A numeral starts with a digit after its sign. -/
theorem unsigned_eq_cons (n : Numeral) : ∃ b s, n.unsigned = b :: s ∧ isDigit b = true := by
  obtain ⟨hne, hd⟩ := n.whole_digits
  cases hw : n.whole with
  | nil => exact absurd hw hne
  | cons b s => exact ⟨b, s ++ n.pointed, by simp [unsigned, hw], hd b (by simp [hw])⟩

theorem splitSign_text (n : Numeral) : splitSign n.text = (n.negative, n.unsigned) := by
  unfold text sign
  split
  · rename_i h
    simp [splitSign, h]
  · rename_i h
    obtain ⟨b, s, hu, hb⟩ := n.unsigned_eq_cons
    have hb' : b ≠ '-'.toUInt8 := ne_of_isDigit (by decide) hb
    simp only [List.nil_append, hu, splitSign, if_neg hb']
    simp [h]

/-- A numeral holds digits, a hyphen and a point only. -/
theorem not_mem_text {n : Numeral} {b : UInt8} (hdigit : isDigit b = false) (hsign : b ≠ '-'.toUInt8)
    (hpoint : b ≠ '.'.toUInt8) : b ∉ n.text := by
  have hsign' : b ∉ n.sign := by
    unfold sign
    split
    · exact fun hmem => hsign (List.mem_singleton.1 hmem)
    · exact List.not_mem_nil
  have hpointed : b ∉ n.pointed := by
    unfold pointed
    cases hf : n.fraction with
    | none => exact List.not_mem_nil
    | some f =>
      rw [Option.elim_some, List.mem_cons, not_or]
      exact ⟨hpoint, (n.fraction_digits f hf).not_mem hdigit⟩
  rw [text, unsigned, List.mem_append, List.mem_append, not_or, not_or]
  exact ⟨hsign', n.whole_digits.not_mem hdigit, hpointed⟩

theorem point_mem_text {n : Numeral} : '.'.toUInt8 ∈ n.text ↔ ∃ f, n.fraction = some f := by
  have hw : '.'.toUInt8 ∉ n.whole := n.whole_digits.not_mem (by decide)
  have hs : '.'.toUInt8 ∉ n.sign := by
    unfold sign
    split <;> decide
  simp only [text, unsigned, pointed, List.mem_append, hs, hw, false_or]
  cases n.fraction <;> simp

theorem ofNumeral?_text {n : Numeral} {s : Scalar} : Scalar.ofNumeral? n.text = some s ↔ n.Denotes s := by
  have hw : '.'.toUInt8 ∉ n.whole := n.whole_digits.not_mem (by decide)
  unfold Scalar.ofNumeral?
  rw [splitSign_text]
  dsimp only
  unfold unsigned pointed
  cases hf : n.fraction with
  | none =>
    rw [Option.elim_none, List.append_nil, Text.cut_eq_none.2 hw]
    dsimp only
    rw [Scalar.ofInteger?_eq_some]
    constructor
    · rintro ⟨v, hv, rfl⟩
      exact .integer hf hv
    · intro h
      cases h with
      | integer _ hv => exact ⟨_, hv, rfl⟩
      | decimal hf' _ => rw [hf] at hf'; cases hf'
  | some f =>
    rw [Option.elim_some, Text.cut_eq_some.2 ⟨rfl, hw⟩]
    dsimp only
    unfold Scalar.ofFraction?
    rw [Option.map_eq_some_iff]
    constructor
    · rintro ⟨d, hd, rfl⟩
      exact .decimal hf hd
    · intro h
      cases h with
      | integer hf' _ => rw [hf] at hf'; cases hf'
      | decimal hf' hd =>
        rw [hf] at hf'
        cases hf'
        exact ⟨_, hd, rfl⟩

end Numeral

end DocSearch
