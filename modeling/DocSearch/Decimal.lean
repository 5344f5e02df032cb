import DocSearch.Text

/-!
# Decimal numerals

Canonical decimal numerals of natural numbers and integers, the value of a string of digits, and the numeral
of a sum of two 64-bit words.  The key fact: a numeral has its number as value (`value_ofNat`).
-/

namespace DocSearch

namespace Decimal

/-- The digit of a number below ten. -/
def digit (n : Nat) : UInt8 := UInt8.ofNat (48 + n)

/-- The number that a digit stands for. -/
def digitValue (b : UInt8) : Nat := b.toNat - 48

/-- The numeral of `n`, without leading zeros. -/
def ofNat (n : Nat) : Text :=
  if n < 10 then [digit n] else ofNat (n / 10) ++ [digit (n % 10)]

/-- The numeral of `n`, with a minus sign in front if it is negative. -/
def ofInt : Int → Text
  | .ofNat n => ofNat n
  | .negSucc n => '-'.toUInt8 :: ofNat (n + 1)

/-- The number that a string of digits denotes, leading zeros allowed. -/
def value (s : Text) : Nat := s.foldl (fun n b => 10 * n + digitValue b) 0

/-! ### Sums of words -/

/-- Adds a carry to a string of digits, lowest digit first. -/
def addCarry : Text → Nat → Text
  | [], c => if c = 0 then [] else [digit c]
  | a :: as, c =>
    let d := digitValue a + c
    digit (d % 10) :: addCarry as (d / 10)

/-- Adds two strings of digits and a carry, lowest digit first. -/
def addLowFirst : Text → Text → Nat → Text
  | [], bs, c => addCarry bs c
  | a :: as, [], c => addCarry (a :: as) c
  | a :: as, b :: bs, c =>
    let d := digitValue a + digitValue b + c
    digit (d % 10) :: addLowFirst as bs (d / 10)

/-- The sum of two numerals, digit by digit. -/
def add (s t : Text) : Text := (addLowFirst s.reverse t.reverse 0).reverse

/-- The largest word. -/
def maxWord : UInt64 := 0xFFFFFFFFFFFFFFFF

/-- The numeral of `a + b`: the sum of the words where it is a word, else the sum of their numerals. -/
def sum (a b : UInt64) : Text :=
  if a ≤ maxWord - b then ofNat (a + b).toNat else add (ofNat a.toNat) (ofNat b.toNat)

/-! ### Values -/

theorem digitValue_digit {n : Nat} (h : n < 10) : digitValue (digit n) = n := by
  simp only [digitValue, digit, UInt8.toNat_ofNat']
  omega

theorem value_append_singleton (s : Text) (b : UInt8) : value (s ++ [b]) = 10 * value s + digitValue b := by
  simp [value, List.foldl_append]

theorem value_ofNat (n : Nat) : value (ofNat n) = n := by
  induction n using Nat.strongRecOn with
  | ind n ih =>
    unfold ofNat
    split
    · rename_i h
      simp [value, digitValue_digit h]
    · rw [value_append_singleton, ih (n / 10) (by omega), digitValue_digit (by omega)]
      omega

end Decimal

end DocSearch
