import DocSearch.Value

/-!
# Numerals

The numbers that numerals denote: without a point an integer of 64 bits, with a point the nearest double.  A
numeral out of range denotes nothing.
-/

namespace DocSearch

/-- The word that a string of digits denotes, unless it is too large. -/
def Decimal.word? (digits : Text) : Option UInt64 :=
  if value digits < UInt64.size then some (UInt64.ofNat (value digits)) else none

/-- A numeral split into its minus sign and the digits after it. -/
def splitSign : Text → Bool × Text
  | [] => (false, [])
  | b :: s => if b = '-'.toUInt8 then (true, s) else (false, b :: s)

/-- The integer that a string of digits denotes behind the given sign, unless it exceeds 64 bits. -/
def Scalar.ofInteger? (negative : Bool) (digits : Text) : Option Scalar :=
  let n : Int := if negative then -Decimal.value digits else Decimal.value digits
  if Int64.minValue.toInt ≤ n ∧ n ≤ Int64.maxValue.toInt then some (.int (Int64.ofInt n)) else none

/-- The double that `whole.fraction` denotes behind the given sign, unless it is out of range. -/
def Scalar.ofFraction? (negative : Bool) (whole fraction : Text) : Option Scalar :=
  (Double.ofRatio? negative (Decimal.value (whole ++ fraction)) (Nat.pow 10 fraction.length)).map .double

/-- The value of a numeral. -/
def Scalar.ofNumeral? (s : Text) : Option Scalar :=
  match (splitSign s).2.cut '.'.toUInt8 with
  | none => ofInteger? (splitSign s).1 (splitSign s).2
  | some (whole, fraction) => ofFraction? (splitSign s).1 whole fraction

end DocSearch
