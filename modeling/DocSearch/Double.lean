import DocSearch.Text

/-!
# Doubles

A double is given by its 64 bits: a sign, eleven bits of exponent and 52 bits of fraction.  All finite
magnitudes are whole multiples of the least positive double, `2 ^ (-1074)`, so a magnitude is kept as its bits
below the sign (`magnitude`) and measured in these units (`units`).
-/

namespace DocSearch

/-- A double-precision number, given by its bits. -/
structure Double where
  bits : UInt64
  deriving DecidableEq

namespace Double

/-- The bits of the positive infinity: every smaller magnitude is finite. -/
def infinity : Nat := 0x7FF0000000000000

/-- The sign of a negative number. -/
def signBit : Nat := 0x8000000000000000

/-- The leading place of a normal significand, `2 ^ 52`; magnitudes below it are subnormal. -/
def leadingBit : Nat := 0x10000000000000

/-- The number of units of `2 ^ (-1074)` in the number one. -/
def one : Nat := Nat.pow 2 1074

def isNegative (d : Double) : Bool := signBit ≤ d.bits.toNat

/-- The bits below the sign. -/
def magnitude (d : Double) : Nat := d.bits.toNat % signBit

def isFinite (d : Double) : Bool := d.magnitude < infinity

def isNaN (d : Double) : Bool := infinity < d.magnitude

/-- The double with the given sign and the given bits below it. -/
def ofMagnitude (negative : Bool) (m : Nat) : Double :=
  ⟨UInt64.ofNat ((if negative then signBit else 0) + m)⟩

/-- How far the last place of a magnitude lies above the unit: subnormal magnitudes are on the finest grid. -/
def scale (m : Nat) : Nat := m / leadingBit - 1

/-- The whole number of places of a magnitude: its fraction, with the leading one of a normal magnitude. -/
def significand (m : Nat) : Nat := m - leadingBit * scale m

/-- A finite magnitude as a multiple of `2 ^ (-1074)`. -/
def units (m : Nat) : Nat := significand m * Nat.pow 2 (scale m)

end Double

end DocSearch
