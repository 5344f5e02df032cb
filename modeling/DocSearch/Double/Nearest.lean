import DocSearch.Double

/-!
# The nearest double

Ratios of natural numbers are rounded to doubles exactly, ties to the even neighbour.  A decimal literal is
out of range if its magnitude rounds past the largest finite double, or if it is below the normal magnitudes
and loses places on the grid of the subnormal ones.
-/

namespace DocSearch

namespace Double

/-- The whole number nearest to `num / den`, a tie going to the even one. -/
def roundHalfEven (num den : Nat) : Nat :=
  let floor := num / den
  let twice := 2 * (num % den)
  if twice < den || (twice == den && floor % 2 == 0) then floor else floor + 1

/-- The grid on which `num / den` is rounded: 53 places from the leading one, but none below the unit. -/
def gridScale (num den : Nat) : Nat := Nat.log2 (num * one / den) - 52

/-- The magnitude nearest to `num / den`, a tie going to the even one; `infinity` or more if it is too large.
A significand that rounds up to the next power of two carries into the exponent. -/
def nearest (num den : Nat) : Nat :=
  let s := gridScale num den
  leadingBit * s + roundHalfEven (num * one) (den * Nat.pow 2 s)

/-- Whether `num / den` stays below the least normal magnitude `2 ^ 52` when rounded to 53 places with no
bound on the exponent.  The places below it are half units, so what rounds up to it starts a quarter of a unit
below it. -/
def isTiny (num den : Nat) : Bool := 4 * (num * one) + den < 4 * leadingBit * den

/-- Whether rounding `num / den` to a whole number of units counts as a loss.  Any remainder is a loss, except
that from `2 ^ 51` units on exactly a quarter of a unit is none: there it is half of the last of 53 places and
nothing follows it. -/
def isLossy (num den : Nat) : Bool :=
  let remainder := num * one % den
  remainder != 0 && (4 * remainder != den || 2 * (num * one) < leadingBit * den)

/-- The double that a decimal with the given sign and magnitude `num / den` denotes, if that is in range. -/
def ofRatio? (negative : Bool) (num den : Nat) : Option Double :=
  let m := nearest num den
  if infinity ≤ m || (isTiny num den && isLossy num den) then none else some (ofMagnitude negative m)

end Double

end DocSearch
