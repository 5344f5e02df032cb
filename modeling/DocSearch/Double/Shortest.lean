import DocSearch.Decimal
import DocSearch.Double.Nearest

/-!
# Shortest numerals of doubles

A finite double is written with the fewest digits that read back as the same double, and of those digits with
the ones nearest to it.  They are found by trying, for 1, 2, … 17 digits, the two neighbours of the value on
the grid of decimals with so many digits.  The notation is positional unless the scientific one is shorter; a
whole number in positional notation shows its exact digits.
-/

namespace DocSearch

namespace Double

/-! ### Digits -/

/-- The decimal `digits * 10 ^ exponent`. -/
structure Scientific where
  digits : Nat
  exponent : Int
  deriving DecidableEq

namespace Scientific

/-- Numerator and denominator. -/
def ratio (x : Scientific) : Nat × Nat :=
  if x.exponent < 0 then (x.digits, Nat.pow 10 x.exponent.natAbs)
  else (x.digits * Nat.pow 10 x.exponent.natAbs, 1)

/-- Whether the decimal reads as the magnitude `m`. -/
def readsAs (x : Scientific) (m : Nat) : Bool :=
  let (num, den) := x.ratio
  nearest num den == m

/-- The distance from the decimal to the magnitude `m`, in units, as a numerator over the decimal's
denominator. -/
def distance (x : Scientific) (m : Nat) : Nat :=
  let (num, den) := x.ratio
  ((num * one : Int) - (units m * den : Int)).natAbs

end Scientific

/-- The exponent of the first digit of a positive magnitude: the largest `e` such that `10 ^ e` is not above
it.  Below one, `10 ^ (-n)` is not above it as soon as `10 ^ n` exceeds `(one - 1) / units m`. -/
def decimalExponent (m : Nat) : Int :=
  let u := units m
  if one ≤ u then (Decimal.ofNat (u / one)).length - 1 else - ((Decimal.ofNat ((one - 1) / u)).length : Int)

/-- The largest whole number of `10 ^ e` that is not above the magnitude `m`. -/
def floorOn (m : Nat) (e : Int) : Nat :=
  if e < 0 then units m * Nat.pow 10 e.natAbs / one else units m / (one * Nat.pow 10 e.natAbs)

/-- Of the two neighbours of the magnitude `m` on the grid of `10 ^ e` those that read back, and of two the
nearer one, a tie going to the even one. -/
def onGrid? (m : Nat) (e : Int) : Option Scientific :=
  let below : Scientific := ⟨floorOn m e, e⟩
  let above : Scientific := ⟨floorOn m e + 1, e⟩
  match below.readsAs m, above.readsAs m with
  | false, false => none
  | true, false => some below
  | false, true => some above
  | true, true =>
    let d := below.distance m
    let d' := above.distance m
    if d < d' || (d == d' && below.digits % 2 == 0) then some below else some above

/-- The decimal with the fewest digits, the first one at `10 ^ e`, that reads as the magnitude `m`; its exact
expansion if 17 digits are too few. -/
def shortestFrom (m : Nat) (e : Int) : Scientific :=
  match (List.range 17).findSome? fun n : Nat => onGrid? m (e - n) with
  | some x => x
  | none => ⟨units m * Nat.pow 5 1074, -1074⟩

/-- The given decimal without trailing zeros. -/
def stripZeros (digits : Nat) (e : Int) : Scientific :=
  if h : 0 < digits ∧ digits % 10 = 0 then stripZeros (digits / 10) (e + 1) else ⟨digits, e⟩
termination_by digits
decreasing_by omega

/-- The shortest decimal that reads as the positive magnitude `m`. -/
def shortest (m : Nat) : Scientific :=
  let x := shortestFrom m (decimalExponent m)
  stripZeros x.digits x.exponent

/-! ### Notation -/

/-- Positional notation of the magnitude `m`, whose shortest decimal is `x`. -/
def positional (m : Nat) (x : Scientific) : Text :=
  if 0 ≤ x.exponent then Decimal.ofNat (units m / one)
  else
    let digits := Decimal.ofNat x.digits
    let places := x.exponent.natAbs
    if places < digits.length then
      digits.take (digits.length - places) ++ '.'.toUInt8 :: digits.drop (digits.length - places)
    else ascii "0." ++ List.replicate (places - digits.length) '0'.toUInt8 ++ digits

/-- An exponent with its sign and at least two digits. -/
def exponentPart (e : Int) : Text :=
  let digits := Decimal.ofNat e.natAbs
  (if e < 0 then '-'.toUInt8 else '+'.toUInt8) ::
    (if digits.length < 2 then '0'.toUInt8 :: digits else digits)

/-- Scientific notation: one digit in front of the point. -/
def scientific (x : Scientific) : Text :=
  let digits := Decimal.ofNat x.digits
  let e := x.exponent + (digits.length - 1 : Nat)
  digits.take 1 ++ (if digits.length = 1 then [] else '.'.toUInt8 :: digits.drop 1) ++
    'e'.toUInt8 :: exponentPart e

/-- The shorter of the two notations, positional if they are equally long. -/
def numeral (m : Nat) : Text :=
  let x := shortest m
  let p := positional m x
  let s := scientific x
  if p.length ≤ s.length then p else s

/-- The text of a double: its numeral, or the name of an infinity or of not-a-number. -/
def lexical (d : Double) : Text :=
  if d.isNaN then ascii "NaN"
  else
    (if d.isNegative then [ '-'.toUInt8] else []) ++
      (if d.isFinite then if d.magnitude = 0 then ascii "0" else numeral d.magnitude else ascii "INF")

end Double

end DocSearch
