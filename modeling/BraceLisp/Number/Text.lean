import BraceLisp.Number.Decimal

/-!
# The text of a number

A double is written with the fewest decimal digits that read back as the same double, nearest to
it among those, and always positionally: no exponent, and no point behind a whole number.

A double with `k` binary places has at most `k` decimal places, because
`2 ^ (-k) = 5 ^ k * 10 ^ (-k)`. So it is a whole number of units of `10 ^ (-k)`, and the search for
short digits, the test that they read back and the layout of the text are exact arithmetic on
naturals in that unit.
-/

namespace BraceLisp.Number

/-- How many binary places the double with these magnitude bits has at most. -/
def placesOf (bits : Nat) : Nat := 1074 - Binary64.binade bits

/-- The value of the double with these magnitude bits, in units of its last decimal place. -/
def exact (bits : Nat) : Nat :=
  (Binary64.significand bits * Nat.pow 5 (placesOf bits)) <<< (Binary64.binade bits - 1074)

/-- Whether `value` units of `10 ^ (-places)` are read as the double with these magnitude bits. -/
def ReadsBack (bits places value : Nat) : Prop :=
  Decimal.magnitude ⟨false, value, -(places : Int)⟩ = bits

instance (bits places value : Nat) : Decidable (ReadsBack bits places value) :=
  inferInstanceAs (Decidable (_ = _))

/-- The multiple of `step` nearest to the double that reads back, if one of the two around it
does; the greater one when both do and are equally near. -/
def onGrid? (bits step : Nat) : Option Nat :=
  let places := placesOf bits
  let value := exact bits
  let low := value / step * step
  let high := low + step
  if ReadsBack bits places low then
    if ReadsBack bits places high ∧ high - value ≤ value - low then some high else some low
  else if ReadsBack bits places high then some high
  else none

/-- The decimal with the fewest digits that reads back, in units of the double's last decimal
place. Grids of one to seventeen significant digits are tried, then the exact value. -/
def shortest (bits : Nat) : Nat :=
  let length := (Nat.toDigits 10 (exact bits)).length
  ((List.range 17).findSome? fun n => onGrid? bits (Nat.pow 10 (length - (n + 1)))).getD (exact bits)

/-- The digits behind the point of `value` units of `10 ^ (-places)`, which is below one, without
zeros at the end. -/
def fractionDigits (places value : Nat) : List Char :=
  let digits := Nat.toDigits 10 value
  let padded := List.replicate (places - digits.length) '0' ++ digits
  (padded.reverse.dropWhile (· = '0')).reverse

/-- `value` units of `10 ^ (-places)`, written positionally. -/
def positional (places value : Nat) : List Char :=
  let one := Nat.pow 10 places
  let whole := Nat.toDigits 10 (value / one)
  match fractionDigits places (value % one) with
  | [] => whole
  | fraction => whole ++ '.' :: fraction

/-- The text of the absolute value with these magnitude bits, which must not be those of a NaN. -/
def unsigned (bits : Nat) : List Char :=
  if bits = Binary64.infinity then ['i', 'n', 'f'] else positional (placesOf bits) (shortest bits)

/-- The text of a number. A NaN has no sign; negative zero and negative infinity have one. -/
def chars (x : Float) : List Char :=
  let bits := Binary64.magnitude x
  if Binary64.infinity < bits then ['N', 'a', 'N']
  else if Binary64.isNegative x then '-' :: unsigned bits
  else unsigned bits

/-- The text of a number as a string. -/
def text (x : Float) : String := String.ofList (chars x)

end BraceLisp.Number
