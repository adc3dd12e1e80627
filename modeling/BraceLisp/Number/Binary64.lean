/-!
# Doubles as integers

A finite double is a whole number of units of `2 ^ (-1074)`, the least positive double. Below the
sign bit the bit pattern of a double is itself a number, its *magnitude bits*, and the magnitude
bits grow with the value: they count the doubles from zero upwards. So rounding a quotient to the
nearest double is one division of naturals, made in the binade where the quotient lies, and
carrying into the next binade or into infinity is ordinary addition.
-/

namespace BraceLisp.Binary64

/-- The magnitude bits of infinity: one past those of the greatest finite double. -/
def infinity : Nat := 0x7FF0000000000000

/-- The sign bit. -/
def signBit : Nat := 0x8000000000000000

/-- The leading bit of a significand of full length, `2 ^ 52`. It is also the distance between the
magnitude bits of two neighbouring binades. -/
def leadingBit : Nat := 0x10000000000000

/-- The bits of a double without its sign. -/
def magnitude (x : Float) : Nat := x.toBits.toNat % signBit

/-- Whether the sign bit is set. Negative zero has it set. -/
def isNegative (x : Float) : Bool := decide (signBit ≤ x.toBits.toNat)

/-- The double with the given sign and magnitude bits. -/
def ofMagnitude (negative : Bool) (bits : Nat) : Float :=
  Float.ofBits (UInt64.ofNat (if negative then signBit + bits else bits))

/-- The significand of the double with magnitude bits `bits`. Below the first binade there is no
implicit leading one. -/
def significand (bits : Nat) : Nat :=
  if bits < leadingBit then bits else leadingBit + bits % leadingBit

/-- The binade of the double with magnitude bits `bits`: one unit of the significand is
`2 ^ binade bits` units of `2 ^ (-1074)`. -/
def binade (bits : Nat) : Nat := bits / leadingBit - 1

/-- The value of the double with magnitude bits `bits`, in units of `2 ^ (-1074)`. -/
def units (bits : Nat) : Nat := significand bits <<< binade bits

/-- The whole number nearest to `n / d`; of two that are equally near, the even one. -/
def roundHalfEven (n d : Nat) : Nat :=
  let q := n / d
  let r := n % d
  if 2 * r < d then q
  else if d < 2 * r then q + 1
  else q + q % 2

/-- The magnitude bits of the double nearest to `n / d` units of `2 ^ (-1074)`, ties going to the
even double. In the binade that holds the quotient, neighbouring doubles are `2 ^ s` units
apart and the significand has 53 bits; the sum carries a significand that was rounded up to
`2 ^ 53` into the next binade, and past the last binade into infinity. -/
def nearest (n d : Nat) : Nat :=
  let s := (n / d).log2 - 52
  min (s * leadingBit + roundHalfEven n (d <<< s)) infinity

end BraceLisp.Binary64
