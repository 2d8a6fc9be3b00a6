/-!
# Doubles as fractions

A positive double is a mantissa times a power of two. As a fraction it has the same denominator as the two
ends of the interval of the reals that are rounded to it.
-/

namespace FiniteDomain.Decimal

/-- What a double is, apart from its sign. -/
inductive Magnitude where
  | zero
  /-- `mantissa * 2 ^ exponent`; the double below is half as far as the one above if `narrow`. -/
  | finite (mantissa : Nat) (exponent : Int) (narrow : Bool)
  | infinite
  | undefined
deriving Repr, DecidableEq

/-- The sign and the magnitude that 64 bits encode. -/
def decode (bits : UInt64) : Bool × Magnitude :=
  let n := bits.toNat
  let fraction := n % Nat.pow 2 52
  let exponent : Nat := n / Nat.pow 2 52 % Nat.pow 2 11
  let magnitude : Magnitude :=
    if exponent = 2047 then if fraction = 0 then .infinite else .undefined
    else if exponent = 0 then
      if fraction = 0 then .zero else .finite fraction (-1074) false
    else .finite (Nat.pow 2 52 + fraction) ((exponent : Int) - 1075) (fraction = 0 && exponent ≠ 1)
  (n / Nat.pow 2 63 = 1, magnitude)

/-- A value and the ends of its interval over one denominator. The ends belong to the interval if `closed`. -/
structure Interval where
  low : Nat
  value : Nat
  high : Nat
  denominator : Nat
  closed : Bool
deriving Repr, DecidableEq

/-- The interval of the reals that are rounded to `mantissa * 2 ^ exponent`. -/
def Interval.of (mantissa : Nat) (exponent : Int) (narrow : Bool) : Interval :=
  let scale := Nat.pow 2 (exponent - 2).toNat
  { low := (4 * mantissa - if narrow then 1 else 2) * scale
    value := 4 * mantissa * scale
    high := (4 * mantissa + 2) * scale
    denominator := Nat.pow 2 (2 - exponent).toNat
    closed := mantissa % 2 = 0 }

/-- The quotient rounded to the nearest integer, a half to the even one. -/
def roundQuotient (numerator denominator : Nat) : Nat :=
  let q := numerator / denominator
  let r := numerator % denominator
  if 2 * r < denominator then q
  else if denominator < 2 * r then q + 1
  else if q % 2 = 0 then q else q + 1

end FiniteDomain.Decimal
