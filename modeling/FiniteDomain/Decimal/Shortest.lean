import FiniteDomain.Decimal.Binary

/-!
# Shortest decimals

A double is written with the fewest digits that are read back as the same double, and of those with the
nearest; of two equally near, with the one farther from zero. `shortestText` writes no exponent: zeros fill up
to the point. `markedText` always shows a point or an exponent.
-/

namespace FiniteDomain.Decimal

/-- Some multiple `digits * 10 ^ exponent` of a power of ten. -/
structure Scaled where
  digits : Nat
  exponent : Int
deriving Repr, DecidableEq

namespace Interval

/-- The multiple lies in the interval. -/
def contains (v : Interval) (d : Scaled) : Bool :=
  let up := Nat.pow 10 d.exponent.toNat
  let down := Nat.pow 10 (-d.exponent).toNat
  let candidate := d.digits * up * v.denominator
  if v.closed then v.low * down ≤ candidate && candidate ≤ v.high * down
  else v.low * down < candidate && candidate < v.high * down

/-- The greatest multiple of `10 ^ exponent` that is at most the value. -/
def floorAt (v : Interval) (exponent : Int) : Nat :=
  v.value * Nat.pow 10 (-exponent).toNat / (v.denominator * Nat.pow 10 exponent.toNat)

/-- The value is at least as near to the multiple of `10 ^ exponent` above it as to the one below. -/
def nearerAbove (v : Interval) (exponent : Int) : Bool :=
  let numerator := v.value * Nat.pow 10 (-exponent).toNat
  let denominator := v.denominator * Nat.pow 10 exponent.toNat
  denominator ≤ 2 * (numerator % denominator)

/-- The same number, without a last digit zero. -/
def trim (d : Scaled) : Scaled :=
  if d.digits % 10 = 0 then ⟨d.digits / 10, d.exponent + 1⟩ else d

/-- The multiple of `10 ^ exponent` that stands for the value, if one of its two neighbours does. -/
def onGrid? (v : Interval) (exponent : Int) : Option Scaled :=
  let below : Scaled := ⟨v.floorAt exponent, exponent⟩
  let above : Scaled := ⟨v.floorAt exponent + 1, exponent⟩
  match v.contains below, v.contains above with
  | true, true => some (if v.nearerAbove exponent then above else below)
  | true, false => some below
  | false, true => some above
  | false, false => none

/-- The number of decimal digits. -/
def digitCount (n : Nat) : Nat := (Nat.toDigits 10 n).length

/-- The power of ten of the first digit of the value. -/
def firstPower (v : Interval) : Int :=
  if v.denominator ≤ v.value then digitCount (v.value / v.denominator) - 1
  else
    let places : Nat := digitCount (v.denominator / v.value)
    if v.denominator ≤ v.value * Nat.pow 10 (places - 1) then 1 - (places : Int) else -(places : Int)

/-- Tries grids of ever more digits. -/
def search (v : Interval) (exponent : Int) : Nat → Option Scaled
  | 0 => none
  | n + 1 =>
    match v.onGrid? exponent with
    | some d => some (trim d)
    | none => search v (exponent - 1) n

/-- Seventeen digits are always enough. -/
def shortest (v : Interval) : Scaled :=
  (v.search v.firstPower 17).getD ⟨v.floorAt (v.firstPower - 16), v.firstPower - 16⟩

end Interval

/-- The digits without an exponent. -/
def Scaled.text (d : Scaled) : String :=
  let digits := Nat.toDigits 10 d.digits
  if 0 ≤ d.exponent then String.ofList (digits ++ List.replicate d.exponent.toNat '0')
  else
    let places := (-d.exponent).toNat
    let padded := List.replicate (places + 1 - digits.length) '0' ++ digits
    let whole := padded.length - places
    String.ofList (padded.take whole ++ '.' :: padded.drop whole)

/-- The shortest decimal that is read back as the double. -/
def shortestText (x : Float) : String :=
  let (negative, magnitude) := decode x.toBits
  let sign := if negative then "-" else ""
  match magnitude with
  | .undefined => "NaN"
  | .infinite => sign ++ "inf"
  | .zero => sign ++ "0"
  | .finite mantissa exponent narrow => sign ++ (Interval.of mantissa exponent narrow).shortest.text

/-- The digits with a point after the first and an exponent. -/
def Scaled.scientificText (d : Scaled) : String :=
  let digits := Nat.toDigits 10 d.digits
  let exponent := d.exponent + (digits.length : Int) - 1
  let point := if digits.length = 1 then "" else "."
  let first := String.ofList (digits.take 1)
  let rest := String.ofList (digits.drop 1)
  s!"{first}{point}{rest}e{exponent}"

/-- The least and the greatest power of ten of a first digit that is written without an exponent. -/
def positionalPowers : Int × Int := (-4, 15)

/-- The shortest decimal that is read back as the double, with a point or an exponent in it. -/
def markedText (x : Float) : String :=
  let (negative, magnitude) := decode x.toBits
  let sign := if negative then "-" else ""
  match magnitude with
  | .undefined => "NaN"
  | .infinite => sign ++ "inf"
  | .zero => sign ++ "0.0"
  | .finite mantissa exponent narrow =>
    let d := (Interval.of mantissa exponent narrow).shortest
    let power := d.exponent + ((Nat.toDigits 10 d.digits).length : Int) - 1
    if power < positionalPowers.1 || positionalPowers.2 < power then sign ++ d.scientificText
    else sign ++ d.text ++ (if 0 ≤ d.exponent then ".0" else "")

end FiniteDomain.Decimal
