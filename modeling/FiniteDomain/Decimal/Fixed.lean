import FiniteDomain.Decimal.Binary

/-!
# Decimals with a fixed number of places

The exact value of a double is rounded to the given number of places, a half to the even neighbour.
-/

namespace FiniteDomain.Decimal

/-- A number of thousandths, tenths and so on, written with that many places. -/
def placesText (n places : Nat) : String :=
  let fraction := Nat.toDigits 10 (n % Nat.pow 10 places)
  let zeros := List.replicate (places - fraction.length) '0'
  s!"{n / Nat.pow 10 places}." ++ String.ofList (zeros ++ fraction)

/-- A finite double with the given number of places, its sign left out. -/
def fixedText (x : Float) (places : Nat) : String :=
  match (decode x.toBits).2 with
  | .finite mantissa exponent _ =>
    let numerator := mantissa * Nat.pow 2 exponent.toNat * Nat.pow 10 places
    placesText (roundQuotient numerator (Nat.pow 2 (-exponent).toNat)) places
  | _ => placesText 0 places

end FiniteDomain.Decimal
