/-!
# Random draws

A source of draws answers with a number to each seed and each count of earlier draws. What a search may rely
on holds for every source.
-/

namespace FiniteDomain

/-- For a seed and a place in its sequence, a number. -/
abbrev Source := Nat → Nat → Nat

namespace Source

/-- Mixes the bits of a word. -/
def scramble (w : UInt64) : UInt64 :=
  let w := (w ^^^ (w >>> 30)) * 0xbf58476d1ce4e5b9
  let w := (w ^^^ (w >>> 27)) * 0x94d049bb133111eb
  w ^^^ (w >>> 31)

/-- The mixed bits of words that step from the seed by a fixed odd number. -/
def mixed : Source := fun seed place =>
  (scramble (UInt64.ofNat seed + UInt64.ofNat (place + 1) * 0x9e3779b97f4a7c15)).toNat

end Source

/-- A place in the sequence of a seed. -/
structure Draws where
  source : Source := .mixed
  seed : Nat
  taken : Nat := 0

namespace Draws

/-- The next number below `n`, which must be positive. -/
def below (d : Draws) (n : Nat) : Nat × Draws :=
  (d.source d.seed d.taken % n, { d with taken := d.taken + 1 })

/-- The start of the sequence of another seed. -/
def reseed (d : Draws) (seed : Nat) : Draws := { d with seed, taken := 0 }

end Draws

end FiniteDomain
