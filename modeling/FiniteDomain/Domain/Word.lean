/-!
# Sets of small numbers as words

A set of numbers is a row of words of 64 bits: number `i` is bit `i % 64` of word `i / 64`. The scans look for
the next and the previous number of the set, and count, within limits; bits outside the limits do not matter.
-/

namespace FiniteDomain

namespace Word

/-- The number of bits of a word. -/
def width : Nat := 64

/-- Bit `i` is set. -/
def bit (w : UInt64) (i : Nat) : Bool := (w >>> UInt64.ofNat i) &&& 1 != 0

/-- The word with bit `i` set. -/
def insert (w : UInt64) (i : Nat) : UInt64 := w ||| (1 <<< UInt64.ofNat i)

/-- The word with bit `i` cleared. -/
def erase (w : UInt64) (i : Nat) : UInt64 := w &&& ~~~(1 <<< UInt64.ofNat i)

/-- The least set bit at `i` or above. -/
def next? (w : UInt64) (i : Nat) : Option Nat :=
  if i < width then
    if bit w i then some i else next? w (i + 1)
  else none
termination_by width - i

/-- The greatest set bit at `i` or below. -/
def previous? (w : UInt64) : Nat → Option Nat
  | 0 => if bit w 0 then some 0 else none
  | i + 1 => if bit w (i + 1) then some (i + 1) else previous? w i

/-- The number of set bits among `n` bits from `i` on. -/
def count (w : UInt64) (i : Nat) : Nat → Nat
  | 0 => 0
  | n + 1 => (if bit w i then 1 else 0) + count w (i + 1) n

end Word

namespace Words

/-- Number `i` is in the set. -/
def has (words : Nat → UInt64) (i : Nat) : Bool := Word.bit (words (i / Word.width)) (i % Word.width)

/-- The least number of the set from `start` to `limit`. -/
def next? (words : Nat → UInt64) (start limit : Nat) : Option Nat :=
  if start ≤ limit then
    let base := start / Word.width * Word.width
    match Word.next? (words (start / Word.width)) (start % Word.width) with
    | some i => if base + i ≤ limit then some (base + i) else none
    | none => next? words (base + Word.width) limit
  else none
termination_by limit + 1 - start
decreasing_by simp only [Word.width]; omega

/-- The greatest number of the set from `start` down to `limit`. -/
def previous? (words : Nat → UInt64) (start limit : Nat) : Option Nat :=
  if limit ≤ start then
    let base := start / Word.width * Word.width
    match Word.previous? (words (start / Word.width)) (start % Word.width) with
    | some i => if limit ≤ base + i then some (base + i) else none
    | none => if start < Word.width then none else previous? words (base - 1) limit
  else none
termination_by start
decreasing_by simp only [Word.width] at *; omega

/-- The number of members from `start` to `limit`. -/
def count (words : Nat → UInt64) (start limit : Nat) : Nat :=
  if start ≤ limit then
    let stop := min limit (start / Word.width * Word.width + (Word.width - 1))
    Word.count (words (start / Word.width)) (start % Word.width) (stop + 1 - start) +
      count words (stop + 1) limit
  else 0
termination_by limit + 1 - start
decreasing_by simp only [Word.width]; omega

end Words

end FiniteDomain
