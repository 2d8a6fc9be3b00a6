/-!
# Ranges of code points

A set of characters as the closed ranges of its code points, ascending and apart. As they ascend, the first range
that does not end before a character tells whether it is in the set.
-/

namespace FiniteDomain.Text

/-- Each range, a first and a last code point, holds one, and there is a gap before the next range. -/
def ascending : List (Nat × Nat) → Bool
  | [] => true
  | [r] => r.1 ≤ r.2
  | r :: s :: rest => r.1 ≤ r.2 && r.2 + 1 < s.1 && ascending (s :: rest)

/-- The first and the last code point of each range. -/
structure CodeRanges where
  ranges : List (Nat × Nat)
  ascends : ascending ranges = true

variable {r s : Nat × Nat} {rest : List (Nat × Nat)}

theorem ascending_of_cons (h : ascending (r :: rest) = true) : ascending rest = true := by
  cases rest with
  | nil => rfl
  | cons s rest =>
    simp only [ascending, Bool.and_eq_true] at h
    exact h.2

theorem le_of_ascending (h : ascending (r :: rest) = true) : r.1 ≤ r.2 := by
  cases rest <;> simp_all [ascending]

/-- A range ends before all later ones begin. -/
theorem lt_of_ascending (h : ascending (r :: rest) = true) (hs : s ∈ rest) : r.2 < s.1 := by
  induction rest generalizing r with
  | nil => cases hs
  | cons t rest ih =>
    have htail := ascending_of_cons h
    simp only [ascending, Bool.and_eq_true, decide_eq_true_eq] at h
    rcases List.mem_cons.mp hs with rfl | hs
    · omega
    · have := le_of_ascending htail
      have := ih htail hs
      omega

namespace CodeRanges

/-- The character stands in one of the ranges. -/
def covers (t : CodeRanges) (c : Char) : Bool :=
  (t.ranges.find? fun r => c.toNat ≤ r.2).any fun r => r.1 ≤ c.toNat

theorem covers_iff {t : CodeRanges} {c : Char} :
    t.covers c = true ↔ ∃ r ∈ t.ranges, r.1 ≤ c.toNat ∧ c.toNat ≤ r.2 := by
  obtain ⟨ranges, ascends⟩ := t
  rw [covers]
  induction ranges with
  | nil => simp
  | cons r rest ih =>
    by_cases hr : c.toNat ≤ r.2
    · rw [List.find?_cons_of_pos (by simpa using hr), Option.any_some, decide_eq_true_eq]
      constructor
      · exact fun h => ⟨r, List.mem_cons_self, h, hr⟩
      · rintro ⟨s, hs, h1, -⟩
        rcases List.mem_cons.mp hs with rfl | hs
        · exact h1
        · -- a later range begins behind the character
          have := lt_of_ascending ascends hs
          omega
    · rw [List.find?_cons_of_neg (by simpa using hr), ih (ascending_of_cons ascends)]
      simp [hr]

end CodeRanges

end FiniteDomain.Text
