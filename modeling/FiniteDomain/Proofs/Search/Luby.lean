import FiniteDomain.Fault
import FiniteDomain.Proofs.Search.Patience

/-!
# The Luby sequence

The sequence is given by its law: at the places just below the powers of two it takes the powers of two, each for the
first time, and what stands between two such places is the beginning of the sequence once more. So each power of two is
half as frequent as the one before.

* `Luby.block_induction`: from the last places of blocks and the repeated places to all places;
* `Luby.Law`, `Luby.term_law`, `Luby.Law.eq_term`: the law, which the terms obey and no others;
* `Luby.Machine.term`, `Luby.Law.machine_term`: the loop by which a machine of 64 bits finds a term, and that it does;
* `Luby.Law.occurrences_pow`: how often a power of two is among the first terms.
-/

namespace FiniteDomain

namespace Luby

/-- The law of the sequence, whose places are counted from one. -/
structure Law (L : Nat → Nat) : Prop where
  /-- The last place of a block has a power of two. -/
  full : ∀ k, 1 ≤ k → L (Nat.pow 2 k - 1) = Nat.pow 2 (k - 1)
  /-- Up to there, a block repeats what was before it. -/
  again : ∀ k i, Nat.pow 2 (k - 1) ≤ i → i < Nat.pow 2 k - 1 → L i = L (i - Nat.pow 2 (k - 1) + 1)

/-! ### Blocks -/

theorem pow_two_pos (k : Nat) : 0 < Nat.pow 2 k := Nat.pow_pos (by decide)

theorem pow_two_double {k : Nat} (hk : 1 ≤ k) : Nat.pow 2 k = 2 * Nat.pow 2 (k - 1) := by
  obtain ⟨k, rfl⟩ := Nat.exists_eq_add_of_le' hk
  exact Nat.mul_comm _ _

theorem pow_two_exponentFrom_le {i k : Nat} (h : Nat.pow 2 (k - 1) ≤ i) : Nat.pow 2 (exponentFrom i k - 1) ≤ i := by
  fun_induction exponentFrom i k with
  | case1 => exact h
  | case2 k hge ih => exact ih (Nat.le_of_not_lt hge)

/-- Every place is in a block. -/
theorem exists_block {i : Nat} (hi : 1 ≤ i) : ∃ k, 1 ≤ k ∧ Nat.pow 2 (k - 1) ≤ i ∧ i < Nat.pow 2 k :=
  ⟨exponentFrom i 1, exponentFrom_le i 1, pow_two_exponentFrom_le hi, lt_two_pow_exponentFrom i 1⟩

theorem one_le_exponent {i k : Nat} (hhigh : i < Nat.pow 2 k - 1) : 1 ≤ k := Nat.pos_of_ne_zero fun h => by
  rw [h] at hhigh
  exact Nat.not_lt_zero i hhigh

/-- A block repeats places of the blocks before it. -/
theorem again_lt {i k : Nat} (hlow : Nat.pow 2 (k - 1) ≤ i) (hhigh : i < Nat.pow 2 k - 1) :
    i - Nat.pow 2 (k - 1) + 1 < Nat.pow 2 (k - 1) := by
  have hdouble := pow_two_double (one_le_exponent hhigh)
  omega

/-- What holds at the last places of blocks, and at a place if it does at the one repeated there, holds at all places. -/
theorem block_induction {P : Nat → Prop} (full : ∀ k, 1 ≤ k → P (Nat.pow 2 k - 1))
    (again : ∀ k i, Nat.pow 2 (k - 1) ≤ i → i < Nat.pow 2 k - 1 → P (i - Nat.pow 2 (k - 1) + 1) → P i) {i : Nat}
    (hi : 1 ≤ i) : P i := by
  induction i using Nat.strongRecOn with
  | ind i ih =>
    obtain ⟨k, hk, hlow, hhigh⟩ := exists_block hi
    by_cases hlast : i = Nat.pow 2 k - 1
    · rw [hlast]
      exact full k hk
    · have hhigh : i < Nat.pow 2 k - 1 := by omega
      have hlt := again_lt hlow hhigh
      exact again k i hlow hhigh (ih _ (by omega) (by omega))

/-! ### The terms obey the law -/

theorem term_again {i k : Nat} (hlow : Nat.pow 2 (k - 1) ≤ i) (hhigh : i < Nat.pow 2 k - 1) :
    term i = term (i - Nat.pow 2 (k - 1) + 1) := by
  have hlt := again_lt hlow hhigh
  have hexponent : exponentFrom i 1 = k := exponentFrom_eq (one_le_exponent hhigh) hlow (by omega)
  rw [term]
  simp only [hexponent]
  rw [if_neg (by omega), if_pos (by omega)]
  congr 1
  omega

theorem term_law : Law term where
  full k hk := by
    obtain ⟨j, rfl⟩ := Nat.exists_eq_add_of_le' hk
    exact term_full j
  again _ _ := term_again

/-- Only one sequence obeys the law. -/
theorem Law.eq_term {L : Nat → Nat} (h : Law L) {i : Nat} (hi : 1 ≤ i) : L i = term i := by
  refine block_induction (P := fun i => L i = term i) (fun k hk => ?_) (fun k i hlow hhigh ih => ?_) hi
  · rw [h.full k hk, term_law.full k hk]
  · rw [h.again k i hlow hhigh, term_again hlow hhigh, ih]

theorem Law.pos {L : Nat → Nat} (h : Law L) {i : Nat} (hi : 1 ≤ i) : 0 < L i := by
  refine block_induction (P := fun i => 0 < L i) (fun k hk => ?_) (fun k i hlow hhigh ih => ?_) hi
  · rw [h.full k hk]
    exact pow_two_pos _
  · rw [h.again k i hlow hhigh]
    exact ih

/-! ### The loop in 64 bits -/

namespace Machine

/-- A difference of integers without sign. -/
def minus (a b : Nat) : Except Fault Nat := if b ≤ a then .ok (a - b) else .error .overflow

/-- The least exponent from `k` on whose power of two is above `i`. One cannot be shifted by 64. -/
def exponentFrom (i k : Nat) : Except Fault Nat :=
  if k < 64 then
    if Nat.pow 2 k - 1 < i then exponentFrom i (k + 1) else .ok k
  else .error .overflow
termination_by 64 - k

/-- The term at place `i`, after at most so many turns of the loop. -/
def term (i : Nat) : Nat → Except Fault Nat
  | 0 => .error .outOfFuel
  | fuel + 1 => do
    let k ← exponentFrom i 1
    if Nat.pow 2 k - 1 = i then return Nat.pow 2 (k - 1)
    term (← minus i (Nat.pow 2 (k - 1) - 1)) fuel

theorem exponentFrom_ok {i j k : Nat} (hk : k ≤ j) (hj : j < 64) (hlow : Nat.pow 2 (j - 1) ≤ i)
    (hhigh : i < Nat.pow 2 j) : exponentFrom i k = .ok j := by
  fun_induction exponentFrom i k with
  | case1 k _ hlt ih =>
    refine ih (Nat.lt_of_le_of_ne hk fun heq => ?_)
    rw [heq] at hlt
    omega
  | case2 k _ hge =>
    refine congrArg _ (Nat.le_antisymm hk (Nat.le_of_not_lt fun hkj => ?_))
    have hpow : Nat.pow 2 k ≤ Nat.pow 2 (j - 1) := Nat.pow_le_pow_right (by decide) (by omega)
    have hpos := pow_two_pos k
    omega
  | case3 k hge => omega

end Machine

/-- **The loop finds the term.** The blocks that it comes through are below each other, so it takes no more turns than
there are blocks. -/
theorem Law.machine_term {L : Nat → Nat} (h : Law L) {i j fuel : Nat} (hi : 1 ≤ i) (hj : j < 64) (hlt : i < Nat.pow 2 j)
    (hfuel : j ≤ fuel) : Machine.term i fuel = .ok (L i) := by
  -- By induction on the turns: each leads to a place in a block below, whose exponent is less.
  induction fuel generalizing i j with
  | zero =>
    obtain rfl : j = 0 := by omega
    have hlt : i < 1 := hlt
    omega
  | succ fuel ih =>
    obtain ⟨k, hk, hlow, hhigh⟩ := exists_block hi
    have hkj : k ≤ j := Nat.le_of_not_lt fun hjk => by
      have hpow : Nat.pow 2 j ≤ Nat.pow 2 (k - 1) := Nat.pow_le_pow_right (by decide) (by omega)
      omega
    have hexponent := Machine.exponentFrom_ok hk (by omega) hlow hhigh
    rw [Machine.term, hexponent]
    show (if Nat.pow 2 k - 1 = i then Except.ok (Nat.pow 2 (k - 1)) else
      Machine.minus i (Nat.pow 2 (k - 1) - 1) >>= fun i => Machine.term i fuel) = .ok (L i)
    split
    · rename_i hlast
      rw [← hlast, h.full k hk]
    · rename_i hlast
      have hhigh : i < Nat.pow 2 k - 1 := by omega
      have hpos := pow_two_pos (k - 1)
      have hminus : Machine.minus i (Nat.pow 2 (k - 1) - 1) = .ok (i - Nat.pow 2 (k - 1) + 1) := by
        rw [Machine.minus, if_pos (by omega)]
        exact congrArg _ (by omega)
      rw [hminus, h.again k i hlow hhigh]
      exact ih (by omega) (show k - 1 < 64 by omega) (again_lt hlow hhigh) (by omega)

/-! ### How often the powers occur -/

/-- How often a value is among the terms up to the end of a block. -/
def occurrences (L : Nat → Nat) (k v : Nat) : Nat := (List.range' 1 (Nat.pow 2 k - 1)).countP fun i => decide (L i = v)

/-- Up to the end of the next block there is all twice, and one term more. -/
theorem Law.occurrences_succ {L : Nat → Nat} (h : Law L) (k v : Nat) :
    occurrences L (k + 1) v = 2 * occurrences L k v + if Nat.pow 2 k = v then 1 else 0 := by
  have hpos := pow_two_pos k
  have hdouble : Nat.pow 2 (k + 1) = Nat.pow 2 k * 2 := rfl
  have hplaces : List.range' 1 (Nat.pow 2 (k + 1) - 1) = List.range' 1 (Nat.pow 2 k - 1) ++
      ((List.range' 1 (Nat.pow 2 k - 1)).map ((Nat.pow 2 k - 1) + ·) ++ [Nat.pow 2 (k + 1) - 1]) := by
    rw [show Nat.pow 2 (k + 1) - 1 = Nat.pow 2 k - 1 + (Nat.pow 2 k - 1 + 1) by omega, ← List.range'_append_1,
      List.range'_1_concat, List.map_add_range']
    congr 3 <;> omega
  have hrepeat : ((List.range' 1 (Nat.pow 2 k - 1)).map ((Nat.pow 2 k - 1) + ·)).countP (fun i => decide (L i = v)) =
      occurrences L k v := by
    rw [List.countP_map, occurrences]
    refine List.countP_congr fun i hi => ?_
    obtain ⟨hone, hi⟩ := List.mem_range'_1.mp hi
    have hagain := h.again (k + 1) (Nat.pow 2 k - 1 + i) (by rw [Nat.add_sub_cancel]; omega) (by omega)
    rw [Nat.add_sub_cancel, show Nat.pow 2 k - 1 + i - Nat.pow 2 k + 1 = i by omega] at hagain
    rw [Function.comp_apply, hagain]
  have hlast : L (Nat.pow 2 (k + 1) - 1) = Nat.pow 2 k := h.full (k + 1) (by omega)
  rw [occurrences, hplaces, List.countP_append, List.countP_append, hrepeat, List.countP_singleton, hlast, occurrences]
  simp only [decide_eq_true_eq]
  omega

theorem Law.occurrences_eq_zero {L : Nat → Nat} (h : Law L) {j k : Nat} (hk : k ≤ j) :
    occurrences L k (Nat.pow 2 j) = 0 := by
  induction k with
  | zero => rfl
  | succ k ih =>
    have hlt : Nat.pow 2 k < Nat.pow 2 j := Nat.pow_lt_pow_right (by decide) hk
    rw [h.occurrences_succ, ih (by omega), if_neg (by omega)]

/-- **Each power of two is half as frequent as the one before.** -/
theorem Law.occurrences_pow {L : Nat → Nat} (h : Law L) {j k : Nat} (hk : j < k) :
    occurrences L k (Nat.pow 2 j) = Nat.pow 2 (k - 1 - j) := by
  obtain ⟨d, rfl⟩ := Nat.exists_eq_add_of_lt hk
  rw [show j + d + 1 - 1 - j = d by omega]
  induction d with
  | zero =>
    show occurrences L (j + 1) (Nat.pow 2 j) = 1
    rw [h.occurrences_succ, h.occurrences_eq_zero (Nat.le_refl j), if_pos rfl]
  | succ d ih =>
    have hlt : Nat.pow 2 j < Nat.pow 2 (j + d + 1) := Nat.pow_lt_pow_right (by decide) (by omega)
    show occurrences L (j + d + 1 + 1) (Nat.pow 2 j) = Nat.pow 2 d * 2
    rw [h.occurrences_succ, ih (by omega), if_neg (by omega)]
    exact Nat.mul_comm _ _

end Luby

end FiniteDomain
