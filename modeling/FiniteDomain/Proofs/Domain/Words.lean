import FiniteDomain.Domain.Word

/-!
# The scans of a row of words

What the scans find, for every row of words and all limits:

* `Words.next?_eq_some`, `Words.next?_eq_none`: the least member between two limits;
* `Words.previous?_eq_some`, `Words.previous?_eq_none`: the greatest one;
* `Words.count_eq_countP`: how many there are.
-/

namespace FiniteDomain

namespace Word

/-- The number of places that a word is shifted by. -/
theorem shift_eq {i : Nat} (hi : i < width) : (UInt64.ofNat i).toBitVec % 64 = BitVec.ofNat 64 i := by
  have hi : i < 64 := hi
  apply BitVec.eq_of_toNat_eq
  have h64 : (64 : BitVec 64).toNat = 64 := rfl
  rw [BitVec.toNat_umod, h64, UInt64.toNat_toBitVec, UInt64.toNat_ofNat', BitVec.toNat_ofNat]
  omega

theorem bit_eq_getLsbD {w : UInt64} {i : Nat} (hi : i < width) : bit w i = w.toBitVec.getLsbD i := by
  have hi : i < 64 := hi
  have h64 : i < 2 ^ 64 := Nat.lt_trans hi (by decide)
  have hone : ∀ v : UInt64, (v &&& 1 != 0) = v.toBitVec.getLsbD 0 := by
    intro v
    have hv : (v &&& 1) = 0 ↔ v.toBitVec.getLsbD 0 = false := by
      rw [← UInt64.toBitVec_inj, UInt64.toBitVec_and]
      constructor
      · intro h
        have := congrArg (fun x : BitVec 64 => x.getLsbD 0) h
        simpa using this
      · intro h
        apply BitVec.eq_of_getLsbD_eq
        intro j hj
        rcases Nat.eq_zero_or_pos j with rfl | hj0
        · simpa using h
        · simp [Nat.ne_of_gt hj0]
    cases hb : v.toBitVec.getLsbD 0 with
    | false => simp [hv.mpr hb]
    | true =>
      have : ¬(v &&& 1) = 0 := fun h => Bool.false_ne_true ((hv.mp h).symm.trans hb)
      simp [this]
  rw [bit, hone, UInt64.toBitVec_shiftRight]
  rw [shift_eq hi, BitVec.ushiftRight_eq', BitVec.toNat_ofNat, Nat.mod_eq_of_lt h64, BitVec.getLsbD_ushiftRight,
    Nat.add_zero]

theorem bit_erase {w : UInt64} {i j : Nat} (hi : i < width) (hj : j < width) :
    bit (erase w i) j = (decide (i ≠ j) && bit w j) := by
  have hi' : i < 64 := hi
  have hj' : j < 64 := hj
  have h64 : i < 2 ^ 64 := Nat.lt_trans hi' (by decide)
  rw [bit_eq_getLsbD hj, bit_eq_getLsbD hj, erase, UInt64.toBitVec_and, UInt64.toBitVec_not,
    UInt64.toBitVec_shiftLeft, shift_eq hi]
  simp only [UInt64.toBitVec_one, BitVec.getLsbD_and, BitVec.getLsbD_not, BitVec.shiftLeft_eq',
    BitVec.toNat_ofNat, Nat.mod_eq_of_lt h64, BitVec.getLsbD_shiftLeft, BitVec.getLsbD_one]
  by_cases hij : i = j
  · subst hij
    simp [hj']
  · rcases Nat.lt_or_gt_of_ne hij with h | h
    · have : ¬(j - i = 0) := by omega
      simp [hj', hij, this]
    · simp [hj', hij, h]

theorem bit_insert {w : UInt64} {i j : Nat} (hi : i < width) (hj : j < width) :
    bit (insert w i) j = (decide (i = j) || bit w j) := by
  have hi' : i < 64 := hi
  have hj' : j < 64 := hj
  have h64 : i < 2 ^ 64 := Nat.lt_trans hi' (by decide)
  rw [bit_eq_getLsbD hj, bit_eq_getLsbD hj, insert, UInt64.toBitVec_or, UInt64.toBitVec_shiftLeft, shift_eq hi]
  simp only [UInt64.toBitVec_one, BitVec.getLsbD_or, BitVec.shiftLeft_eq', BitVec.toNat_ofNat, Nat.mod_eq_of_lt h64,
    BitVec.getLsbD_shiftLeft, BitVec.getLsbD_one]
  by_cases hij : i = j
  · subst hij
    simp [hj']
  · rcases Nat.lt_or_gt_of_ne hij with h | h
    · have : ¬(j - i = 0) := by omega
      simp [hj', hij, this]
    · simp [hj', hij, h]

theorem next?_eq_some {w : UInt64} {i j : Nat} (h : next? w i = some j) :
    i ≤ j ∧ j < width ∧ bit w j = true ∧ ∀ k, i ≤ k → k < j → bit w k = false := by
  fun_induction next? w i with
  | case1 i hi hb =>
    cases h
    exact ⟨Nat.le_refl _, hi, hb, fun k h1 h2 => absurd h2 (Nat.not_lt_of_le h1)⟩
  | case2 i hi hb ih =>
    obtain ⟨h1, h2, h3, h4⟩ := ih h
    refine ⟨by omega, h2, h3, ?_⟩
    intro k hk hkj
    rcases Nat.eq_or_lt_of_le hk with rfl | hk
    · simpa using hb
    · exact h4 k hk hkj
  | case3 i hi => cases h

theorem next?_eq_none {w : UInt64} {i : Nat} (h : next? w i = none) :
    ∀ k, i ≤ k → k < width → bit w k = false := by
  fun_induction next? w i with
  | case1 i hi hb => cases h
  | case2 i hi hb ih =>
    intro k hk hkw
    rcases Nat.eq_or_lt_of_le hk with rfl | hk
    · simpa using hb
    · exact ih h k hk hkw
  | case3 i hi =>
    intro k hk hkw
    omega

theorem previous?_eq_some {w : UInt64} {i j : Nat} (h : previous? w i = some j) :
    j ≤ i ∧ bit w j = true ∧ ∀ k, j < k → k ≤ i → bit w k = false := by
  induction i with
  | zero =>
    rw [previous?] at h
    split at h
    · rename_i hb
      cases h
      exact ⟨Nat.le_refl _, hb, fun k h1 h2 => absurd h1 (Nat.not_lt_of_le h2)⟩
    · cases h
  | succ i ih =>
    rw [previous?] at h
    split at h
    · rename_i hb
      cases h
      exact ⟨Nat.le_refl _, hb, fun k h1 h2 => absurd h1 (Nat.not_lt_of_le h2)⟩
    · rename_i hb
      obtain ⟨h1, h2, h3⟩ := ih h
      refine ⟨by omega, h2, ?_⟩
      intro k hk hki
      rcases Nat.eq_or_lt_of_le hki with rfl | hki
      · simpa using hb
      · exact h3 k hk (by omega)

theorem previous?_eq_none {w : UInt64} {i : Nat} (h : previous? w i = none) :
    ∀ k, k ≤ i → bit w k = false := by
  induction i with
  | zero =>
    rw [previous?] at h
    intro k hk
    obtain rfl : k = 0 := by omega
    split at h
    · cases h
    · rename_i hb
      simpa using hb
  | succ i ih =>
    rw [previous?] at h
    split at h
    · cases h
    · rename_i hb
      intro k hk
      rcases Nat.eq_or_lt_of_le hk with rfl | hk
      · simpa using hb
      · exact ih h k (by omega)

theorem count_eq_countP (w : UInt64) (i n : Nat) : count w i n = (List.range' i n).countP (bit w) := by
  induction n generalizing i with
  | zero => rfl
  | succ n ih =>
    rw [count, ih, List.range'_succ, List.countP_cons, Nat.add_comm]

end Word

namespace Words

/-- A place is in the word of its block. -/
theorem has_of_block (words : Nat → UInt64) (q : Nat) {r : Nat} (hr : r < Word.width) :
    has words (q * Word.width + r) = Word.bit (words q) r := by
  have hr : r < 64 := hr
  have hdiv : (q * Word.width + r) / Word.width = q := by
    simp only [Word.width]
    omega
  have hmod : (q * Word.width + r) % Word.width = r := by
    simp only [Word.width]
    omega
  rw [has, hdiv, hmod]

theorem has_eq_bit {words : Nat → UInt64} (start : Nat) {k : Nat} (h1 : start / Word.width * Word.width ≤ k)
    (h2 : k < start / Word.width * Word.width + Word.width) :
    has words k = Word.bit (words (start / Word.width)) (k - start / Word.width * Word.width) := by
  have hk : k = start / Word.width * Word.width + (k - start / Word.width * Word.width) := by omega
  have := has_of_block words (start / Word.width) (r := k - start / Word.width * Word.width) (by omega)
  rw [← hk] at this
  exact this

theorem next?_eq_some {words : Nat → UInt64} {start limit i : Nat} (h : next? words start limit = some i) :
    start ≤ i ∧ i ≤ limit ∧ has words i = true ∧ ∀ k, start ≤ k → k < i → has words k = false := by
  fun_induction next? words start limit with
  | case1 start hle base j hj hlim =>
    cases h
    obtain ⟨h1, h2, h3, h4⟩ := Word.next?_eq_some hj
    have hb : base = start / Word.width * Word.width := rfl
    simp only [Word.width] at *
    refine ⟨by omega, hlim, ?_, ?_⟩
    · rw [has_eq_bit start (by simp only [Word.width]; omega) (by simp only [Word.width]; omega)]
      simpa [Word.width, hb] using h3
    · intro k hk hkj
      rw [has_eq_bit start (by simp only [Word.width]; omega) (by simp only [Word.width]; omega)]
      exact h4 _ (by simp only [Word.width]; omega) (by simp only [Word.width]; omega)
  | case2 start hle base j hj hlim => cases h
  | case3 start hle base hn ih =>
    obtain ⟨h1, h2, h3, h4⟩ := ih h
    have hb : base = start / Word.width * Word.width := rfl
    have hnone := Word.next?_eq_none hn
    simp only [Word.width] at *
    refine ⟨by omega, h2, h3, ?_⟩
    intro k hk hki
    rcases Nat.lt_or_ge k (base + 64) with hlt | hge
    · rw [has_eq_bit start (by simp only [Word.width]; omega) (by simp only [Word.width]; omega)]
      exact hnone _ (by simp only [Word.width]; omega) (by simp only [Word.width]; omega)
    · exact h4 k hge hki
  | case4 start hle => cases h

theorem next?_eq_none {words : Nat → UInt64} {start limit : Nat} (h : next? words start limit = none) :
    ∀ k, start ≤ k → k ≤ limit → has words k = false := by
  fun_induction next? words start limit with
  | case1 start hle base j hj hlim => cases h
  | case2 start hle base j hj hlim =>
    obtain ⟨h1, h2, h3, h4⟩ := Word.next?_eq_some hj
    have hb : base = start / Word.width * Word.width := rfl
    intro k hk hkl
    simp only [Word.width] at *
    rw [has_eq_bit start (by simp only [Word.width]; omega) (by simp only [Word.width]; omega)]
    exact h4 _ (by simp only [Word.width]; omega) (by simp only [Word.width]; omega)
  | case3 start hle base hn ih =>
    have hb : base = start / Word.width * Word.width := rfl
    have hnone := Word.next?_eq_none hn
    intro k hk hkl
    simp only [Word.width] at *
    rcases Nat.lt_or_ge k (base + 64) with hlt | hge
    · rw [has_eq_bit start (by simp only [Word.width]; omega) (by simp only [Word.width]; omega)]
      exact hnone _ (by simp only [Word.width]; omega) (by simp only [Word.width]; omega)
    · exact ih h k hge hkl
  | case4 start hle =>
    intro k hk hkl
    omega

theorem previous?_eq_some {words : Nat → UInt64} {start limit i : Nat}
    (h : previous? words start limit = some i) :
    limit ≤ i ∧ i ≤ start ∧ has words i = true ∧ ∀ k, i < k → k ≤ start → has words k = false := by
  fun_induction previous? words start limit with
  | case1 start hle base j hj hlim =>
    cases h
    obtain ⟨h1, h3, h4⟩ := Word.previous?_eq_some hj
    have hb : base = start / Word.width * Word.width := rfl
    simp only [Word.width] at *
    refine ⟨hlim, by omega, ?_, ?_⟩
    · rw [has_eq_bit start (by simp only [Word.width]; omega) (by simp only [Word.width]; omega)]
      simpa [Word.width, hb] using h3
    · intro k hk hkj
      rw [has_eq_bit start (by simp only [Word.width]; omega) (by simp only [Word.width]; omega)]
      exact h4 _ (by simp only [Word.width]; omega) (by simp only [Word.width]; omega)
  | case2 start hle base j hj hlim => cases h
  | case3 start hle hn hlt => cases h
  | case4 start hle base hn hlt ih =>
    obtain ⟨h1, h2, h3, h4⟩ := ih h
    have hb : base = start / Word.width * Word.width := rfl
    have hnone := Word.previous?_eq_none hn
    simp only [Word.width] at *
    refine ⟨h1, by omega, h3, ?_⟩
    intro k hk hks
    rcases Nat.lt_or_ge k base with hlt | hge
    · exact h4 k hk (by omega)
    · rw [has_eq_bit start (by simp only [Word.width]; omega) (by simp only [Word.width]; omega)]
      exact hnone _ (by simp only [Word.width]; omega)
  | case5 start hle => cases h

theorem previous?_eq_none {words : Nat → UInt64} {start limit : Nat}
    (h : previous? words start limit = none) : ∀ k, limit ≤ k → k ≤ start → has words k = false := by
  fun_induction previous? words start limit with
  | case1 start hle base j hj hlim => cases h
  | case2 start hle base j hj hlim =>
    obtain ⟨h1, h3, h4⟩ := Word.previous?_eq_some hj
    have hb : base = start / Word.width * Word.width := rfl
    intro k hk hks
    simp only [Word.width] at *
    rw [has_eq_bit start (by simp only [Word.width]; omega) (by simp only [Word.width]; omega)]
    exact h4 _ (by simp only [Word.width]; omega) (by simp only [Word.width]; omega)
  | case3 start hle hn hlt =>
    have hnone := Word.previous?_eq_none hn
    intro k hk hks
    simp only [Word.width] at *
    rw [has_eq_bit start (by simp only [Word.width]; omega) (by simp only [Word.width]; omega)]
    exact hnone _ (by simp only [Word.width]; omega)
  | case4 start hle base hn hlt ih =>
    have hb : base = start / Word.width * Word.width := rfl
    have hnone := Word.previous?_eq_none hn
    intro k hk hks
    simp only [Word.width] at *
    rcases Nat.lt_or_ge k base with hlt | hge
    · exact ih h k hk (by omega)
    · rw [has_eq_bit start (by simp only [Word.width]; omega) (by simp only [Word.width]; omega)]
      exact hnone _ (by simp only [Word.width]; omega)
  | case5 start hle =>
    intro k hk hks
    omega

/-- **The count is exact.** -/
theorem count_eq_countP (words : Nat → UInt64) (start limit : Nat) :
    count words start limit = (List.range' start (limit + 1 - start)).countP (has words) := by
  fun_induction count words start limit with
  | case1 start hle stop ih =>
    have hs : stop = min limit (start / Word.width * Word.width + (Word.width - 1)) := rfl
    have hsplit : limit + 1 - start = (stop + 1 - start) + (limit + 1 - (stop + 1)) := by
      simp only [Word.width] at hs
      omega
    have hfrom : start + 1 * (stop + 1 - start) = stop + 1 := by
      simp only [Word.width] at hs
      omega
    rw [hsplit, ← List.range'_append, hfrom, List.countP_append, ih, Word.count_eq_countP]
    congr 1
    -- the two rows run in step: place `start + k` is bit `start % 64 + k` of its word
    have hword : ∀ n i j, j + n ≤ Word.width → i = start / Word.width * Word.width + j →
        (List.range' j n).countP (Word.bit (words (start / Word.width))) = (List.range' i n).countP (has words) := by
      intro n
      induction n with
      | zero => intro i j _ _; rfl
      | succ n ihn =>
        intro i j hn hi
        have hj : has words i = Word.bit (words (start / Word.width)) j := by
          rw [hi, has_of_block words _ (by omega)]
        rw [List.range'_succ, List.range'_succ, List.countP_cons, List.countP_cons, hj,
          ihn (i + 1) (j + 1) (by omega) (by omega)]
    refine hword _ _ _ ?_ ?_
    · simp only [Word.width] at hs ⊢
      omega
    · simp only [Word.width]
      omega
  | case2 start hle =>
    rw [show limit + 1 - start = 0 by omega]
    rfl

theorem count_congr {a b : Nat → UInt64} {start limit : Nat}
    (h : ∀ k, start ≤ k → k ≤ limit → has a k = has b k) : count a start limit = count b start limit := by
  rw [count_eq_countP, count_eq_countP]
  refine List.countP_congr ?_
  intro k hk
  rw [List.mem_range'_1] at hk
  rw [h k hk.1 (by omega)]

/-- The count up to a place and from it on. -/
theorem count_split (words : Nat → UInt64) {i j k : Nat} (h1 : i < k) (h2 : k ≤ j + 1) :
    count words i j = count words i (k - 1) + count words k j := by
  rw [count_eq_countP, count_eq_countP, count_eq_countP,
    show j + 1 - i = (k - 1 + 1 - i) + (j + 1 - k) by omega, ← List.range'_append,
    show i + 1 * (k - 1 + 1 - i) = k by omega, List.countP_append]

theorem count_le_of_subrange (words : Nat → UInt64) {i j start limit : Nat} (h1 : start ≤ i) (h2 : i ≤ j)
    (h3 : j ≤ limit) : count words i j ≤ count words start limit := by
  have hupper : count words i j ≤ count words i limit := by
    have := count_split words (i := i) (j := limit) (k := j + 1) (by omega) (by omega)
    rw [Nat.add_sub_cancel] at this
    omega
  rcases Nat.eq_or_lt_of_le h1 with rfl | h1
  · exact hupper
  · have := count_split words (j := limit) h1 (by omega)
    omega

/-- Clearing one member leaves one less. -/
theorem count_of_cleared {a b : Nat → UInt64} {start place limit : Nat} (h1 : start ≤ place)
    (h2 : place ≤ limit) (hp : has a place = true)
    (h : ∀ k, start ≤ k → k ≤ limit → has b k = (decide (place ≠ k) && has a k)) :
    count b start limit + 1 = count a start limit := by
  have hone : ∀ words : Nat → UInt64, count words place place = if has words place then 1 else 0 := by
    intro words
    rw [count_eq_countP, show place + 1 - place = 1 by omega, List.range'_one, List.countP_cons]
    simp
  have hsame : ∀ i j, (∀ k, i ≤ k → k ≤ j → start ≤ k ∧ k ≤ limit ∧ place ≠ k) →
      count b i j = count a i j := by
    intro i j hk
    refine count_congr ?_
    intro k hik hkj
    obtain ⟨h3, h4, h5⟩ := hk k hik hkj
    rw [h k h3 h4]
    simp [h5]
  have hfrom : count b place limit + 1 = count a place limit := by
    rw [count_split b (k := place + 1) (Nat.lt_succ_self _) (by omega),
      count_split a (k := place + 1) (Nat.lt_succ_self _) (by omega), Nat.add_sub_cancel, hone, hone,
      hsame (place + 1) limit (fun k _ _ => ⟨by omega, by omega, by omega⟩), h place h1 h2, hp]
    simp only [ne_eq, not_true_eq_false, decide_false, Bool.false_and, if_true]
    simp only [Bool.false_eq_true, if_false]
    omega
  rcases Nat.eq_or_lt_of_le h1 with rfl | h1
  · exact hfrom
  · rw [count_split b h1 (by omega), count_split a h1 (by omega),
      hsame start (place - 1) (fun k _ _ => ⟨by omega, by omega, by omega⟩)]
    omega

end Words

end FiniteDomain
