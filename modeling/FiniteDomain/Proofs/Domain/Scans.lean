import FiniteDomain.Fault
import FiniteDomain.Integer
import FiniteDomain.Proofs.Domain.Words
import FiniteDomain.Proofs.Faulting
import Mathlib.Order.Bounds.Defs

/-!
# The scans of a row word by word

A machine looks for the members of a row with masks and counts of whole words. These scans and the ones that go from
bit to bit find the same, and what they find is the least member, the greatest member and the number of members
between two limits.

* `Word.bit_keepFrom`, `Word.bit_keepUpTo`: the masks;
* `Word.trailing_spec`, `Word.leading_spec`, `Word.ones_eq_countP`: the counts of a word;
* `Row.next?_eq`, `Row.previous?_eq`, `Row.count_eq`: the scans word by word are the ones bit by bit;
* `Row.scans_exact`: they are exact.
-/

namespace FiniteDomain

namespace Word

/-! ### Masks and counts of a word -/

/-- The bits of a word from one on. -/
def keepFrom (w : UInt64) (i : Nat) : UInt64 := w &&& (~~~0 <<< UInt64.ofNat i)

/-- The bits of a word up to one. -/
def keepUpTo (w : UInt64) (i : Nat) : UInt64 := w &&& (~~~0 >>> UInt64.ofNat (width - 1 - i))

/-- The number of zeros below the least set bit. -/
def trailing (w : UInt64) : Nat := w.toBitVec.ctz.toNat

/-- The number of zeros above the greatest set bit. -/
def leading (w : UInt64) : Nat := w.toBitVec.clz.toNat

/-- The number of set bits. -/
def ones (w : UInt64) : Nat := w.toBitVec.cpop.toNat

theorem toBitVec_ne_zero {w : UInt64} (h : w ≠ 0) : w.toBitVec ≠ 0#64 := fun h0 => h (UInt64.toBitVec_inj.mp h0)

theorem bit_zero (i : Nat) : bit 0 i = false := by
  simp [bit]

theorem bit_keepFrom {w : UInt64} {i j : Nat} (hi : i < width) (hj : j < width) :
    bit (keepFrom w i) j = (decide (i ≤ j) && bit w j) := by
  have hj' : j < 64 := hj
  have h64 : i < 2 ^ 64 := Nat.lt_trans hi (by decide)
  rw [bit_eq_getLsbD hj, bit_eq_getLsbD hj, keepFrom, UInt64.toBitVec_and, UInt64.toBitVec_shiftLeft, shift_eq hi]
  simp only [BitVec.getLsbD_and, BitVec.shiftLeft_eq', BitVec.toNat_ofNat, Nat.mod_eq_of_lt h64,
    BitVec.getLsbD_shiftLeft, UInt64.toBitVec_not, UInt64.toBitVec_zero, BitVec.getLsbD_not, BitVec.getLsbD_zero]
  grind

theorem bit_keepUpTo {w : UInt64} {i j : Nat} (hi : i < width) (hj : j < width) :
    bit (keepUpTo w i) j = (decide (j ≤ i) && bit w j) := by
  have hi' : i < 64 := hi
  have hj' : j < 64 := hj
  have hshift : width - 1 - i < width := by simp only [width]; omega
  rw [bit_eq_getLsbD hj, bit_eq_getLsbD hj, keepUpTo, UInt64.toBitVec_and, UInt64.toBitVec_shiftRight, shift_eq hshift]
  simp only [BitVec.getLsbD_and, BitVec.ushiftRight_eq', BitVec.toNat_ofNat,
    BitVec.getLsbD_ushiftRight, UInt64.toBitVec_not, UInt64.toBitVec_zero, BitVec.getLsbD_not, BitVec.getLsbD_zero,
    width]
  grind

/-- The least set bit of a word. -/
theorem trailing_spec {w : UInt64} (h : w ≠ 0) :
    trailing w < width ∧ bit w (trailing w) = true ∧ ∀ k, k < trailing w → bit w k = false := by
  have hlt : trailing w < width := BitVec.ctz_lt_iff_ne_zero.mpr (toBitVec_ne_zero h)
  refine ⟨hlt, ?_, fun k hk => ?_⟩
  · rw [bit_eq_getLsbD hlt]
    exact BitVec.getLsbD_true_ctz_of_ne_zero (toBitVec_ne_zero h)
  · rw [bit_eq_getLsbD (Nat.lt_trans hk hlt)]
    exact BitVec.getLsbD_false_of_lt_ctz hk

/-- The greatest set bit of a word. -/
theorem leading_spec {w : UInt64} (h : w ≠ 0) :
    leading w < width ∧ bit w (width - 1 - leading w) = true ∧
      ∀ k, width - 1 - leading w < k → k < width → bit w k = false := by
  have hlt : leading w < width := BitVec.clz_lt_iff_ne_zero.mpr (toBitVec_ne_zero h)
  refine ⟨hlt, ?_, fun k hk hkw => ?_⟩
  · rw [bit_eq_getLsbD (by simp only [width]; omega)]
    exact BitVec.getLsbD_true_clz_of_ne_zero (by decide) (toBitVec_ne_zero h)
  · have hk' : width - 1 - k < w.toBitVec.reverse.ctz.toNat := by
      rw [← BitVec.clz_eq_reverse_ctz]
      show width - 1 - k < leading w
      simp only [width] at hk hkw ⊢
      omega
    have := BitVec.getLsbD_false_of_lt_ctz hk'
    rw [BitVec.getLsbD_reverse, BitVec.getMsbD_eq_getLsbD] at this
    rw [bit_eq_getLsbD hkw]
    simp only [width] at this hkw
    simpa [show 63 - k < 64 by omega, show 63 - (63 - k) = k by omega] using this

/-- The number of set bits, bit by bit. -/
theorem ones_eq_countP (w : UInt64) : ones w = (List.range width).countP (bit w) := by
  have hrec : ∀ n ≤ width, w.toBitVec.cpopNatRec n 0 = (List.range n).countP (bit w) := by
    intro n hn
    induction n with
    | zero => rfl
    | succ n ih =>
      rw [BitVec.cpopNatRec_succ, BitVec.cpopNatRec_eq, ih (by omega), List.range_succ, List.countP_append,
        List.countP_singleton, bit_eq_getLsbD (Nat.lt_of_succ_le hn), Nat.zero_add]
      cases w.toBitVec.getLsbD n <;> rfl
  rw [ones, BitVec.toNat_cpop]
  exact hrec width (Nat.le_refl _)

end Word

namespace Words

/-! ### What the scans look for -/

theorem next?_eq_some_iff {words : Nat → UInt64} {start limit i : Nat} :
    next? words start limit = some i ↔
      start ≤ i ∧ i ≤ limit ∧ has words i = true ∧ ∀ k, start ≤ k → k < i → has words k = false := by
  refine ⟨next?_eq_some, fun ⟨hs, hl, hi, hbefore⟩ => ?_⟩
  cases ho : next? words start limit with
  | none => rw [next?_eq_none ho i hs hl] at hi; cases hi
  | some j =>
    obtain ⟨hs', -, hj, hbefore'⟩ := next?_eq_some ho
    rcases Nat.lt_trichotomy i j with hlt | rfl | hlt
    · rw [hbefore' i hs hlt] at hi; cases hi
    · rfl
    · rw [hbefore j hs' hlt] at hj; cases hj

theorem next?_eq_none_iff {words : Nat → UInt64} {start limit : Nat} :
    next? words start limit = none ↔ ∀ k, start ≤ k → k ≤ limit → has words k = false := by
  refine ⟨next?_eq_none, fun h => ?_⟩
  cases ho : next? words start limit with
  | none => rfl
  | some j =>
    obtain ⟨hs, hl, hj, -⟩ := next?_eq_some ho
    rw [h j hs hl] at hj; cases hj

theorem previous?_eq_some_iff {words : Nat → UInt64} {start limit i : Nat} :
    previous? words start limit = some i ↔
      limit ≤ i ∧ i ≤ start ∧ has words i = true ∧ ∀ k, i < k → k ≤ start → has words k = false := by
  refine ⟨previous?_eq_some, fun ⟨hl, hs, hi, hafter⟩ => ?_⟩
  cases ho : previous? words start limit with
  | none => rw [previous?_eq_none ho i hl hs] at hi; cases hi
  | some j =>
    obtain ⟨-, hs', hj, hafter'⟩ := previous?_eq_some ho
    rcases Nat.lt_trichotomy i j with hlt | rfl | hlt
    · rw [hafter j hlt hs'] at hj; cases hj
    · rfl
    · rw [hafter' i hlt hs] at hi; cases hi

theorem previous?_eq_none_iff {words : Nat → UInt64} {start limit : Nat} :
    previous? words start limit = none ↔ ∀ k, limit ≤ k → k ≤ start → has words k = false := by
  refine ⟨previous?_eq_none, fun h => ?_⟩
  cases ho : previous? words start limit with
  | none => rfl
  | some j =>
    obtain ⟨hl, hs, hj, -⟩ := previous?_eq_some ho
    rw [h j hl hs] at hj; cases hj

/-! ### Rows in memory -/

/-- The greatest index that a machine word holds. -/
def greatestIndex : Nat := 18446744073709551615

/-- A number of words that no memory holds: they take up `2 ^ 60` bytes. -/
def manyWords : Nat := 144115188075855872

/-- A row of words of which only so many exist. If its arithmetic is checked, an index has to fit an integer of 64 bits
without sign and a count has to be a value. -/
structure Row where
  length : Nat
  word : Nat → UInt64
  checked : Bool

namespace Row

variable (r : Row)

def read (q : Nat) : Except Fault UInt64 := if q < r.length then .ok (r.word q) else .error .missing

/-- There is room for an index. -/
def checkIndex (i : Nat) : Except Fault Unit :=
  if r.checked = true ∧ greatestIndex < i then .error .overflow else .ok ()

/-- There is room for a count. -/
def checkCount (n : Nat) : Except Fault Unit :=
  if r.checked = true ∧ ¬Value.Fits n then .error .overflow else .ok ()

/-- The least index in what is left of a word, unless that is above the limit. -/
def leastOf (limit q : Nat) (bits : UInt64) : Except Fault (Option Nat) := do
  let i := q * Word.width + Word.trailing bits
  r.checkIndex i
  return if i ≤ limit then some i else none

/-- The greatest index in what is left of a word, unless that is below the limit. -/
def greatestOf (low q : Nat) (bits : UInt64) : Except Fault (Option Nat) :=
  if Word.leading bits < Word.width then do
    let i := q * Word.width + (Word.width - 1 - Word.leading bits)
    r.checkIndex i
    return if low ≤ i then some i else none
  else .error .overflow

/-- The loop of the scan upwards from word `q`, with what is left of a word. -/
def seek (limit q : Nat) (bits : UInt64) : Except Fault (Option Nat) :=
  if bits ≠ 0 then r.leastOf limit q bits
  else do
    r.checkIndex ((q + 1) * Word.width)
    if limit < (q + 1) * Word.width then return none
    else seek limit (q + 1) (← r.read (q + 1))
termination_by limit - q * Word.width
decreasing_by simp only [Word.width] at *; omega

/-- The least set index from `start` to `limit`, word by word. -/
def next? (start limit : Nat) : Except Fault (Option Nat) := do
  if limit < start then return none
  r.seek limit (start / Word.width) (Word.keepFrom (← r.read (start / Word.width)) (start % Word.width))

/-- The loop of the scan downwards from word `q`, with what is left of a word. -/
def seekBack (low q : Nat) (bits : UInt64) : Except Fault (Option Nat) :=
  if bits ≠ 0 then r.greatestOf low q bits
  else
    match q with
    | 0 => .ok none
    | q + 1 => do
      r.checkIndex ((q + 1) * Word.width)
      if (q + 1) * Word.width ≤ low then return none
      else seekBack low q (← r.read q)

/-- The greatest set index from `start` down to `low`, word by word. -/
def previous? (start low : Nat) : Except Fault (Option Nat) := do
  if start < low then return none
  r.seekBack low (start / Word.width) (Word.keepUpTo (← r.read (start / Word.width)) (start % Word.width))

/-- The bits of a word that lie between two indices. -/
def between (start limit q : Nat) : Except Fault UInt64 := do
  let bits ← r.read q
  let bits := if q = start / Word.width then Word.keepFrom bits (start % Word.width) else bits
  return if q = limit / Word.width then Word.keepUpTo bits (limit % Word.width) else bits

/-- The sum over some words. -/
def sum (start limit : Nat) (sofar : Nat) : List Nat → Except Fault Nat
  | [] => return sofar
  | q :: rest => do
    let bits ← r.between start limit q
    r.checkCount (sofar + Word.ones bits)
    sum start limit (sofar + Word.ones bits) rest

/-- The number of set indices from `start` to `limit`, word by word. -/
def count (start limit : Nat) : Except Fault Nat :=
  if limit < start then .ok 0
  else
    let first := start / Word.width
    let last := limit / Word.width
    r.sum start limit 0 (List.range' first (last + 1 - first))

variable {r}

theorem read_eq_ok {q : Nat} (h : q < r.length) : r.read q = .ok (r.word q) := if_pos h

theorem checkIndex_eq_ok {i : Nat} (h : r.checked = true → i ≤ greatestIndex) : r.checkIndex i = .ok () :=
  if_neg fun hc => Nat.not_lt_of_le (h hc.1) hc.2

theorem checkCount_eq_ok {n : Nat} (h : r.checked = true → Value.Fits n) : r.checkCount n = .ok () :=
  if_neg fun hc => hc.2 (h hc.1)

/-! ### The scan upwards -/

section Seek

/-- The end of the word of a limit is an index. -/
def Room (r : Row) (limit : Nat) : Prop :=
  r.checked = true → (limit / Word.width + 1) * Word.width ≤ greatestIndex

/-- What is left of the word `q` in a scan upwards: the members from `start` on, of which there is none before it. -/
structure Ahead (r : Row) (start q : Nat) (bits : UInt64) : Prop where
  bit_eq : ∀ j, j < Word.width →
    Word.bit bits j = (decide (start ≤ q * Word.width + j) && has r.word (q * Word.width + j))
  before : ∀ k, start ≤ k → k < q * Word.width → has r.word k = false
  start_lt : start < (q + 1) * Word.width

theorem ahead_first (r : Row) (start : Nat) :
    r.Ahead start (start / Word.width) (Word.keepFrom (r.word (start / Word.width)) (start % Word.width)) := by
  have hmod := Nat.mod_lt start (show 0 < Word.width by decide)
  have hdiv := Nat.div_add_mod' start Word.width
  refine ⟨fun j hj => ?_, fun k hk hlt => by omega, by rw [Nat.succ_mul]; omega⟩
  rw [Word.bit_keepFrom hmod hj, has_of_block r.word _ hj]
  congr 1
  exact decide_eq_decide.mpr (by omega)

/-- What is left of a word tells about all places up to its end. -/
theorem Ahead.has_eq {start q : Nat} {bits : UInt64} (h : r.Ahead start q bits) {k : Nat} (hk : start ≤ k)
    (hlt : k < (q + 1) * Word.width) :
    has r.word k = (decide (q * Word.width ≤ k) && Word.bit bits (k - q * Word.width)) := by
  rcases Nat.lt_or_ge k (q * Word.width) with hb | hb
  · rw [h.before k hk hb, decide_eq_false (Nat.not_le_of_lt hb), Bool.false_and]
  · have hj : k - q * Word.width < Word.width := by rw [Nat.succ_mul] at hlt; omega
    rw [h.bit_eq _ hj, Nat.add_sub_cancel' hb, decide_eq_true hk, decide_eq_true hb, Bool.true_and, Bool.true_and]

/-- If nothing is left of a word, the scan goes on with the next one. -/
theorem Ahead.next {start q : Nat} (h : r.Ahead start q 0) : r.Ahead start (q + 1) (r.word (q + 1)) := by
  have hlt := h.start_lt
  refine ⟨fun j hj => ?_, fun k hk hlt => ?_, by rw [Nat.succ_mul]; omega⟩
  · rw [has_of_block r.word _ hj, decide_eq_true (by omega), Bool.true_and]
  · rw [h.has_eq hk hlt, Word.bit_zero, Bool.and_false]

/-- The least bit left of a word is the next member. -/
theorem Ahead.leastOf_eq {start limit q : Nat} {bits : UInt64} (h : r.Ahead start q bits) (hbits : bits ≠ 0)
    (hq : q ≤ limit / Word.width) (hroom : r.Room limit) :
    r.leastOf limit q bits = .ok (Words.next? r.word start limit) := by
  obtain ⟨hlt, hset, hbelow⟩ := Word.trailing_spec hbits
  have hi := h.bit_eq _ hlt
  rw [hset, eq_comm, Bool.and_eq_true, decide_eq_true_eq] at hi
  have hbefore : ∀ k, start ≤ k → k < q * Word.width + Word.trailing bits → has r.word k = false := by
    intro k hk hki
    rw [h.has_eq hk (by rw [Nat.succ_mul]; omega)]
    by_cases hb : q * Word.width ≤ k
    · rw [hbelow _ (by omega), Bool.and_false]
    · rw [decide_eq_false hb, Bool.false_and]
  have hfit : r.checkIndex (q * Word.width + Word.trailing bits) = .ok () := by
    refine checkIndex_eq_ok fun hc => ?_
    have := hroom hc
    simp only [Word.width] at *
    omega
  simp only [leastOf, hfit, ok_bind]
  refine congrArg Except.ok ?_
  split
  · rename_i hle
    exact (next?_eq_some_iff.mpr ⟨hi.1, hle, hi.2, hbefore⟩).symm
  · exact (next?_eq_none_iff.mpr fun k hk hkl => hbefore k hk (by omega)).symm

/-- **The loop upwards** finds what the scan bit by bit finds. -/
theorem seek_eq {start limit q : Nat} {bits : UInt64} (hroom : r.Room limit) (hlast : limit / Word.width < r.length)
    (h : r.Ahead start q bits) (hq : q * Word.width ≤ limit) :
    r.seek limit q bits = .ok (Words.next? r.word start limit) := by
  induction hn : limit - q * Word.width using Nat.strongRecOn generalizing q bits with
  | _ n ih =>
    have hql : q ≤ limit / Word.width := (Nat.le_div_iff_mul_le (by decide)).mpr hq
    have hqw := Nat.mul_le_mul_right Word.width (Nat.succ_le_succ hql)
    rw [seek]
    by_cases hbits : bits ≠ 0
    · exact (if_pos hbits).trans (h.leastOf_eq hbits hql hroom)
    · obtain rfl := Decidable.not_not.mp hbits
      have hfit : r.checkIndex ((q + 1) * Word.width) = .ok () :=
        checkIndex_eq_ok fun hc => Nat.le_trans hqw (hroom hc)
      rw [if_neg hbits, hfit, ok_bind]
      split
      · rename_i hlt
        refine congrArg Except.ok (next?_eq_none_iff.mpr fun k hk hkl => ?_).symm
        rw [h.has_eq hk (by omega), Word.bit_zero, Bool.and_false]
      · rename_i hge
        have hread : r.read (q + 1) = .ok (r.word (q + 1)) :=
          read_eq_ok (Nat.lt_of_le_of_lt ((Nat.le_div_iff_mul_le (by decide)).mpr (Nat.not_lt.mp hge)) hlast)
        rw [hread, ok_bind]
        have hsucc : (q + 1) * Word.width = q * Word.width + Word.width := Nat.succ_mul q Word.width
        have hw : 0 < Word.width := by decide
        exact ih _ (by omega) h.next (Nat.not_lt.mp hge) rfl

theorem next?_eq {start limit : Nat} (hroom : r.Room limit) (hlast : limit / Word.width < r.length) :
    r.next? start limit = .ok (Words.next? r.word start limit) := by
  rw [next?]
  split
  · rename_i hlt
    exact congrArg Except.ok (next?_eq_none_iff.mpr fun k hk hkl => by omega).symm
  · rename_i hge
    have hge := Nat.not_lt.mp hge
    rw [read_eq_ok (Nat.lt_of_le_of_lt (Nat.div_le_div_right hge) hlast), ok_bind]
    exact seek_eq hroom hlast (ahead_first r start)
      (Nat.le_trans (Nat.div_mul_le_self start Word.width) hge)

end Seek

/-! ### The scan downwards -/

section SeekBack

/-- What is left of the word `q` in a scan downwards: the members up to `start`, of which there is none after it. -/
structure Behind (r : Row) (start q : Nat) (bits : UInt64) : Prop where
  bit_eq : ∀ j, j < Word.width →
    Word.bit bits j = (decide (q * Word.width + j ≤ start) && has r.word (q * Word.width + j))
  after : ∀ k, k ≤ start → (q + 1) * Word.width ≤ k → has r.word k = false
  le_start : q * Word.width ≤ start

theorem behind_first (r : Row) (start : Nat) :
    r.Behind start (start / Word.width) (Word.keepUpTo (r.word (start / Word.width)) (start % Word.width)) := by
  have hmod := Nat.mod_lt start (show 0 < Word.width by decide)
  have hdiv := Nat.div_add_mod' start Word.width
  refine ⟨fun j hj => ?_, fun k hk hle => ?_, by omega⟩
  · rw [Word.bit_keepUpTo hmod hj, has_of_block r.word _ hj]
    congr 1
    exact decide_eq_decide.mpr (by omega)
  · rw [Nat.succ_mul] at hle
    omega

theorem Behind.has_eq {start q : Nat} {bits : UInt64} (h : r.Behind start q bits) {k : Nat} (hk : k ≤ start)
    (hle : q * Word.width ≤ k) :
    has r.word k = (decide (k < (q + 1) * Word.width) && Word.bit bits (k - q * Word.width)) := by
  rcases Nat.lt_or_ge k ((q + 1) * Word.width) with hb | hb
  · have hj : k - q * Word.width < Word.width := by rw [Nat.succ_mul] at hb; omega
    rw [h.bit_eq _ hj, Nat.add_sub_cancel' hle, decide_eq_true hk, decide_eq_true hb, Bool.true_and, Bool.true_and]
  · rw [h.after k hk hb, decide_eq_false (Nat.not_lt_of_le hb), Bool.false_and]

theorem Behind.next {start q : Nat} (h : r.Behind start (q + 1) 0) : r.Behind start q (r.word q) := by
  have hle := h.le_start
  have hsucc : (q + 1) * Word.width = q * Word.width + Word.width := Nat.succ_mul q Word.width
  refine ⟨fun j hj => ?_, fun k hk hle => ?_, by omega⟩
  · rw [has_of_block r.word _ hj, decide_eq_true (by omega), Bool.true_and]
  · rw [h.has_eq hk hle, Word.bit_zero, Bool.and_false]

/-- The greatest bit left of a word is the previous member. -/
theorem Behind.greatestOf_eq {start low q : Nat} {bits : UInt64} (h : r.Behind start q bits) (hbits : bits ≠ 0)
    (hroom : r.checked = true → start ≤ greatestIndex) :
    r.greatestOf low q bits = .ok (Words.previous? r.word start low) := by
  obtain ⟨hlt, hset, habove⟩ := Word.leading_spec hbits
  have hi := h.bit_eq (Word.width - 1 - Word.leading bits) (by omega)
  rw [hset, eq_comm, Bool.and_eq_true, decide_eq_true_eq] at hi
  have hafter : ∀ k, q * Word.width + (Word.width - 1 - Word.leading bits) < k → k ≤ start →
      has r.word k = false := by
    intro k hik hk
    rw [h.has_eq hk (by omega)]
    by_cases hb : k < (q + 1) * Word.width
    · rw [habove _ (by omega) (by rw [Nat.succ_mul] at hb; omega), Bool.and_false]
    · rw [decide_eq_false hb, Bool.false_and]
  simp only [greatestOf, if_pos hlt, checkIndex_eq_ok fun hc => Nat.le_trans hi.1 (hroom hc), ok_bind]
  refine congrArg Except.ok ?_
  split
  · rename_i hle
    exact (previous?_eq_some_iff.mpr ⟨hle, hi.1, hi.2, hafter⟩).symm
  · exact (previous?_eq_none_iff.mpr fun k hlk hk => hafter k (by omega) hk).symm

/-- **The loop downwards** finds what the scan bit by bit finds. -/
theorem seekBack_eq {start low q : Nat} {bits : UInt64} (hroom : r.checked = true → start ≤ greatestIndex)
    (hlength : start / Word.width < r.length) (h : r.Behind start q bits) :
    r.seekBack low q bits = .ok (Words.previous? r.word start low) := by
  induction q generalizing bits with
  | zero =>
    rw [seekBack.eq_def]
    by_cases hbits : bits ≠ 0
    · exact (if_pos hbits).trans (h.greatestOf_eq hbits hroom)
    · obtain rfl := Decidable.not_not.mp hbits
      refine (if_neg hbits).trans (congrArg Except.ok (previous?_eq_none_iff.mpr fun k _ hk => ?_).symm)
      rw [h.has_eq hk (by omega), Word.bit_zero, Bool.and_false]
  | succ q ih =>
    rw [seekBack.eq_def]
    by_cases hbits : bits ≠ 0
    · exact (if_pos hbits).trans (h.greatestOf_eq hbits hroom)
    · obtain rfl := Decidable.not_not.mp hbits
      have hle := h.le_start
      have hfit : r.checkIndex ((q + 1) * Word.width) = .ok () :=
        checkIndex_eq_ok fun hc => Nat.le_trans hle (hroom hc)
      have hread : r.read q = .ok (r.word q) := by
        refine read_eq_ok (Nat.lt_of_le_of_lt ((Nat.le_div_iff_mul_le (by decide)).mpr ?_) hlength)
        rw [Nat.succ_mul] at hle
        omega
      rw [if_neg hbits]
      simp only [hfit, hread, ok_bind]
      split
      · rename_i hlow
        refine congrArg Except.ok (previous?_eq_none_iff.mpr fun k hlk hk => ?_).symm
        rw [h.has_eq hk (by omega), Word.bit_zero, Bool.and_false]
      · exact ih h.next

theorem previous?_eq {start low : Nat} (hroom : r.checked = true → start ≤ greatestIndex)
    (hlength : start / Word.width < r.length) :
    r.previous? start low = .ok (Words.previous? r.word start low) := by
  rw [previous?]
  split
  · rename_i hlt
    exact congrArg Except.ok (previous?_eq_none_iff.mpr fun k hk hkl => by omega).symm
  · rename_i hge
    rw [read_eq_ok hlength, ok_bind]
    exact seekBack_eq hroom hlength (behind_first r start)

end SeekBack

/-! ### The count -/

section Count

/-- The index is set and lies within the limits. -/
def counts (r : Row) (start limit k : Nat) : Bool := decide (start ≤ k) && decide (k ≤ limit) && has r.word k

/-- Cutting off the first word cuts off what is before `start`. -/
theorem bit_first {w : UInt64} {start q j : Nat} (hq : start / Word.width ≤ q) (hj : j < Word.width) :
    Word.bit (if q = start / Word.width then Word.keepFrom w (start % Word.width) else w) j =
      (decide (start ≤ q * Word.width + j) && Word.bit w j) := by
  have hdiv := Nat.div_add_mod' start Word.width
  have hmod := Nat.mod_lt start (show 0 < Word.width by decide)
  split
  · rename_i heq
    rw [Word.bit_keepFrom hmod hj, heq]
    congr 1
    exact decide_eq_decide.mpr (by omega)
  · have := Nat.mul_le_mul_right Word.width (show start / Word.width + 1 ≤ q by omega)
    rw [Nat.succ_mul] at this
    rw [decide_eq_true (by omega), Bool.true_and]

/-- Cutting off the last word cuts off what is after `limit`. -/
theorem bit_last {w : UInt64} {limit q j : Nat} (hq : q ≤ limit / Word.width) (hj : j < Word.width) :
    Word.bit (if q = limit / Word.width then Word.keepUpTo w (limit % Word.width) else w) j =
      (decide (q * Word.width + j ≤ limit) && Word.bit w j) := by
  have hdiv := Nat.div_add_mod' limit Word.width
  have hmod := Nat.mod_lt limit (show 0 < Word.width by decide)
  split
  · rename_i heq
    rw [Word.bit_keepUpTo hmod hj, heq]
    congr 1
    exact decide_eq_decide.mpr (by omega)
  · have := Nat.mul_le_mul_right Word.width (show q + 1 ≤ limit / Word.width by omega)
    rw [Nat.succ_mul] at this
    rw [decide_eq_true (by omega), Bool.true_and]

/-- What lies of a word between the limits. -/
theorem between_spec {start limit q : Nat} (hstart : start / Word.width ≤ q) (hlimit : q ≤ limit / Word.width)
    (hlength : q < r.length) : ∃ bits, r.between start limit q = .ok bits ∧
      Word.ones bits = (List.range' (q * Word.width) Word.width).countP (r.counts start limit) := by
  refine ⟨_, by rw [between, read_eq_ok hlength]; rfl, ?_⟩
  rw [Word.ones_eq_countP, List.range'_eq_map_range, List.countP_map]
  refine List.countP_congr fun j hj => ?_
  have hj := List.mem_range.mp hj
  rw [bit_last hlimit hj, bit_first hstart hj, Function.comp, counts, has_of_block r.word q hj, ← Bool.and_assoc,
    Bool.and_comm (decide (start ≤ _))]

/-- **The loop of the count** adds up the words. -/
theorem sum_eq (sofar : Nat) {start limit q n : Nat} (hstart : start / Word.width ≤ q)
    (hlimit : q + n ≤ limit / Word.width + 1) (hlength : limit / Word.width < r.length)
    (hroom : r.checked = true →
      Value.Fits ↑(sofar + (List.range' (q * Word.width) (n * Word.width)).countP (r.counts start limit))) :
    r.sum start limit sofar (List.range' q n) =
      .ok (sofar + (List.range' (q * Word.width) (n * Word.width)).countP (r.counts start limit)) := by
  induction n generalizing q sofar with
  | zero =>
    rw [Nat.zero_mul]
    rfl
  | succ n ih =>
    obtain ⟨bits, hbits, hones⟩ := r.between_spec hstart (show q ≤ limit / Word.width by omega) (by omega)
    have hsplit : (List.range' (q * Word.width) ((n + 1) * Word.width)).countP (r.counts start limit) =
        Word.ones bits + (List.range' ((q + 1) * Word.width) (n * Word.width)).countP (r.counts start limit) := by
      rw [Nat.succ_mul, Nat.add_comm, ← List.range'_append, List.countP_append, hones, Nat.one_mul, Nat.succ_mul]
    rw [hsplit] at hroom ⊢
    have hfit : r.checkCount (sofar + Word.ones bits) = .ok () := by
      refine checkCount_eq_ok fun hc => ?_
      have := hroom hc
      simp only [Value.Fits, Value.least, Value.greatest] at this ⊢
      omega
    rw [List.range'_succ, sum, hbits, ok_bind, hfit, ok_bind, ← Nat.add_assoc]
    rw [← Nat.add_assoc] at hroom
    exact ih _ (by omega) (by omega) hroom

/-- The members between the limits are in the words from that of the first to that of the last. -/
theorem countP_counts {start limit : Nat} (h : start ≤ limit) :
    (List.range' (start / Word.width * Word.width)
      ((limit / Word.width + 1 - start / Word.width) * Word.width)).countP (r.counts start limit) =
      Words.count r.word start limit := by
  have hs := Nat.div_add_mod' start Word.width
  have hl := Nat.div_add_mod' limit Word.width
  have hmod := Nat.mod_lt limit (show 0 < Word.width by decide)
  have hsplit : (limit / Word.width + 1 - start / Word.width) * Word.width =
      start % Word.width + ((limit + 1 - start) + (Word.width - 1 - limit % Word.width)) := by
    rw [Nat.sub_mul, Nat.succ_mul]
    omega
  have hout : ∀ i n, (∀ k, i ≤ k → k < i + n → ¬(start ≤ k ∧ k ≤ limit)) →
      (List.range' i n).countP (r.counts start limit) = 0 := by
    intro i n hk
    refine List.countP_eq_zero.mpr fun k hmem hc => ?_
    rw [List.mem_range'_1] at hmem
    rw [counts, Bool.and_eq_true, Bool.and_eq_true, decide_eq_true_eq, decide_eq_true_eq] at hc
    exact hk k hmem.1 hmem.2 hc.1
  rw [hsplit, ← List.range'_append_1, ← List.range'_append_1, List.countP_append, List.countP_append,
    hout _ (start % Word.width) (by intro k h1 h2; omega),
    hout _ (Word.width - 1 - limit % Word.width) (by intro k h1 h2; omega), Nat.zero_add, Nat.add_zero, hs,
    Words.count_eq_countP]
  refine List.countP_congr fun k hk => ?_
  rw [List.mem_range'_1] at hk
  rw [counts, decide_eq_true hk.1, decide_eq_true (show k ≤ limit by omega), Bool.true_and, Bool.true_and]

theorem count_eq {start limit : Nat} (hlength : limit / Word.width < r.length)
    (hroom : r.checked = true → Value.Fits (Words.count r.word start limit)) :
    r.count start limit = .ok (Words.count r.word start limit) := by
  rw [count]
  split
  · rename_i hlt
    rw [Words.count, if_neg (Nat.not_le_of_lt hlt)]
  · rename_i hge
    have hge := Nat.not_lt.mp hge
    have hdiv := Nat.div_le_div_right (c := Word.width) hge
    have hsum := countP_counts (r := r) hge
    rw [← hsum] at hroom ⊢
    have hrun := r.sum_eq 0 (n := limit / Word.width + 1 - start / Word.width) (Nat.le_refl (start / Word.width))
      (by omega) hlength (by rwa [Nat.zero_add])
    rwa [Nat.zero_add] at hrun

end Count

/-! ### Exactness -/

/-- The members of a row between two limits. -/
def members (r : Row) (low high : Nat) : Set Nat := {k | low ≤ k ∧ k ≤ high ∧ has r.word k = true}

theorem members_eq_empty_iff {low high : Nat} :
    r.members low high = ∅ ↔ ∀ k, low ≤ k → k ≤ high → has r.word k = false := by
  refine ⟨fun h k hl hh => Bool.eq_false_iff.mpr fun hset => ?_, fun h => Set.ext fun k => ?_⟩
  · have hk : k ∈ r.members low high := ⟨hl, hh, hset⟩
    rw [h] at hk
    exact hk
  · refine ⟨fun ⟨hl, hh, hset⟩ => ?_, False.elim⟩
    rw [h k hl hh] at hset
    cases hset

theorem next?_eq_some_iff_isLeast {start limit i : Nat} :
    Words.next? r.word start limit = some i ↔ IsLeast (r.members start limit) i := by
  rw [next?_eq_some_iff]
  constructor
  · rintro ⟨hs, hl, hi, hbefore⟩
    refine ⟨⟨hs, hl, hi⟩, fun k ⟨hk, _, hset⟩ => Nat.le_of_not_lt fun hlt => ?_⟩
    rw [hbefore k hk hlt] at hset
    cases hset
  · rintro ⟨⟨hs, hl, hi⟩, hleast⟩
    refine ⟨hs, hl, hi, fun k hk hlt => Bool.eq_false_iff.mpr fun hset => ?_⟩
    exact absurd (hleast ⟨hk, by omega, hset⟩) (Nat.not_le_of_lt hlt)

theorem previous?_eq_some_iff_isGreatest {start low i : Nat} :
    Words.previous? r.word start low = some i ↔ IsGreatest (r.members low start) i := by
  rw [previous?_eq_some_iff]
  constructor
  · rintro ⟨hl, hs, hi, hafter⟩
    refine ⟨⟨hl, hs, hi⟩, fun k ⟨_, hk, hset⟩ => Nat.le_of_not_lt fun hlt => ?_⟩
    rw [hafter k hlt hk] at hset
    cases hset
  · rintro ⟨⟨hl, hs, hi⟩, hgreatest⟩
    refine ⟨hl, hs, hi, fun k hlt hk => Bool.eq_false_iff.mpr fun hset => ?_⟩
    exact absurd (hgreatest ⟨by omega, hk, hset⟩) (Nat.not_le_of_lt hlt)

/-- **The scans are exact.** Between any two indices of a row the scan upwards finds the least member and the scan
downwards the greatest one, if there is any, and the count is the number of members, whatever else the row holds. Only
in checked arithmetic it matters that the row fits a memory. -/
theorem scans_exact (hchecked : r.checked = true → r.length < manyWords) (i j : Nat)
    (hi : i < r.length * Word.width) (hj : j < r.length * Word.width) :
    (∃ o, r.next? i j = .ok o ∧ o = Words.next? r.word i j ∧
      (∀ k, o = some k ↔ IsLeast (r.members i j) k) ∧ (o = none ↔ r.members i j = ∅)) ∧
    (∃ o, r.previous? i j = .ok o ∧ o = Words.previous? r.word i j ∧
      (∀ k, o = some k ↔ IsGreatest (r.members j i) k) ∧ (o = none ↔ r.members j i = ∅)) ∧
    r.count i j = .ok (Words.count r.word i j) ∧
    Words.count r.word i j = (List.range' i (j + 1 - i)).countP (has r.word) ∧ (j < i → r.count i j = .ok 0) := by
  have hi' : i < r.length * 64 := hi
  have hj' : j < r.length * 64 := hj
  have hfirst : i / Word.width < r.length := (Nat.div_lt_iff_lt_mul (by decide)).mpr hi
  have hlast : j / Word.width < r.length := (Nat.div_lt_iff_lt_mul (by decide)).mpr hj
  have hroom : r.Room j := by
    intro hc
    have hmany := hchecked hc
    have := Nat.mul_le_mul_right 64 hlast
    rw [manyWords] at hmany
    rw [greatestIndex]
    show (j / Word.width).succ * 64 ≤ _
    omega
  have hcount : r.checked = true → Value.Fits (Words.count r.word i j) := by
    intro hc
    have hmany := hchecked hc
    rw [manyWords] at hmany
    have hle : Words.count r.word i j ≤ j + 1 - i := by
      rw [Words.count_eq_countP]
      exact Nat.le_trans List.countP_le_length (Nat.le_of_eq List.length_range')
    simp only [Value.Fits, Value.least, Value.greatest]
    omega
  have hprevious : r.checked = true → i ≤ greatestIndex := by
    intro hc
    have hmany := hchecked hc
    rw [manyWords] at hmany
    rw [greatestIndex]
    omega
  exact ⟨⟨_, next?_eq hroom hlast, rfl, fun k => next?_eq_some_iff_isLeast,
      next?_eq_none_iff.trans r.members_eq_empty_iff.symm⟩,
    ⟨_, previous?_eq hprevious hfirst, rfl, fun k => previous?_eq_some_iff_isGreatest,
      previous?_eq_none_iff.trans r.members_eq_empty_iff.symm⟩,
    r.count_eq hlast hcount, Words.count_eq_countP r.word i j, fun hlt => if_pos hlt⟩

/-- Two words, with bits set at both ends and on both sides of the border between them, in the checked arithmetic. -/
theorem scans_exact_across_border :
    let r : Row := ⟨2, fun q => if q = 0 then 0x8000000000000001 else 0x8000000000000002, true⟩
    r.next? 1 127 = .ok (some 63) ∧ r.next? 64 64 = .ok none ∧ r.previous? 126 1 = .ok (some 65) ∧
      r.count 1 126 = .ok 2 := by
  intro r
  have h := r.scans_exact (fun _ => show 2 < manyWords by decide)
  obtain ⟨⟨_, hnext, rfl, -⟩, -⟩ := h 1 127 (by decide) (by decide)
  obtain ⟨⟨_, hnone, rfl, -⟩, -⟩ := h 64 64 (by decide) (by decide)
  obtain ⟨-, ⟨_, hprevious, rfl, -⟩, -⟩ := h 126 1 (by decide) (by decide)
  obtain ⟨-, -, hcount, -⟩ := h 1 126 (by decide) (by decide)
  rw [hnext, hnone, hprevious, hcount]
  exact ⟨congrArg Except.ok (by decide +kernel), congrArg Except.ok (by decide +kernel),
    congrArg Except.ok (by decide +kernel), congrArg Except.ok (by decide +kernel)⟩

end Row

end Words

end FiniteDomain
