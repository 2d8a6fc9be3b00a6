import FiniteDomain.Proofs.Matching
import FiniteDomain.Proofs.Store.Steps

/-!
# Stores with a gap

A store *echoes* another if, world by world, it holds the same in the same cells up to some base, and has further
cells from there on that the other does not have, behind which the rest follows.

* `Leap`: numbers that leap over a gap;
* `Store.Echoes`: stores that hold the same up to a leap, with a lemma per operation.
-/

namespace FiniteDomain

/-- From the base on, numbers leap over a gap. -/
structure Leap where
  base : Nat
  gap : Nat

namespace Leap

variable {l : Leap} {i j : Nat}

/-- Where a number comes to. -/
def across (l : Leap) (i : Nat) : Nat := if i < l.base then i else i + l.gap

theorem across_of_lt (h : i < l.base) : l.across i = i := if_pos h

theorem across_of_le (h : l.base ≤ i) : l.across i = i + l.gap := if_neg (Nat.not_lt.mpr h)

@[simp] theorem across_inj : l.across i = l.across j ↔ i = j := by
  unfold across
  split <;> split <;> omega

theorem across_lt_across : l.across i < l.across j ↔ i < j := by
  unfold across
  split <;> split <;> omega

/-- Over no gap numbers stay where they are. -/
theorem across_of_gap_eq_zero (h : l.gap = 0) (i : Nat) : l.across i = i := by
  unfold across
  split <;> omega

/-- What is not in the gap is come to. -/
theorem exists_of_not_mem_gap (h : ¬(l.base ≤ j ∧ j < l.base + l.gap)) : ∃ i, l.across i = j := by
  by_cases hj : j < l.base
  · exact ⟨j, across_of_lt hj⟩
  · refine ⟨j - l.gap, ?_⟩
    rw [across_of_le] <;> omega

end Leap

namespace Store

theorem get?_set (s : Store Datum) (c d : Nat) (v : Datum) :
    (s.set c v).get? d = if d = c then (s.get? c).map fun old => if old == v then old else v else s.get? d := by
  by_cases hd : d = c
  · subst hd
    rw [if_pos rfl, get?, get?, set]
    split
    · rename_i hnone
      simp [hnone]
    · rename_i old hold
      have hlt := (Array.getElem?_eq_some_iff.mp hold).1
      split
      · rename_i heq
        simp [hold, heq]
      · rename_i hne
        simp only [hold, Array.getElem?_setIfInBounds_self_of_lt hlt, Option.map_some, if_neg hne]
  · rw [if_neg hd, get?_set_of_ne s (fun h => hd h.symm)]

/-- The second store holds the same, world by world, in cells that leap over a gap. -/
structure Echoes (l : Leap) (s s' : Store Datum) : Prop where
  linked : s.Linked
  linked' : s'.Linked
  world_eq : s'.world = s.world
  reaches : l.base ≤ s.slots.size
  size_eq : s'.slots.size = s.slots.size + l.gap
  levels : ∀ j t t', s.popMany j = .ok t → s'.popMany j = .ok t' → ∀ c, t'.get? (l.across c) = t.get? c

theorem get?_of_le {s : Store Datum} {c : Nat} (h : s.slots.size ≤ c) : s.get? c = none := by
  rw [get?, Array.getElem?_eq_none h]
  rfl

namespace Echoes

variable {l : Leap} {s s' t : Store Datum}

theorem get?_eq (h : s.Echoes l s') (c : Nat) : s'.get? (l.across c) = s.get? c := h.levels 0 s s' rfl rfl c

theorem get?_of_lt (h : s.Echoes l s') {c : Nat} (hc : c < l.base) : s'.get? c = s.get? c := by
  have heq := h.get?_eq c
  rw [Leap.across_of_lt hc] at heq
  exact heq

theorem flag_eq (h : s.Echoes l s') (c : Nat) : s'.flag (l.across c) = s.flag c := by rw [flag, flag, h.get?_eq]

/-- With cells more a store echoes what it was. -/
theorem of_grow (h : s.Linked) (values : List Datum) : s.Echoes ⟨s.slots.size, values.length⟩ (s.grow values) := by
  refine ⟨h, h.grow values, world_grow s values, Nat.le_refl _, size_slots_grow s values, ?_⟩
  intro j t t' ht ht' c
  rw [h.popMany_grow, ht] at ht'
  cases ht'
  have hsize := (h.popMany_spec ht).2.2
  by_cases hc : c < t.slots.size
  · rw [Leap.across_of_lt (hsize ▸ hc), get?_grow_of_lt hc]
  · have hc := Nat.le_of_not_lt hc
    rw [Leap.across_of_le (hsize ▸ hc), get?_of_le hc, get?_of_le]
    rw [size_slots_grow]
    exact Nat.add_le_add_right hc _

/-- Over no gap a store echoes itself. -/
theorem refl (h : s.Linked) {base : Nat} (hbase : base ≤ s.slots.size) : s.Echoes ⟨base, 0⟩ s := by
  refine ⟨h, h, rfl, hbase, rfl, ?_⟩
  intro j t t' ht ht' c
  cases ht.symm.trans ht'
  rw [Leap.across_of_gap_eq_zero rfl]

theorem push (h : s.Echoes l s') : s.push.Echoes l s'.push := by
  refine ⟨h.linked.push, h.linked'.push, ?_, h.reaches, h.size_eq, ?_⟩
  · rw [world_push, world_push, h.world_eq]
  · intro j t t' ht ht' c
    cases j with
    | zero =>
      cases ht
      cases ht'
      exact h.get?_eq c
    | succ j =>
      rw [popMany_succ, h.linked.pop_push] at ht
      rw [popMany_succ, h.linked'.pop_push] at ht'
      exact h.levels j t t' ht ht' c

theorem popMany (h : s.Echoes l s') (k : Nat) : Matches (Echoes l) (s.popMany k) (s'.popMany k) := by
  intro t ht
  obtain ⟨hlinked, hworld, hsize⟩ := h.linked.popMany_spec ht
  obtain ⟨t', ht', hlinked', hworld', hsize'⟩ := h.linked'.exists_popMany (n := k) (by rw [h.world_eq]; omega)
  refine ⟨t', ht', hlinked, hlinked', ?_, hsize ▸ h.reaches, ?_, ?_⟩
  · have := h.world_eq
    omega
  · rw [hsize', h.size_eq, hsize]
  · intro j u u' hu hu' c
    refine h.levels (k + j) u u' ?_ ?_ c
    · rw [popMany_add, ht]
      exact hu
    · rw [popMany_add, ht']
      exact hu'

theorem pop (h : s.Echoes l s') : Matches (Echoes l) s.pop s'.pop := by
  have hone : ∀ s : Store Datum, s.popMany 1 = s.pop := by
    intro s
    rw [popMany_succ]
    cases s.pop <;> rfl
  rw [← hone, ← hone]
  exact h.popMany 1

theorem popUntil (h : s.Echoes l s') (target : Nat) :
    Matches (Echoes l) (s.popUntil target) (s'.popUntil target) := by
  rw [Store.popUntil, Store.popUntil, h.world_eq]
  split
  · exact h.popMany _
  · exact .error

theorem grow (h : s.Echoes l s') (values : List Datum) : (s.grow values).Echoes l (s'.grow values) := by
  refine ⟨h.linked.grow values, h.linked'.grow values, h.world_eq, ?_, ?_, ?_⟩
  · rw [size_slots_grow]
    exact Nat.le_add_right_of_le h.reaches
  · rw [size_slots_grow, size_slots_grow, h.size_eq]
    omega
  · intro j t t' ht ht' c
    rw [h.linked.popMany_grow] at ht
    rw [h.linked'.popMany_grow] at ht'
    obtain ⟨u, hu, rfl⟩ := map_eq_ok.mp ht
    obtain ⟨u', hu', rfl⟩ := map_eq_ok.mp ht'
    have hsize := (h.linked.popMany_spec hu).2.2
    have hsize' := (h.linked'.popMany_spec hu').2.2
    have hreaches := h.reaches
    have hgap := h.size_eq
    by_cases hc : c < s.slots.size
    · have hlt : l.across c < u'.slots.size := by
        rw [hsize', hgap, Leap.across]
        split <;> omega
      rw [get?_grow_of_lt hlt, get?_grow_of_lt (hsize ▸ hc), h.levels j u u' hu hu' c]
    · -- a new cell stands behind the gap
      obtain ⟨i, rfl⟩ := Nat.exists_eq_add_of_le (Nat.le_of_not_lt hc)
      rw [Leap.across_of_le (by omega)]
      by_cases hi : i < values.length
      · have hnew := get?_grow_add u hi
        have hnew' := get?_grow_add u' hi
        rw [hsize] at hnew
        rw [hsize', hgap] at hnew'
        rw [hnew, ← hnew']
        congr 1
        omega
      · rw [get?_of_le, get?_of_le] <;> rw [size_slots_grow] <;> omega

theorem set (h : s.Echoes l s') (c : Nat) (v : Datum) : (s.set c v).Echoes l (s'.set (l.across c) v) := by
  refine ⟨h.linked.set c v, h.linked'.set _ v, ?_, ?_, ?_, ?_⟩
  · rw [world_set, world_set, h.world_eq]
  · rw [size_slots_set]
    exact h.reaches
  · rw [size_slots_set, size_slots_set, h.size_eq]
  · intro j t t' ht ht' d
    cases j with
    | zero =>
      cases ht
      cases ht'
      simp only [get?_set, h.get?_eq, Leap.across_inj]
    | succ j =>
      -- below the current world the write leaves nothing
      rw [popMany_succ] at ht ht'
      obtain ⟨u, hu, -⟩ := bind_eq_ok.mp ht
      have hpos : 0 < s.world := world_set s c v ▸ world_pos_of_pop hu
      rw [h.linked.pop_set hpos, ← popMany_succ] at ht
      rw [h.linked'.pop_set (h.world_eq ▸ hpos), ← popMany_succ] at ht'
      exact h.levels (j + 1) t t' ht ht' d

/-- In a cell below the base. -/
theorem set_of_lt (h : s.Echoes l s') {c : Nat} (hc : c < l.base) (v : Datum) : (s.set c v).Echoes l (s'.set c v) := by
  have hset := h.set c v
  rw [Leap.across_of_lt hc] at hset
  exact hset

theorem commit (h : s.Echoes l s') : Matches (Echoes l) s.commit s'.commit := by
  intro t ht
  have hpos := world_pos_of_commit ht
  obtain ⟨t', ht', hlinked', hworld', hsize'⟩ := h.linked'.exists_commit (h.world_eq ▸ hpos)
  obtain ⟨u, hu, hlinked, hworld, hsize⟩ := h.linked.exists_commit hpos
  cases ht.symm.trans hu
  have heq := h.world_eq
  refine ⟨t', ht', hlinked, hlinked', by omega, hsize ▸ h.reaches, by rw [hsize', h.size_eq, hsize], ?_⟩
  intro j u u' hu hu' c
  cases j with
  | zero =>
    cases hu
    cases hu'
    rw [get?_commit ht', get?_commit ht, h.get?_eq]
  | succ j =>
    rw [popMany_succ] at hu hu'
    obtain ⟨w, hw, -⟩ := bind_eq_ok.mp hu
    have hpos := world_pos_of_pop hw
    rw [h.linked.pop_commit (by omega) ht, bind_assoc] at hu
    rw [h.linked'.pop_commit (by omega) ht', bind_assoc] at hu'
    exact h.levels (j + 2) u u' hu hu' c

end Echoes

end Store

end FiniteDomain
