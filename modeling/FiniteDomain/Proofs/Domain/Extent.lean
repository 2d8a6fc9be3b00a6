import FiniteDomain.Proofs.Domain.WellFormed

/-!
# The size of a domain

The number that is kept for the size of an enumerated domain is the number of its values. That of an interval is
computed from its bounds and cut off at the greatest value (`WellFormed.size_eq_length`).
-/

namespace FiniteDomain

/-- Two lists in increasing order with the same members have the same length. -/
theorem length_eq_of_increasing {a b : List Int} (ha : a.Pairwise (· < ·)) (hb : b.Pairwise (· < ·))
    (h : ∀ v, v ∈ a ↔ v ∈ b) : a.length = b.length :=
  ((List.perm_ext_iff_of_nodup (ha.imp fun hlt => Int.ne_of_lt hlt) (hb.imp fun hlt => Int.ne_of_lt hlt)).mpr
    h).length_eq

/-- The places from one to another that are left, counted by their values. -/
theorem Universe.Ordered.count_eq_length {u : Universe} (hu : u.Ordered) {words : Nat → UInt64} {i j : Nat}
    (hj : j < u.length) {vs : List Int} (hs : vs.Pairwise (· < ·))
    (hmem : ∀ v, v ∈ vs ↔ ∃ k, i ≤ k ∧ k ≤ j ∧ u.valueAt? k = some v ∧ Words.has words k = true) :
    Words.count words i j = vs.length := by
  let places := (List.range' i (j + 1 - i)).filter (Words.has words)
  let valueOf := fun k => (u.valueAt? k).getD 0
  have hplace : ∀ k, k ∈ places ↔ i ≤ k ∧ k ≤ j ∧ Words.has words k = true := by
    intro k
    rw [List.mem_filter, List.mem_range'_1]
    exact ⟨fun ⟨⟨h1, h2⟩, hb⟩ => ⟨h1, by omega, hb⟩, fun ⟨h1, h2, hb⟩ => ⟨⟨h1, by omega⟩, hb⟩⟩
  have hvalue : ∀ k, k ≤ j → u.valueAt? k = some (valueOf k) := by
    intro k hk
    obtain ⟨v, hv⟩ := exists_valueAt (Nat.lt_of_le_of_lt hk hj)
    rw [hv]
    exact congrArg some (by rw [show valueOf k = v from congrArg (·.getD 0) hv])
  have hsorted : (places.map valueOf).Pairwise (· < ·) := by
    refine List.pairwise_map.mpr ((List.Pairwise.filter _ List.pairwise_lt_range').imp_of_mem ?_)
    intro k l hk hl hlt
    exact hu.strict k l _ _ (hvalue k ((hplace k).mp hk).2.1) (hvalue l ((hplace l).mp hl).2.1) hlt
  rw [Words.count_eq_countP, List.countP_eq_length_filter]
  refine (List.length_map valueOf).symm.trans (length_eq_of_increasing hsorted hs fun v => ?_)
  rw [hmem, List.mem_map]
  constructor
  · rintro ⟨k, hk, rfl⟩
    obtain ⟨h1, h2, hb⟩ := (hplace k).mp hk
    exact ⟨k, h1, h2, hvalue k h2, hb⟩
  · rintro ⟨k, h1, h2, hk, hb⟩
    exact ⟨k, (hplace k).mpr ⟨h1, h2, hb⟩, Option.some.inj ((hvalue k h2).symm.trans hk)⟩

namespace Domain

/-- The size is the number of values, of an interval as far as it can be told. -/
theorem WellFormed.size_eq_length {d : Domain} {s : Store Datum} (h : d.WellFormed s) {vs : List Int}
    (hs : vs.Pairwise (· < ·)) (hmem : ∀ v, v ∈ vs ↔ d.Has s v) :
    d.size s = if d.isEnumerated then (vs.length : Int) else min (vs.length : Int) Value.greatest := by
  cases hm : d.members with
  | none =>
    have hle := h.lb_le_ub
    let interval : List Int := (List.range (d.ub s - d.lb s + 1).toNat).map fun (i : Nat) => d.lb s + (i : Int)
    have hsorted : interval.Pairwise (· < ·) :=
      List.pairwise_map.mpr (List.pairwise_lt_range.imp fun hlt => by omega)
    have hlen : vs.length = (d.ub s - d.lb s + 1).toNat := by
      rw [length_eq_of_increasing hs hsorted, List.length_map, List.length_range]
      intro v
      rw [hmem, List.mem_map]
      constructor
      · intro hv
        have h1 := h.lb_le hv
        have h2 := h.le_ub hv
        exact ⟨(v - d.lb s).toNat, List.mem_range.mpr (by omega), by omega⟩
      · rintro ⟨i, hi, rfl⟩
        have hi := List.mem_range.mp hi
        exact h.has_of_bounded hm (by omega) (by omega)
    have hfits := h.fits_lb
    have hfits' := h.fits_ub
    simp only [size, hm, isEnumerated, Option.isSome_none, hlen, Bool.false_eq_true, if_false]
    simp only [Value.clamp, Value.Fits, Value.least, Value.greatest] at *
    omega
  | some m =>
    obtain ⟨i, j, hi, hj, -⟩ := h.exists_places hm
    have hcount : Words.count (m.row s) i j = vs.length :=
      (h.shaped.members m hm).ordered.count_eq_length (Universe.lt_length hj) hs fun v => ?_
    · simp only [size, hm, isEnumerated, Option.isSome_some, if_true, h.size_eq m i j hm hi hj, hcount]
    · rw [hmem]
      constructor
      · intro hv
        obtain ⟨k, hk⟩ := h.exists_place hm hv
        obtain ⟨h1, h2, hb⟩ := (h.has_iff_of_members hm hi hj hk).mp hv
        exact ⟨k, h1, h2, hk, hb⟩
      · rintro ⟨k, h1, h2, hk, hb⟩
        exact (h.has_iff_of_members hm hi hj hk).mpr ⟨h1, h2, hb⟩

end Domain

end FiniteDomain
