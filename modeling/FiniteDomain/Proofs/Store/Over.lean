import FiniteDomain.Proofs.Store.Steps

/-!
# Stores above a base

Some worlds above a base a store may be written, grow, and open, close and commit worlds of its own: once as many
worlds are closed as are open above the base, it is the base again, with some cells more.
-/

namespace FiniteDomain

namespace Store

/-- Closing so many worlds comes back to the base, with some cells more. -/
structure Over (base : Store Datum) (k : Nat) (s : Store Datum) : Prop where
  linked : s.Linked
  returns : ∃ values, s.popMany k = .ok (base.grow values)

namespace Over

variable {base s t : Store Datum} {j k : Nat} {P : Nat → Prop}

theorem refl (h : base.Linked) : base.Over 0 base := ⟨h, [], by simp [popMany, grow]⟩

theorem world_eq (h : base.Over k s) : s.world = base.world + k := by
  obtain ⟨values, hp⟩ := h.returns
  rw [← (h.linked.popMany_spec hp).2.1, world_grow]

theorem grow (h : base.Over k s) (values : List Datum) : base.Over k (s.grow values) := by
  obtain ⟨old, hp⟩ := h.returns
  exact ⟨h.linked.grow values, old ++ values, by rw [h.linked.popMany_grow, hp]; exact congrArg _ (grow_grow _ _ _)⟩

theorem push (h : base.Over k s) : base.Over (k + 1) s.push := by
  obtain ⟨values, hp⟩ := h.returns
  exact ⟨h.linked.push, values, by rw [popMany_succ, h.linked.pop_push]; exact hp⟩

/-- Nothing that is written above the base is left at the base. -/
theorem writes (h : base.Over (k + 1) s) (hw : Writes P s t) : base.Over (k + 1) t := by
  obtain ⟨values, hp⟩ := h.returns
  have hpos : 0 < s.world := by
    have := h.world_eq
    omega
  refine ⟨hw.linked h.linked, values, ?_⟩
  rw [popMany_succ, hw.pop_eq h.linked hpos, ← popMany_succ]
  exact hp

/-- Worlds above the base can be closed. -/
theorem exists_popMany (h : base.Over (k + j) s) : ∃ t, s.popMany k = .ok t ∧ base.Over j t := by
  obtain ⟨values, hp⟩ := h.returns
  rw [popMany_add] at hp
  obtain ⟨t, ht, hp⟩ := bind_eq_ok.mp hp
  exact ⟨t, ht, (h.linked.popMany_spec ht).1, values, hp⟩

theorem exists_pop (h : base.Over (k + 1) s) : ∃ t, s.pop = .ok t ∧ base.Over k t := by
  rw [Nat.add_comm] at h
  obtain ⟨t, ht, h⟩ := h.exists_popMany
  rw [popMany_succ] at ht
  obtain ⟨u, hu, ht⟩ := bind_eq_ok.mp ht
  cases ht
  exact ⟨_, hu, h⟩

theorem exists_popUntil (h : base.Over k s) (hj : j ≤ k) :
    ∃ t, s.popUntil (base.world + j) = .ok t ∧ base.Over j t := by
  have hw := h.world_eq
  obtain ⟨i, rfl⟩ := Nat.exists_eq_add_of_le' hj
  obtain ⟨t, ht, hover⟩ := h.exists_popMany
  refine ⟨t, popUntil_eq_ok.mpr ⟨by omega, ?_⟩, hover⟩
  rw [← ht]
  congr 1
  omega

/-- A world can be merged into the one below, as long as that is not the base. -/
theorem exists_commit (h : base.Over (k + 2) s) : ∃ t, s.commit = .ok t ∧ base.Over (k + 1) t := by
  have hw := h.world_eq
  obtain ⟨values, hp⟩ := h.returns
  obtain ⟨t, ht, hlinked, -⟩ := h.linked.exists_commit (by omega)
  refine ⟨t, ht, hlinked, values, ?_⟩
  calc t.popMany (k + 1)
      = (s.pop >>= Store.pop) >>= fun u => u.popMany k := by
        rw [popMany_succ, h.linked.pop_commit (by omega) ht]
    _ = s.popMany (k + 2) := by simp only [popMany_succ, bind_assoc]
    _ = .ok (base.grow values) := hp

end Over

end Store

end FiniteDomain
