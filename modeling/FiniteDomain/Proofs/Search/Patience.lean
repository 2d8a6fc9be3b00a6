import FiniteDomain.Search.Restart

/-!
# How long searches wait for a restart

A policy that counts nodes gives way to a tree of any size if its thresholds grow.

* `Luby.term_full`: the Luby sequence takes every power of two;
* `RestartPolicy.exists_waits`: the policies that wait for any number of nodes at last;
* `RestartPolicy.impatient_geometric_one`: the geometric policy of scale and factor one never waits.
-/

namespace FiniteDomain

namespace Luby

theorem exponentFrom_eq {i j k : Nat} (hk : k ≤ j) (hlow : Nat.pow 2 (j - 1) ≤ i) (hhigh : i < Nat.pow 2 j) :
    exponentFrom i k = j := by
  fun_induction exponentFrom i k with
  | case1 k hlt =>
    refine Nat.le_antisymm hk (Nat.le_of_not_lt fun hkj => ?_)
    have hpow : Nat.pow 2 k ≤ Nat.pow 2 (j - 1) := Nat.pow_le_pow_right (by decide) (by omega)
    omega
  | case2 k hge ih =>
    refine ih (Nat.lt_of_le_of_ne hk fun heq => hge ?_)
    rwa [heq]

/-- The last term of each block is as high as any before. -/
theorem term_full (j : Nat) : term (Nat.pow 2 (j + 1) - 1) = Nat.pow 2 j := by
  have hpos : 0 < Nat.pow 2 j := Nat.pow_pos (by decide)
  have hdouble : Nat.pow 2 (j + 1) = Nat.pow 2 j * 2 := rfl
  have hexponent : exponentFrom (Nat.pow 2 (j + 1) - 1) 1 = j + 1 := by
    refine exponentFrom_eq (by omega) ?_ (by omega)
    rw [Nat.add_sub_cancel]
    omega
  rw [term]
  simp only [hexponent, Nat.add_sub_cancel]
  exact if_pos (by omega)

end Luby

namespace RestartPolicy

/-- After so many restarts the policy waits for so many nodes before the next. -/
def Waits (p : RestartPolicy) (restarts nodes : Nat) : Prop := ∀ t, p.threshold restarts = some t → nodes ≤ t

theorem Waits.not_due {p : RestartPolicy} {restarts nodes wait : Nat} (h : p.Waits restarts wait) (hlt : nodes < wait) :
    p.isDue restarts nodes = false := by
  rw [isDue]
  cases ht : p.threshold restarts with
  | none => rfl
  | some t =>
    have := h t ht
    exact decide_eq_false (by omega)

/-- **An accepted policy waits for any number of nodes at last**, a Luby policy up to the greatest that it can
count, and a geometric one if it does. -/
theorem exists_waits {p : RestartPolicy} (hp : p.problem? = none) {nodes : Nat}
    (hluby : ∀ scale, p = .luby scale → nodes ≤ thresholdLimit) (hgeometric : ∀ scale factor, p = .geometric scale factor →
      ∃ restarts, nodes ≤ geometricThreshold scale factor restarts) : ∃ restarts, p.Waits restarts nodes := by
  cases p with
  | never | onSolution => exact ⟨0, fun _ h => by cases h⟩
  | luby scale =>
    have hscale : 0 < scale := Nat.pos_of_ne_zero fun h => by
      rw [problem?, if_pos h] at hp
      cases hp
    refine ⟨Nat.pow 2 (nodes + 1) - 2, ?_⟩
    rintro t ⟨⟩
    have hpos : 0 < Nat.pow 2 nodes := Nat.pow_pos (by decide)
    have hdouble : Nat.pow 2 (nodes + 1) = Nat.pow 2 nodes * 2 := rfl
    have hplace : Nat.pow 2 (nodes + 1) - 2 + 1 = Nat.pow 2 (nodes + 1) - 1 := by omega
    rw [hplace, Luby.term_full]
    have hpow : nodes < Nat.pow 2 nodes := Nat.lt_two_pow_self
    have hmul : 1 * Nat.pow 2 nodes ≤ scale * Nat.pow 2 nodes := Nat.mul_le_mul_right _ hscale
    exact Nat.le_min.mpr ⟨by omega, hluby scale rfl⟩
  | geometric scale factor =>
    obtain ⟨restarts, h⟩ := hgeometric scale factor rfl
    refine ⟨restarts, ?_⟩
    rintro t ⟨⟩
    exact h

end RestartPolicy

/-! ### Policies that do not wait -/

/-- A restart is due at every node. -/
def RestartPolicy.Impatient (p : RestartPolicy) : Prop := ∀ restarts nodes, 0 < nodes → p.isDue restarts nodes = true

theorem powerTimes_one (exponent : Nat) : powerTimes 1.0 1.0 exponent = 1.0 := by
  have hone : (1.0 : Float) * 1.0 = 1.0 := by rfl
  induction exponent using Nat.strongRecOn with
  | ind exponent ih =>
    rw [powerTimes]
    simp only [hone, ite_self]
    split
    · rfl
    · exact ih _ (by omega)

theorem geometricThreshold_one (restarts : Nat) : geometricThreshold 1 1.0 restarts = 1 := by
  rw [geometricThreshold, powerTimes_one]
  decide +kernel

theorem RestartPolicy.impatient_geometric_one : (geometric 1 1.0).Impatient := by
  intro restarts nodes hnodes
  rw [isDue, threshold, geometricThreshold_one]
  exact decide_eq_true hnodes

end FiniteDomain
