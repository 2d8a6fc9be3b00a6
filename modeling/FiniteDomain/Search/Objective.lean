import FiniteDomain.Propagation.Network

/-!
# Objectives

An optimising search asks of each node a better value of the objective than the best one found. The best value
is not part of the store, so that going back never forgets it.
-/

namespace FiniteDomain

inductive Objective where
  | minimize (var : VarId)
  | maximize (var : VarId)
deriving Repr, DecidableEq

namespace Objective

def var : Objective → VarId
  | minimize x => x
  | maximize x => x

/-- The first value is strictly better than the second. -/
def Better : Objective → Int → Int → Prop
  | minimize _, v, w => v < w
  | maximize _, v, w => w < v

instance (o : Objective) (v w : Int) : Decidable (o.Better v w) := by
  cases o <;> unfold Better <;> infer_instance

/-- The mutation that keeps what is better than the best value, if any integer is. -/
def cut : Objective → Int → Except Conflict Mutation
  | minimize _, best =>
    match Value.ofInt? (best - 1) with
    | some bound => .ok (.atMost bound)
    | none => .error .objectiveLowest
  | maximize _, best =>
    match Value.ofInt? (best + 1) with
    | some bound => .ok (.atLeast bound)
    | none => .error .objectiveHighest

theorem cut_keeps_iff {o : Objective} {best : Int} {μ : Mutation} (h : o.cut best = .ok μ) (v : Int) :
    μ.Keeps v ↔ o.Better v best := by
  cases o <;> simp only [cut, Value.ofInt?] at h <;> split at h <;> split at * <;> simp_all <;> subst h <;>
    simp only [Mutation.Keeps, Better] <;> omega

end Objective

namespace Network

/-- Asks for a better value than the best one, if there is an objective and a best value. -/
def improve (n : Network) (objective : Option Objective) (best : Option Int) (cause : Cause) :
    Activity (Except Contradiction Unit × Network) := do
  match objective, best with
  | some o, some b =>
    match o.cut b with
    | .error conflict => return (.error ⟨conflict, cause⟩, n)
    | .ok μ =>
      let (outcome, n) ← n.narrow o.var μ cause
      return (outcome.map fun _ => (), n)
  | _, _ => return (.ok (), n)

/-- Asks for a better value and propagates. -/
def improveAndPropagate (n : Network) (objective : Option Objective) (best : Option Int) (cause : Cause) :
    Activity (Except Contradiction Unit × Network) := do
  let (outcome, n) ← n.improve objective best cause
  match outcome with
  | .error c => return (.error c, n)
  | .ok () => n.propagate

end Network

end FiniteDomain
