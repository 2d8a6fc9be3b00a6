import FiniteDomain.Constraint.Disequality
import FiniteDomain.Constraint.Distance
import FiniteDomain.Constraint.Linear
import FiniteDomain.Constraint.Nogood
import FiniteDomain.Propagation.Network

/-!
# Constraints

The constraints at hand: what each asks of an assignment, and the propagator that filters for it.
-/

namespace FiniteDomain

inductive Constraint where
  | unequal (c : Unequal)
  | unequalSum (c : UnequalSum)
  | distance (c : Distance)
  | linear (c : Linear)
  | nogood (c : Nogood)
deriving Repr, DecidableEq

namespace Constraint

/-- The assignment satisfies the constraint. -/
def Holds : Constraint → Assignment → Prop
  | unequal c => c.Holds
  | unequalSum c => c.Holds
  | distance c => c.Holds
  | linear c => c.Holds
  | nogood c => c.Holds

instance (c : Constraint) (a : Assignment) : Decidable (c.Holds a) := by
  cases c <;> unfold Holds <;> infer_instance

def propagator : Constraint → Propagator
  | unequal c => c.propagator
  | unequalSum c => c.propagator
  | distance c => c.propagator
  | linear c => c.propagator
  | nogood c => c.propagator

end Constraint

namespace Network

/-- Posts the propagator of a constraint. -/
def postConstraint (n : Network) (c : Constraint) : Activity (PropId × Network) := n.post c.propagator

end Network

end FiniteDomain
