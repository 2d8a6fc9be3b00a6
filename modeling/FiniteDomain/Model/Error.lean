import FiniteDomain.Constraint.Relation
import FiniteDomain.Event

/-!
# Refused requests about a model

A request that a model cannot meet is refused with one of these reasons, and changes nothing that is shown.
-/

namespace FiniteDomain

inductive ModelError where
  | emptyInterval (lb ub : Int) (name : String)
  | emptyValues (name : String)
  | coefficientCount (coefficients vars : Nat)
  | distanceRelation (relation : Relation)
  | linearRelation (relation : Relation)
  | foreignObjective (var : VarId) (model : String)
deriving Repr, DecidableEq

namespace ModelError

def message : ModelError → String
  | emptyInterval lb ub name => s!"empty domain [{lb}, {ub}] for {name}"
  | emptyValues name => s!"empty value list for {name}"
  | coefficientCount coefficients vars => s!"{coefficients} coefficients for {vars} variables"
  | distanceRelation relation => s!"unexpected operator for distance: {relation.text}"
  | linearRelation relation => s!"unexpected operator for linear sum: {relation.text}"
  | foreignObjective var model => s!"objective variable {var.text} is not part of model {model}"

end ModelError

end FiniteDomain
