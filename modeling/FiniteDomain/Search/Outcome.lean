import FiniteDomain.Model.Basic

/-!
# Outcomes of a search

What a search hands out: solutions, the reason for which it stopped before its end, and the conclusion.
-/

namespace FiniteDomain

/-- Why a search stopped before it had gone through all branches. -/
inductive StopReason where
  | nodeLimit
  | failLimit
  | solutionLimit
  | timeLimit
  | cancelled
deriving Repr, DecidableEq

namespace StopReason

def text : StopReason → String
  | nodeLimit => "NodeLimit"
  | failLimit => "FailLimit"
  | solutionLimit => "SolutionLimit"
  | timeLimit => "TimeLimit"
  | cancelled => "Cancelled"

end StopReason

/-- What a search established. -/
inductive Status where
  /-- The last solution is a best one. -/
  | optimal
  | feasible
  | infeasible
  | unknown
deriving Repr, DecidableEq

namespace Status

/-- The conclusion from how the search ended and from what it found. -/
def conclude (stopped : Option StopReason) (found optimizing : Bool) : Status :=
  match stopped, found, optimizing with
  | some _, true, _ => feasible
  | some _, false, _ => unknown
  | none, false, _ => infeasible
  | none, true, true => optimal
  | none, true, false => feasible

def text : Status → String
  | optimal => "Optimal"
  | feasible => "Feasible"
  | infeasible => "Infeasible"
  | unknown => "Unknown"

end Status

/-- A value for each variable in the order of creation, and that of the objective. -/
structure Solution where
  values : Array Int
  objective : Option Int
deriving Repr, DecidableEq

namespace Solution

/-- The values of a model in which each variable has one left. -/
def capture (m : Model) (objective : Option Int) : Except Fault Solution := do
  let values ← m.vars.mapM fun v =>
    match v.domain.value? m.store with
    | some value => pure value
    | none => throw (Fault.uninstantiated v.name)
  return { values, objective }

def get? (s : Solution) (x : VarId) : Option Int := s.values[x.index]?

/-- The value of a variable, which must be one of the model. -/
def value (s : Solution) (x : VarId) : Except Fault Int :=
  match s.get? x with
  | some v => .ok v
  | none => .error .missing

end Solution

end FiniteDomain
