import FiniteDomain.Event

/-!
# Contradictions

A contradiction ends a propagation: a domain would become empty, or a constraint cannot hold any more. It is
an ordinary outcome, from which a search backtracks.
-/

namespace FiniteDomain

/-- Why nothing can hold. -/
inductive Conflict where
  | emptyDomain (var : VarId)
  | negativeDistance
  | noDistance
  | distanceBelowBound
  | linearBound
  | nogoodViolated
  | objectiveLowest
  | objectiveHighest
  /-- A reason given by a filter of the user. -/
  | stated (reason : String)
deriving Repr, DecidableEq

namespace Conflict

def message : Conflict → String
  | emptyDomain _ => "empty domain"
  | negativeDistance => "negative distance"
  | noDistance => "no support for distance"
  | distanceBelowBound => "distance below a non-positive constant"
  | linearBound => "linear sum exceeds its bound"
  | nogoodViolated => "nogood violated"
  | objectiveLowest => "objective at its lowest value"
  | objectiveHighest => "objective at its highest value"
  | stated reason => reason

/-- The variable left without a value, if that is the reason. -/
def var? : Conflict → Option VarId
  | emptyDomain x => some x
  | _ => none

end Conflict

/-- A conflict and who ran into it. -/
structure Contradiction where
  conflict : Conflict
  cause : Cause
deriving Repr, DecidableEq

namespace Contradiction

def text (c : Contradiction) : String :=
  let place := match c.conflict.var? with
    | some x => s!" on {x.text}"
    | none => ""
  s!"{c.conflict.message}{place} ({c.cause.text})"

end Contradiction

end FiniteDomain
