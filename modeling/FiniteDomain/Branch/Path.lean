import FiniteDomain.Branch.Alternative
import FiniteDomain.Constraint.Nogood

/-!
# Decision paths

The decisions from the root of a search to the node it is at. The alternative of each is tried in a world of
its own above the one before.
-/

namespace FiniteDomain

/-- A sequence of decisions from the root down. -/
structure DecisionPath where
  decisions : Array Decision := #[]
deriving Repr, DecidableEq

/-- The first alternative of a decision as a literal, if it speaks of one value. -/
def Decision.literal? (d : Decision) : Option Literal :=
  match d.split with
  | .assign => some ⟨d.var, d.value, true⟩
  | .remove => some ⟨d.var, d.value, false⟩
  | .lower | .upper => none

namespace DecisionPath

def depth (p : DecisionPath) : Nat := p.decisions.size

def isEmpty (p : DecisionPath) : Bool := p.decisions.isEmpty

def push (p : DecisionPath) (d : Decision) : DecisionPath := ⟨p.decisions.push d⟩

/-- The deepest decision. -/
def last? (p : DecisionPath) : Option Decision := p.decisions.back?

/-- All but the deepest decision. -/
def parent (p : DecisionPath) : DecisionPath := ⟨p.decisions.pop⟩

/-- Another decision instead of the deepest. -/
def replaceLast (p : DecisionPath) (d : Decision) : DecisionPath := p.parent.push d

/-- The decisions from the root down. -/
def fromRoot (p : DecisionPath) : List Decision := p.decisions.toList

/-- The nogoods of some decisions from the top down, below the given literals. -/
def nogoodsBelow (above : List Literal) : List Decision → List Nogood
  | [] => []
  | d :: rest =>
    match d.literal? with
    | none => []
    | some l =>
      if d.onFirst then nogoodsBelow (above ++ [l]) rest else ⟨above ++ [l]⟩ :: nogoodsBelow above rest

/-- What the refuted decisions show: the first alternative of such a decision cannot hold together with the
first alternatives that are being tried above it. Below a decision that splits at a bound nothing is read
off. -/
def nogoods (p : DecisionPath) : List Nogood := nogoodsBelow [] p.fromRoot

end DecisionPath

end FiniteDomain
