import FiniteDomain.Model.Error
import FiniteDomain.Propagation.Propagator

/-!
# Linear sums

A weighted sum of variables is equal to, at most or at least a constant. Only bounds are looked at and moved.
Sums are kept to 128 bits: when one would leave that range nothing is concluded from it.
-/

namespace FiniteDomain

/-- How a sum compares with the constant. -/
inductive LinearRelation where
  | eq
  | le
  | ge
deriving Repr, DecidableEq

namespace LinearRelation

/-- The comparisons that are filtered for sums. -/
def ofRelation? : Relation → Option LinearRelation
  | .eq => some eq
  | .le => some le
  | .ge => some ge
  | .ne => none
  | .lt => none
  | .gt => none

def toRelation : LinearRelation → Relation
  | eq => .eq
  | le => .le
  | ge => .ge

end LinearRelation

/-- A variable and its coefficient. -/
structure Term where
  coefficient : Int
  var : VarId
deriving Repr, DecidableEq

/-- The sum of the terms compares with the constant. -/
structure Linear where
  terms : List Term
  relation : LinearRelation
  constant : Int
deriving Repr, DecidableEq

namespace Linear

/-- The value of a sum. -/
def total (terms : List Term) (a : Assignment) : Int :=
  terms.foldr (fun t sum => t.coefficient * a t.var + sum) 0

def Holds (c : Linear) (a : Assignment) : Prop := c.relation.toRelation.Holds (total c.terms a) c.constant

instance (c : Linear) (a : Assignment) : Decidable (c.Holds a) :=
  inferInstanceAs (Decidable (Relation.Holds _ _ _))

/-- A sum with a coefficient for each variable, compared in a way that can be filtered. Terms with coefficient
zero are left out. -/
def ofLists (coefficients : List Int) (vars : List VarId) (relation : Relation) (constant : Int) :
    Except ModelError Linear :=
  if coefficients.length ≠ vars.length then
    .error (.coefficientCount coefficients.length vars.length)
  else
    match LinearRelation.ofRelation? relation with
    | none => .error (.linearRelation relation)
    | some relation =>
      let terms := (List.zipWith Term.mk coefficients vars).filter fun t => t.coefficient ≠ 0
      .ok { terms, relation, constant }

/-- A sum in which every variable counts once. -/
def ofVars (vars : List VarId) (relation : Relation) (constant : Int) : Except ModelError Linear :=
  ofLists (vars.map fun _ => 1) vars relation constant

/-- The direction in which a sum is looked at. -/
inductive Side where
  | upper
  | lower
deriving Repr, DecidableEq

/-- The lower side is the upper side of the negated sum. -/
def Side.sign : Side → Int
  | upper => 1
  | lower => -1

/-- The least and the greatest value of a term over an interval. -/
def termRange (coefficient lb ub : Int) : Int × Int :=
  if 0 ≤ coefficient then (coefficient * lb, coefficient * ub) else (coefficient * ub, coefficient * lb)

/-- The range of a term over the domain of its variable. -/
def rangeIn (m : Model) (coefficient : Int) (x : VarId) : Except Fault (Int × Int) := do
  return termRange coefficient (← m.lb x) (← m.ub x)

/-- The least and the greatest value of a sum behind the given ones, if they keep to the range of sums. -/
def boundsFrom (m : Model) (sign : Int) (low high : Int) : List Term → Except Fault (Option (Int × Int))
  | [] => return some (low, high)
  | t :: rest => do
    let (least, greatest) ← rangeIn m (sign * t.coefficient) t.var
    match Sum.ofInt? (low + least), Sum.ofInt? (high + greatest) with
    | some low, some high => boundsFrom m sign low high rest
    | _, _ => return none

/-- The least and the greatest value of the sum, or of its negation. -/
def bounds (c : Linear) (m : Model) (sign : Int) : Except Fault (Option (Int × Int)) :=
  boundsFrom m sign 0 0 c.terms

/-- Moves a bound of one variable so that its term stays within the slack. -/
def filterTerm (coefficient : Int) (x : VarId) (slack : Int) : Filter Bool :=
  if 0 < coefficient then
    Filter.narrow x (.atMost ((Value.ofInt? (slack / coefficient)).getD Value.greatest))
  else
    Filter.narrow x (.atLeast ((Value.ofInt? (-(slack / -coefficient))).getD Value.least))

/-- Moves the bounds of the variables of some terms. The slack of a term is its least value and the room that
the constant leaves above the least sum. -/
def filterTerms (sign room : Int) (changed : Bool) : List Term → Filter Bool
  | [] => return changed
  | t :: rest => do
    let coefficient := sign * t.coefficient
    let (own, _) ← Filter.ask fun m => rangeIn m coefficient t.var
    match Sum.ofInt? (room + own) with
    | none => filterTerms sign room changed rest
    | some slack =>
      let moved ← filterTerm coefficient t.var slack
      filterTerms sign room (changed || moved) rest

/-- One pass over one side. -/
def filterSide (c : Linear) (side : Side) : Filter Bool := do
  let constant := side.sign * c.constant
  match ← Filter.ask fun m => c.bounds m side.sign with
  | none => return false
  | some (least, _) =>
    if constant < least then Filter.fail .linearBound
    else
      match Sum.ofInt? (constant - least) with
      | none => Filter.abort .overflow
      | some room => filterTerms side.sign room false c.terms

/-- One pass over the sides that matter. -/
def pass (c : Linear) : Filter Bool :=
  match c.relation with
  | .le => c.filterSide .upper
  | .ge => c.filterSide .lower
  | .eq => do
    let first ← c.filterSide .upper
    let second ← c.filterSide .lower
    return first || second

/-- Repeats the pass until it changes nothing. -/
def settle (c : Linear) : Nat → Filter Unit
  | 0 => Filter.abort .outOfFuel
  | fuel + 1 => do
    if ← c.pass then c.settle fuel

/-- The number of values that the domains can lose. -/
def slackOf (m : Model) : List Term → Except Fault Nat
  | [] => return 0
  | t :: rest => do
    let span := (← m.ub t.var) - (← m.lb t.var)
    return span.toNat + (← slackOf m rest)

def entailed (c : Linear) (m : Model) : Except Fault Entailment := do
  match ← c.bounds m 1 with
  | none => return .undecided
  | some (least, greatest) =>
    let k := c.constant
    match c.relation with
    | .le => return if greatest ≤ k then .always else if k < least then .never else .undecided
    | .ge => return if k ≤ least then .always else if greatest < k then .never else .undecided
    | .eq =>
      return if least = k ∧ greatest = k then .always else if k < least ∨ greatest < k then .never else .undecided

def filter (c : Linear) : Filter Unit := do
  c.settle ((← Filter.ask fun m => slackOf m c.terms) + 1)
  if (← Filter.ask c.entailed) = .always then Filter.setPassive

def propagator (c : Linear) : Propagator where
  name := "LinearSum"
  scope := (c.terms.map Term.var).toArray
  priority := .linear
  condition _ := .boundAndInst
  run := c.filter
  entailed := c.entailed

end Linear

end FiniteDomain
