import FiniteDomain.Propagation.Propagator

/-!
# Nogoods

A nogood forbids that all of some literals hold together. It acts once all but one hold.
-/

namespace FiniteDomain

/-- A variable equals a value, or differs from it. -/
structure Literal where
  var : VarId
  value : Int
  equal : Bool
deriving Repr, DecidableEq

namespace Literal

def Holds (l : Literal) (a : Assignment) : Prop := if l.equal then a l.var = l.value else a l.var ≠ l.value

instance (l : Literal) (a : Assignment) : Decidable (l.Holds a) := by
  unfold Holds
  infer_instance

def text (l : Literal) : String :=
  let sign := if l.equal then "=" else "!="
  s!"{l.var.text} {sign} {l.value}"

/-- The truth of a literal, if the values that are left settle it. -/
def truth (l : Literal) (m : Model) : Except Fault (Option Bool) := do
  if (← m.value? l.var) = some l.value then return some l.equal
  else if ← m.contains l.var l.value then return none
  else return some !l.equal

/-- The mutation after which the literal does not hold. -/
def falsify (l : Literal) : Mutation := if l.equal then .remove l.value else .assign l.value

end Literal

/-- Not all of the literals hold. -/
structure Nogood where
  literals : List Literal
deriving Repr, DecidableEq

namespace Nogood

def Holds (c : Nogood) (a : Assignment) : Prop := ¬∀ l ∈ c.literals, l.Holds a

instance (c : Nogood) (a : Assignment) : Decidable (c.Holds a) :=
  inferInstanceAs (Decidable (¬∀ l ∈ c.literals, l.Holds a))

/-- What the literals amount to. -/
inductive Standing where
  /-- One of them is false. -/
  | satisfied
  /-- None is false, and these are open. -/
  | waiting (unsettled : List Literal)
deriving Repr, DecidableEq

/-- Looks at the literals in order, up to the first false one. -/
def standing (m : Model) : List Literal → Except Fault Standing
  | [] => return .waiting []
  | l :: rest => do
    match ← l.truth m with
    | some false => return .satisfied
    | some true => standing m rest
    | none =>
      match ← standing m rest with
      | .satisfied => return .satisfied
      | .waiting unsettled => return .waiting (l :: unsettled)

/-- Makes the last open literal false. An interval cannot drop a value between its bounds, and then the nogood
has to stay awake. -/
def filter (c : Nogood) : Filter Unit := do
  match ← Filter.ask fun m => standing m c.literals with
  | .satisfied => Filter.setPassive
  | .waiting [] => Filter.fail .nogoodViolated
  | .waiting [l] =>
    let _ ← Filter.narrow l.var l.falsify
    if (← Filter.ask l.truth) = some false then Filter.setPassive
  | .waiting _ => pure ()

def entailed (c : Nogood) (m : Model) : Except Fault Entailment := do
  match ← standing m c.literals with
  | .satisfied => return .always
  | .waiting [] => return .never
  | .waiting _ => return .undecided

/-- The conditions on the variable of a literal: an equality becomes true by an instantiation only, and can be
made false where a bound reaches its value. -/
def condition (c : Nogood) (place : Nat) : EventMask :=
  match c.literals[place]? with
  | some l => if l.equal then .boundAndInst else .all
  | none => .all

def propagator (c : Nogood) : Propagator where
  name := "Nogood"
  scope := (c.literals.map Literal.var).toArray
  priority := .linear
  condition := c.condition
  run := c.filter
  entailed := c.entailed

end Nogood

end FiniteDomain
