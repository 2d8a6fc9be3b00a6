import FiniteDomain.Propagation.Filter

/-!
# Propagators

A propagator filters the domains of a fixed list of variables. It has no memory: all that lasts between two
runs is in the store, so that it is undone together with the domains.
-/

namespace FiniteDomain

/-- The classes of propagators. Cheaper ones run first. -/
inductive Priority where
  | unary
  | binary
  | ternary
  | linear
  | quadratic
  | global
deriving Repr, DecidableEq

namespace Priority

/-- The place among the classes, the first to run being zero. -/
def rank : Priority → Nat
  | unary => 0
  | binary => 1
  | ternary => 2
  | linear => 3
  | quadratic => 4
  | global => 5

/-- The classes in the order in which they run. -/
def all : List Priority := [unary, binary, ternary, linear, quadratic, global]

def text : Priority → String
  | unary => "Unary"
  | binary => "Binary"
  | ternary => "Ternary"
  | linear => "Linear"
  | quadratic => "Quadratic"
  | global => "Global"

end Priority

structure Propagator where
  name : String
  scope : Array VarId
  priority : Priority
  /-- The conditions on the variable at a place of the scope that wake the propagator. -/
  condition : Nat → EventMask := fun _ => .all
  /-- It is told which places of the scope woke it, unless a full pass is due. -/
  reacts : Bool := false
  /-- A full pass. -/
  run : Filter Unit
  /-- A pass for one place of the scope and the conditions met there. -/
  runOn : Nat → EventMask → Filter Unit := fun _ _ => run
  /-- What is known of the constraint. -/
  entailed : Model → Except Fault Entailment

end FiniteDomain
