import FiniteDomain.Propagation.Propagator

/-!
# Disequalities

A variable differs from a constant, or two variables do not add up to one. Nothing can be concluded before a
variable is fixed, and a value strictly inside an interval cannot be removed; so a disequality stays awake
until the value it forbids is gone.
-/

namespace FiniteDomain

/-- The variable differs from the constant. -/
structure Unequal where
  var : VarId
  constant : Int
deriving Repr, DecidableEq

namespace Unequal

def Holds (c : Unequal) (a : Assignment) : Prop := a c.var ≠ c.constant

instance (c : Unequal) (a : Assignment) : Decidable (c.Holds a) := inferInstanceAs (Decidable (_ ≠ _))

/-- Removes the constant. -/
def filter (c : Unequal) : Filter Unit := do
  if ← Filter.narrow c.var (.remove c.constant) then Filter.setPassive
  else if !(← Filter.contains c.var c.constant) then Filter.setPassive

def entailed (c : Unequal) (m : Model) : Except Fault Entailment := do
  if !(← m.contains c.var c.constant) then return .always
  else if ← m.isInstantiated c.var then return .never
  else return .undecided

def propagator (c : Unequal) : Propagator where
  name := "NotEqualConst"
  scope := #[c.var]
  priority := .unary
  condition _ := .instantiation
  run := c.filter
  entailed := c.entailed

end Unequal

/-- The two variables do not add up to the constant. -/
structure UnequalSum where
  x : VarId
  y : VarId
  constant : Int
  /-- The domains that admit holes. -/
  enumerated : Bool × Bool
deriving Repr, DecidableEq

namespace UnequalSum

def Holds (c : UnequalSum) (a : Assignment) : Prop := a c.x + a c.y ≠ c.constant

instance (c : UnequalSum) (a : Assignment) : Decidable (c.Holds a) := inferInstanceAs (Decidable (_ ≠ _))

/-- The disequality over two variables of a model. -/
def ofModel (m : Model) (x y : VarId) (constant : Int) : Except Fault UnequalSum := do
  return { x, y, constant, enumerated := (← m.isEnumerated x, ← m.isEnumerated y) }

/-- The bounds alone rule the constant out. -/
def excluded (c : UnequalSum) (m : Model) : Except Fault Bool := do
  if c.constant < (← m.lb c.x) + (← m.lb c.y) then return true
  return (← m.ub c.x) + (← m.ub c.y) < c.constant

/-- Once `fixed` is, the other may not complete the sum. -/
def removeSupport (c : UnequalSum) (fixed other : VarId) : Filter Unit := do
  match ← Filter.value? fixed with
  | none => pure ()
  | some v =>
    match Value.ofInt? (c.constant - v) with
    | none => Filter.setPassive
    | some forbidden =>
      if ← Filter.narrow other (.remove forbidden) then Filter.setPassive
      else if !(← Filter.contains other forbidden) then Filter.setPassive

def filter (c : UnequalSum) : Filter Unit := do
  if ← Filter.isInstantiated c.x then c.removeSupport c.x c.y
  else if ← Filter.isInstantiated c.y then c.removeSupport c.y c.x
  else if ← Filter.ask c.excluded then Filter.setPassive

def entailed (c : UnequalSum) (m : Model) : Except Fault Entailment := do
  if ← c.excluded m then return .always
  match ← m.value? c.x, ← m.value? c.y with
  | some a, some b => return if a + b = c.constant then .never else .always
  | _, _ => return .undecided

/-- The conditions on a variable: a moved bound matters only where a value between the bounds cannot be
removed. -/
def condition (c : UnequalSum) (place : Nat) : EventMask :=
  if (if place = 0 then c.enumerated.1 else c.enumerated.2) then .instantiation else .boundAndInst

def propagator (c : UnequalSum) : Propagator where
  name := "NotEqualXYC"
  scope := #[c.x, c.y]
  priority := .binary
  condition := c.condition
  run := c.filter
  entailed := c.entailed

end UnequalSum

end FiniteDomain
