import FiniteDomain.Event

/-!
# Relations between integers

The six comparisons by which constraints are stated, the assignments that constraints speak of, and what is
known of a constraint at a moment.
-/

namespace FiniteDomain

/-- A value for each variable. -/
abbrev Assignment := VarId → Int

/-- A comparison of two integers. -/
inductive Relation where
  | eq
  | ne
  | lt
  | le
  | gt
  | ge
deriving Repr, DecidableEq

namespace Relation

/-- The two integers compare so. -/
def Holds : Relation → Int → Int → Prop
  | eq, a, b => a = b
  | ne, a, b => a ≠ b
  | lt, a, b => a < b
  | le, a, b => a ≤ b
  | gt, a, b => b < a
  | ge, a, b => b ≤ a

instance (r : Relation) (a b : Int) : Decidable (r.Holds a b) := by
  cases r <;> unfold Holds <;> infer_instance

def text : Relation → String
  | eq => "="
  | ne => "!="
  | lt => "<"
  | le => "<="
  | gt => ">"
  | ge => ">="

end Relation

/-- What is known of a constraint over the values that are left. -/
inductive Entailment where
  /-- Every choice satisfies it. -/
  | always
  /-- No choice satisfies it. -/
  | never
  | undecided
deriving Repr, DecidableEq

namespace Entailment

def text : Entailment → String
  | always => "True"
  | never => "False"
  | .undecided => "Undefined"

end Entailment

end FiniteDomain
