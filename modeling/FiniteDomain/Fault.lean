import FiniteDomain.Event

/-!
# Faults

A fault is a use of the library that breaks one of its rules, and ends the session. It is neither a
contradiction nor a refused request.
-/

namespace FiniteDomain

inductive Fault where
  /-- A variable, cell or propagator that was named does not exist. -/
  | missing
  /-- A result left the range of its integers. -/
  | overflow
  /-- A loop reached the bound on its number of turns. -/
  | outOfFuel
  | popAtInitialWorld
  | popAbove (target current : Nat)
  | commitAtInitialWorld
  | storedOverflow (delta : Int)
  | outsideUniverse (value : Int)
  | foreignVariable (propagator : String) (var : VarId) (model : String)
  | unknownPropagator (id : PropId)
  | failedNetwork
  | noAlternative (decision : String)
  | uninstantiated (name : String)
  | violated (propagator : String) (id : PropId)
deriving Repr, DecidableEq

namespace Fault

/-- The tag that a fault is reported under. -/
def tag : Fault → String
  | missing => "index"
  | overflow => "overflow"
  | outOfFuel => "unfinished"
  | popAtInitialWorld | popAbove .. | commitAtInitialWorld | storedOverflow _ | outsideUniverse _ | foreignVariable ..
  | unknownPropagator _ | failedNetwork | noAlternative _ | uninstantiated _ | violated .. => "panic"

/-- The text of a fault. A missing thing, an overflow and an exhausted bound have none, and are told by their tags. -/
def message? : Fault → Option String
  | missing => none
  | overflow => none
  | outOfFuel => none
  | popAtInitialWorld => some "world_pop below the initial world"
  | popAbove target current => some s!"cannot pop up to world {target} from world {current}"
  | commitAtInitialWorld => some "world_commit at the initial world"
  | storedOverflow delta => some s!"stored integer overflow adding {delta}"
  | outsideUniverse value => some s!"domain bound {value} outside its universe"
  | foreignVariable propagator var model =>
    some s!"propagator {propagator} refers to {var.text}, unknown to model {model}"
  | unknownPropagator id => some s!"propagator {id.text} is unknown or already removed"
  | failedNetwork => some "propagate on a failed engine without flush"
  | noAlternative decision => some s!"decision {decision} has no alternative left"
  | uninstantiated name => some s!"solution with {name} uninstantiated"
  | violated propagator id => some s!"solution violates propagator {propagator} ({id.text})"

variable {f g : Fault}

theorem message?_eq_none_iff : f.message? = none ↔ f.tag ≠ "panic" := by
  cases f <;> simp [message?, tag]

/-- A fault without a text is the only one that is reported under its tag. -/
theorem eq_of_tag_eq (hf : f.message? = none) (h : f.tag = g.tag) : f = g := by
  cases f <;> cases g <;> simp_all [message?, tag]

end Fault

end FiniteDomain
