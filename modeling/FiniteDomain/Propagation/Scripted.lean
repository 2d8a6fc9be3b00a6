import FiniteDomain.Propagation.Propagator

/-!
# Scripted propagators

Propagators that write down each of their runs. One kind follows a script of actions, whatever constraint
that may amount to; the other does nothing else and is told of one place of its scope at a time.
-/

namespace FiniteDomain

/-- What an action of a script does. -/
inductive Deed where
  | narrow (x : VarId) (μ : Mutation)
  | fail
deriving Repr, DecidableEq

/-- A deed, done only if a domain contains a value, where such a condition is given. -/
structure ScriptAction where
  deed : Deed
  guard : Option (VarId × Int) := none
deriving Repr, DecidableEq

/-- When a scripted propagator asks not to be woken any more. -/
inductive Passivation where
  | never
  /-- Once all variables of the scope have one value left. -/
  | instantiated
  | always
deriving Repr, DecidableEq

structure Script where
  name : String
  scope : Array VarId
  priority : Priority := .binary
  /-- The conditions for the first places of the scope; all conditions for the others. -/
  conditions : Array EventMask := #[]
  reacts : Bool := false
  passivation : Passivation := .never
  entailment : Entailment := .undecided
  /-- Each entry shows the domains of the scope. -/
  look : Bool := false
  actions : List ScriptAction := []
deriving Repr

namespace ScriptAction

/-- The contradiction that a script raises of itself. -/
def failure : Conflict := .stated "tracker failed"

/-- The guard of an action is met. -/
def isMet (a : ScriptAction) : Filter Bool :=
  match a.guard with
  | some (x, v) => Filter.contains x v
  | none => pure true

/-- Does the deed and says whether a domain changed. -/
def perform (a : ScriptAction) : Filter Bool :=
  match a.deed with
  | .narrow x μ => Filter.narrow x μ
  | .fail => Filter.fail failure

end ScriptAction

namespace Script

/-- What the domains of the scope look like. -/
def view (s : Script) (m : Model) : Except Fault (Array (Domain.Extent × Option Int)) :=
  s.scope.mapM fun x => do return (← m.extent x, ← m.value? x)

/-- Performs actions up to the first contradiction, and notes an answer to each, behind those already noted. -/
def performAll (replies : Array Reply) : List ScriptAction → Filter (Array Reply × Except Contradiction Unit)
  | [] => return (replies, .ok ())
  | a :: rest => do
    if ← a.isMet then
      match ← a.perform.attempt with
      | .ok any => performAll (replies.push (.changed any)) rest
      | .error c => return (replies.push .failed, .error c)
    else performAll (replies.push .skipped) rest

/-- It is time not to be woken any more. -/
def isSettled (s : Script) (m : Model) : Except Fault Bool :=
  match s.passivation with
  | .never => return false
  | .always => return true
  | .instantiated => s.scope.allM fun x => m.isInstantiated x

/-- Performs the script and writes the run down. -/
def filter (s : Script) (on : Option (Nat × EventMask)) : Filter Unit := do
  let id ← Filter.self
  let look ← if s.look then some <$> Filter.ask s.view else pure none
  let (replies, outcome) ← performAll #[] s.actions
  Filter.log { propagator := s.name, id, on, look, replies }
  if ← Filter.ask s.isSettled then Filter.setPassive
  match outcome with
  | .ok () => pure ()
  | .error c => throw c

def propagator (s : Script) : Propagator where
  name := s.name
  scope := s.scope
  priority := s.priority
  condition place := s.conditions[place]?.getD .all
  reacts := s.reacts
  run := s.filter none
  runOn place mask := s.filter (some (place, mask))
  entailed _ := return s.entailment

/-- A propagator that writes down a full pass for each place of the scope that woke it. -/
def witness (name : String) (scope : Array VarId) : Propagator where
  name
  scope
  priority := .ternary
  reacts := true
  run := { name, scope : Script }.filter none
  entailed _ := return .undecided

end Script

end FiniteDomain
