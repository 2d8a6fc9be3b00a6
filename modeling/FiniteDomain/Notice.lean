import FiniteDomain.Branch.Decision
import FiniteDomain.Search.Measures
import FiniteDomain.Search.Outcome

/-!
# Notices

What happens during propagation and search is reported as a sequence of notices, oldest first. An activity is
a computation that adds notices as it goes and may end in a fault; the notices up to the fault are kept.
-/

namespace FiniteDomain

/-- An answer to one step of a scripted filter. -/
inductive Reply where
  | changed (any : Bool)
  | failed
  | skipped
deriving Repr, DecidableEq

/-- What a scripted filter wrote down about one of its runs. -/
structure FilterEntry where
  propagator : String
  id : PropId
  /-- The scope position and the conditions that the run was for; none for a full pass. -/
  on : Option (Nat × EventMask)
  /-- What the domains of the scope looked like. -/
  look : Option (Array (Domain.Extent × Option Int)) := none
  replies : Array Reply := #[]
deriving Repr, DecidableEq

/-- A moment of a search at which its observers are called. -/
inductive Callback where
  | rootPropagated
  | nodeOpened (depth : Nat)
  | down (decision : Decision)
  | up (decision : Decision)
  | solution (solution : Solution)
  | contradiction (contradiction : Contradiction)
  | restarted (restarts : Nat)
  | closed (measures : Measures) (status : Status)
deriving Repr, DecidableEq

inductive Notice where
  | posted (name : String) (id : PropId) (arity : Nat)
  | unposted (name : String) (id : PropId)
  | executing (name : String) (id : PropId) (full : Bool)
  | passivated (name : String) (id : PropId)
  | failed (name : String) (id : PropId) (contradiction : Contradiction)
  | modified (name : String) (kind : EventKind) (cause : Cause)
  | wipedOut (name : String) (cause : Cause)
  | filterLogged (entry : FilterEntry)
  | searchStarted (model : String) (vars propagators : Nat) (optimizing : Bool)
  | searchEnded (status : Status) (stopped : Option StopReason) (measures : Measures)
  | searchRestarted (restarts nogoods nodes : Nat) (best : Option Int)
  | limitReached (reason : StopReason) (nodes : Nat)
  | solutionFound (index : Nat) (objective : Option Int) (depth : Nat)
  | branchFailed (contradiction : Contradiction) (depth : Nat)
  /-- The observers are called, and are shown the model as it stands. -/
  | callback (callback : Callback) (model : Model)
deriving Repr

/-- A computation that reports notices and may end in a fault. -/
abbrev Activity := EStateM Fault (Array Notice)

namespace Activity

/-- Adds a notice. -/
def report (notice : Notice) : Activity Unit := modify fun notices => notices.push notice

/-- A step that reports nothing. -/
def quietly {α : Type} : Except Fault α → Activity α
  | .ok a => pure a
  | .error fault => throw fault

end Activity

/-- The notice of a mutation of a variable with the given name, judged by its result. -/
def Notice.ofMutation? (name : String) (cause : Cause) (result : Except Contradiction Bool)
    (events : Array Event) : Option Notice :=
  match result with
  | .error _ => some (.wipedOut name cause)
  | .ok false => none
  | .ok true => events.back?.map fun e => .modified name e.kind cause

namespace Model

/-- Narrows the domain of a variable and reports it. -/
def narrow (m : Model) (x : VarId) (μ : Mutation) (cause : Cause) :
    Activity (Except Contradiction Bool × Model) := do
  let (result, m) ← Activity.quietly (m.apply x μ cause)
  let name ← Activity.quietly (m.varName x)
  match Notice.ofMutation? name cause result m.events with
  | some notice => Activity.report notice
  | none => pure ()
  return (result, m)

end Model

end FiniteDomain
