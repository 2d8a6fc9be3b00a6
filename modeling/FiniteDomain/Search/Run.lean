import FiniteDomain.Search.Step

/-!
# Runs of a search

A run takes turn after turn until the search stops, and then restores the network. Its observer hears every
notice, and gives the signals for each turn.
-/

namespace FiniteDomain

/-- Who watches, with a state of type `μ`. -/
structure Observer (μ : Type) where
  hear : μ → Notice → μ
  signals : μ → Signals

namespace Observer

variable {μ α : Type}

/-- Lets the observer hear the notices of an activity, also of one that ends in a fault. -/
def attend (o : Observer μ) (m : μ) (a : Activity α) : Except Fault α × μ :=
  match a.run #[] with
  | .ok x notices => (.ok x, notices.foldl o.hear m)
  | .error fault notices => (.error fault, notices.foldl o.hear m)

/-- An observer that keeps all notices and never asks to stop. -/
def recorder : Observer (Array Notice) := ⟨Array.push, fun _ => {}⟩

end Observer

/-- What a search hands back. -/
structure SearchResult where
  status : Status
  stopped : Option StopReason
  /-- All solutions in the order in which they were found. -/
  found : Array Solution
  measures : Measures
deriving Repr

namespace SearchResult

/-- The solution found last; of an optimising search it is the best. -/
def solution? (r : SearchResult) : Option Solution := r.found.back?

/-- All solutions in the order of their values. -/
def sorted (r : SearchResult) : List Solution :=
  r.found.toList.mergeSort fun a b => !b.values.toList.lex a.values.toList fun v w => decide (v < w)

end SearchResult

namespace SearchState

variable {σ μ : Type}

/-- A search that is about to begin. -/
def begin (network : Network) (brancher : σ) : SearchState σ := { network, brancher }

/-- The notice with which a search begins. -/
def announce (task : SearchTask) (s : SearchState σ) : Activity Unit :=
  let model := s.network.model
  Activity.report
    (.searchStarted model.name model.varCount s.network.propagatorCount task.objective.isSome)

/-- Takes turns until the search stops, at most so many. -/
def turns (task : SearchTask) (strategy : Strategy σ) (o : Observer μ) (s : SearchState σ) (m : μ) :
    Nat → Except Fault (SearchState σ) × μ
  | 0 => if s.turn = .stop then (.ok s, m) else (.error .outOfFuel, m)
  | fuel + 1 =>
    if s.turn = .stop then (.ok s, m)
    else
      match o.attend m (s.step task strategy (o.signals m)) with
      | (.ok s, m) => turns task strategy o s m fuel
      | (.error fault, m) => (.error fault, m)

/-- Removes the posted propagators. -/
def unpostAll (n : Network) : List PropId → Activity Network
  | [] => return n
  | id :: rest => do unpostAll (← n.unpost id) rest

/-- Goes back to the world at which the search began, removes the recorded nogoods, and concludes. -/
def conclude (task : SearchTask) (origin : Origin) (elapsedMs : Nat) (s : SearchState σ) :
    Activity (SearchResult × Network × σ) := do
  let network ← Activity.quietly (s.network.flush.mapModel fun m => m.popUntil origin.world)
  let network ← unpostAll network s.recorded.toList
  let measures := { s.measures with
    propagations := network.executions - origin.executions
    elapsedMs }
  let status := Status.conclude s.stopped (measures.solutions != 0) task.objective.isSome
  Activity.report (.callback (.closed measures status) network.model)
  Activity.report (.searchEnded status s.stopped measures)
  return ({ status, stopped := s.stopped, found := s.found, measures }, network, s.brancher)

/-- Searches a network from the state it is in, with at most so many turns. -/
def run (task : SearchTask) (strategy : Strategy σ) (o : Observer μ) (fuel : Nat) (network : Network)
    (brancher : σ) (m : μ) : Except Fault (SearchResult × Network × σ) × μ :=
  let origin := Origin.ofNetwork network
  let s := begin network brancher
  match o.attend m (s.announce task) with
  | (.error fault, m) => (.error fault, m)
  | (.ok (), m) =>
    match turns task strategy o s m fuel with
    | (.error fault, m) => (.error fault, m)
    | (.ok s, m) => o.attend m (conclude task origin (o.signals m).elapsedMs s)

end SearchState

end FiniteDomain
