import FiniteDomain.Search.Run
import FiniteDomain.Text.Quoted

/-!
# Solvers

A solver keeps a network together with the configuration and the strategy of its searches. A search leaves the
network as it was, so that it can be searched again.
-/

namespace FiniteDomain

/-- Why a search is not begun. -/
inductive Refusal where
  | model (error : ModelError)
  | config (error : ConfigError)
deriving Repr

namespace Refusal

def text : Refusal → String
  | model e => s!"model error: {e.message}"
  | config e => s!"configuration error: {e.message}"

end Refusal

structure Solver where
  network : Network
  config : SearchConfig := {}
  /-- Without one, all variables are branched on in order, with the least value first. -/
  brancher : Option Brancher := none

namespace Solver

variable {μ : Type}

/-- A solver for a model as it stands, with nothing posted. -/
def ofModel (m : Model) : Solver := { network := { model := m } }

/-- The brancher of a search for which none was set. -/
def defaultBrancher (s : Solver) : Brancher :=
  .heuristic (.ofSeed s.network.model.allVars.toList .inputOrder .min (s.config.seed.getD 0))

/-- Begins a search unless its configuration is refused. -/
def search (s : Solver) (task : SearchTask) (o : Observer μ) (fuel : Nat) (m : μ) :
    Except Fault (Except Refusal SearchResult × Solver) × μ :=
  match task.config.problem? with
  | some e => (.ok (.error (.config e), s), m)
  | none =>
    let brancher := s.brancher.getD s.defaultBrancher
    match SearchState.run task Brancher.strategy o fuel s.network brancher m with
    | (.error fault, m) => (.error fault, m)
    | (.ok (result, network, brancher), m) =>
      (.ok (.ok result, { s with network, brancher := s.brancher.map fun _ => brancher }), m)

/-- Searches for one solution. -/
def solve (s : Solver) (o : Observer μ) (fuel : Nat) (m : μ) :
    Except Fault (Except Refusal SearchResult × Solver) × μ :=
  s.search { config := { s.config with solutionLimit := some 1 } } o fuel m

/-- Searches for all solutions. -/
def findAll (s : Solver) (o : Observer μ) (fuel : Nat) (m : μ) :
    Except Fault (Except Refusal SearchResult × Solver) × μ :=
  s.search { config := s.config } o fuel m

/-- Searches for ever better solutions, to a best one. -/
def findBest (s : Solver) (objective : Objective) (o : Observer μ) (fuel : Nat) (m : μ) :
    Except Fault (Except Refusal SearchResult × Solver) × μ :=
  if s.network.model.owns objective.var then s.search { config := s.config, objective } o fuel m
  else (.ok (.error (.model (.foreignObjective objective.var s.network.model.name)), s), m)

/-- What is shown of a solver that has so many monitors. -/
def text (s : Solver) (monitors : Nat) : String :=
  let model := s.network.model
  s!"Solver \x7b model: {Text.quoted model.name}, vars: {model.varCount}, " ++
    s!"propagators: {s.network.propagatorCount}, config: {s.config.text}, monitors: {monitors}, .. \x7d"

end Solver

end FiniteDomain
