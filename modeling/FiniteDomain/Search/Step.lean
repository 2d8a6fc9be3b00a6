import FiniteDomain.Search.State

/-!
# Turns of a search

One turn of a search: from a state and the signals of the moment to the next state, with notices of what
happened.
-/

namespace FiniteDomain

/-- Takes the next alternative of a decision. -/
def Network.takeNext (n : Network) (d : Decision) :
    Activity (Except Contradiction Unit × Decision × Network) := do
  let ((outcome, d), n) ← n.onModel fun m => do
    let (outcome, d, m) ← d.takeNext m
    return ((outcome, d), m)
  return (outcome, d, n)

namespace SearchState

variable {σ : Type}

/-- Counts a failure, and lets go of all that was still to be propagated. -/
def fail (s : SearchState σ) (c : Contradiction) : Activity (SearchState σ) := do
  let s := { s with
    measures := { s.measures with fails := s.measures.fails + 1 }
    network := s.network.flush.takeLast.2 }
  Activity.report (.branchFailed c s.path.depth)
  s.tell (.contradiction c)
  return s

/-- Posts a nogood that the search removes at its end. -/
def record (s : SearchState σ) (nogood : Nogood) : Activity (SearchState σ) := do
  let (id, network) ← s.network.post nogood.propagator
  return { s with network, recorded := s.recorded.push id }

/-- Posts some nogoods, the first first. -/
def recordAll (s : SearchState σ) : List Nogood → Activity (SearchState σ)
  | [] => return s
  | nogood :: rest => do (← s.record nogood).recordAll rest

/-! ## The root -/

/-- Opens the world of the root and propagates there. -/
def propagateRoot (task : SearchTask) (s : SearchState σ) : Activity (SearchState σ) := do
  let network ← Activity.quietly (s.network.mapModel fun m => .ok m.pushWorld)
  let root := network.model.world
  let (outcome, network) ←
    network.start.scheduleAll.improveAndPropagate task.objective s.measures.best .objective
  let s := { s with network, root }
  match outcome with
  | .ok () =>
    s.tell .rootPropagated
    return { s with turn := .node }
  | .error c => return { ← s.fail c with turn := .stop }

/-! ## Nodes -/

/-- The nogood that forbids to find a solution again. -/
def blocking (m : Model) (solution : Solution) : Nogood :=
  ⟨(m.allVars.zip solution.values).toList.map fun e => ⟨e.1, e.2, true⟩⟩

/-- The value of the objective, if there is one and it has one value left. -/
def objectiveValue (task : SearchTask) (m : Model) : Except Fault (Option Int) :=
  match task.objective with
  | some o => m.value? o.var
  | none => .ok none

/-- Hands out the solution at a node where no decision is left. Restarts would find it again, so unless the
next must be better it is forbidden. -/
def recordSolution (task : SearchTask) (s : SearchState σ) : Activity (SearchState σ) := do
  match ← Activity.quietly s.network.findViolated with
  | some (id, p) => throw (Fault.violated p.propagator.name id)
  | none =>
    let model := s.network.model
    let objective ← Activity.quietly (objectiveValue task model)
    let solution ← Activity.quietly (Solution.capture model objective)
    let s := { s with measures := { s.measures with
      solutions := s.measures.solutions + 1
      best := objective <|> s.measures.best } }
    Activity.report (.solutionFound s.measures.solutions objective s.path.depth)
    s.tell (.solution solution)
    let policy := task.config.restart
    let s ← if policy.isEnabled && task.objective.isNone then s.record (blocking model solution) else pure s
    let s := { s with found := s.found.push solution }
    if reached task.config.solutionLimit s.measures.solutions then
      return { s with stopped := some .solutionLimit, turn := .stop }
    else return { s with turn := if policy.atSolutions then .restart else .up }

/-- The next decision of the strategy; once it has none, of the variables in order with the least value
first. -/
def nextDecision (strategy : Strategy σ) (s : SearchState σ) : Except Fault (Option Decision × σ) := do
  let m := s.network.model
  match ← strategy.next s.brancher m with
  | (some d, brancher) => return (some d, brancher)
  | (none, brancher) => return ((← (Heuristic.inputOrderMin m.allVars.toList).next m).1, brancher)

/-- Opens a node, unless a limit was reached. -/
def openNode (task : SearchTask) (strategy : Strategy σ) (signals : Signals) (s : SearchState σ) :
    Activity (SearchState σ) := do
  match s.limit? task.config signals with
  | some reason =>
    Activity.report (.limitReached reason s.measures.nodes)
    return { s with stopped := some reason, turn := .stop }
  | none =>
    let s := { s with
      measures := { s.measures with nodes := s.measures.nodes + 1 }
      nodesSinceRestart := s.nodesSinceRestart + 1 }
    s.tell (.nodeOpened s.path.depth)
    if task.config.restart.isDue s.measures.restarts s.nodesSinceRestart then
      return { s with turn := .restart }
    let (decision, brancher) ← Activity.quietly (nextDecision strategy s)
    let s := { s with brancher }
    match decision with
    | some d => return { s with path := s.path.push d, turn := .down }
    | none => recordSolution task s

/-! ## Branches -/

/-- Opens a world, takes the next alternative of the deepest decision in it, and propagates. -/
def branch (task : SearchTask) (s : SearchState σ) (d : Decision) :
    Activity (Except Contradiction Unit × SearchState σ) := do
  let network ← Activity.quietly (s.network.mapModel fun m => .ok m.pushWorld)
  let (outcome, d, network) ← network.takeNext d
  let s := { s with path := s.path.replaceLast d }
  match outcome with
  | .error c => return (.error c, { s with network })
  | .ok () =>
    let (outcome, network) ← network.improveAndPropagate task.objective s.measures.best .objective
    return (outcome, { s with network })

/-- Opens the node below an alternative, or leaves the alternative if it failed. -/
def settle (s : SearchState σ) : Except Contradiction Unit → Activity (SearchState σ)
  | .ok () => return { s with turn := .node }
  | .error c => return { ← s.fail c with turn := .up }

/-- Goes down into the first alternative of the deepest decision. -/
def goDown (task : SearchTask) (s : SearchState σ) : Activity (SearchState σ) := do
  match s.path.last? with
  | none => throw Fault.missing
  | some d =>
    s.tell (.down d)
    let s := { s with measures := { s.measures with
      decisions := s.measures.decisions + 1
      maxDepth := max s.measures.maxDepth s.path.depth } }
    let (outcome, s) ← s.branch task d
    s.settle outcome

/-- Leaves the alternative of the deepest decision, for the refutation if that was not tried, or else for the
decision above. -/
def goUp (task : SearchTask) (s : SearchState σ) : Activity (SearchState σ) := do
  match s.path.last? with
  | none => return { s with turn := .stop }
  | some d =>
    let network ← Activity.quietly (s.network.mapModel Model.popWorld)
    let s := { s with
      network
      measures := { s.measures with backtracks := s.measures.backtracks + 1 } }
    if d.hasNext then
      s.tell (.up d)
      let (outcome, s) ← s.branch task d
      s.settle outcome
    else return { s with path := s.path.parent }

/-! ## Restarts -/

/-- Goes back to the root, and merges there what the nogoods and the objective give. -/
def restart (task : SearchTask) (strategy : Strategy σ) (s : SearchState σ) : Activity (SearchState σ) := do
  let nogoods := if task.config.nogoodsOnRestart then s.path.nogoods else []
  let network ← Activity.quietly (s.network.mapModel fun m => m.popUntil s.root)
  let restarts := s.measures.restarts + 1
  let s := { s with
    network := network.flush
    path := {}
    nodesSinceRestart := 0
    measures := { s.measures with restarts }
    brancher := strategy.restarted s.brancher restarts }
  Activity.report (.searchRestarted restarts nogoods.length s.measures.nodes s.measures.best)
  s.tell (.restarted restarts)
  let network ← Activity.quietly (s.network.mapModel fun m => .ok m.pushWorld)
  let s ← { s with network }.recordAll nogoods
  let (outcome, network) ← s.network.improveAndPropagate task.objective s.measures.best .restart
  let s := { s with network }
  match outcome with
  | .ok () =>
    let network ← Activity.quietly (s.network.mapModel Model.commitWorld)
    return { s with network, turn := .node }
  | .error c =>
    let s ← s.fail c
    let network ← Activity.quietly (s.network.mapModel Model.popWorld)
    return { s with network, turn := .stop }

/-- One turn. -/
def step (task : SearchTask) (strategy : Strategy σ) (signals : Signals) (s : SearchState σ) :
    Activity (SearchState σ) :=
  match s.turn with
  | .root => propagateRoot task s
  | .node => openNode task strategy signals s
  | .down => goDown task s
  | .up => goUp task s
  | .restart => restart task strategy s
  | .stop => pure s

end SearchState

end FiniteDomain
