import FiniteDomain.Branch.Path
import FiniteDomain.Branch.Strategy
import FiniteDomain.Search.Objective
import FiniteDomain.Search.Restart

/-!
# States of a search

A search goes through a tree of decisions depth first. Its state holds the network, the path to the current
node, and which turn comes next. The root of the tree lives in a world of its own, and each decision on the
path has one more above it.
-/

namespace FiniteDomain

/-- What is searched for, and within which limits. -/
structure SearchTask where
  config : SearchConfig
  objective : Option Objective := none

/-- The next turn of a search. -/
inductive Turn where
  /-- Propagate at the root. -/
  | root
  /-- Open the node: branch, or record a solution. -/
  | node
  /-- Try the first alternative of the deepest decision. -/
  | down
  /-- Leave the alternative of the deepest decision. -/
  | up
  /-- Go back to the root. -/
  | restart
  | stop
deriving Repr, DecidableEq

/-- What a search learns from outside at the start of a turn. -/
structure Signals where
  cancelled : Bool := false
  elapsedMs : Nat := 0
deriving Repr, DecidableEq

/-- Where a search began: the world that it returns to, and the executions before it. -/
structure Origin where
  world : Nat
  executions : Nat
deriving Repr, DecidableEq

namespace Origin

def ofNetwork (n : Network) : Origin := ⟨n.model.world, n.executions⟩

end Origin

/-- A state of a search whose strategy has states of type `σ`. -/
structure SearchState (σ : Type) where
  network : Network
  brancher : σ
  turn : Turn := .root
  path : DecisionPath := {}
  /-- The world of the root of the tree. -/
  root : Nat := 0
  nodesSinceRestart : Nat := 0
  measures : Measures := {}
  /-- The solutions found so far, oldest first. -/
  found : Array Solution := #[]
  /-- The nogoods posted by the search, which it removes at its end. -/
  recorded : Array PropId := #[]
  stopped : Option StopReason := none

namespace SearchState

variable {σ : Type}

/-- The observers are called. -/
def tell (s : SearchState σ) (c : Callback) : Activity Unit := Activity.report (.callback c s.network.model)

/-- The count has reached the limit. -/
def reached (limit : Option Nat) (count : Nat) : Bool :=
  match limit with
  | some l => l ≤ count
  | none => false

/-- The first reason to stop before the next node. -/
def limit? (s : SearchState σ) (c : SearchConfig) (signals : Signals) : Option StopReason :=
  if signals.cancelled then some .cancelled
  else if reached c.nodeLimit s.measures.nodes then some .nodeLimit
  else if reached c.failLimit s.measures.fails then some .failLimit
  else if reached c.timeLimitMs signals.elapsedMs then some .timeLimit
  else none

end SearchState

end FiniteDomain
