import FiniteDomain.Decimal.Shortest

/-!
# Configuration of a search

Limits, the restart policy, and the checks that a configuration has to pass before a search begins.
-/

namespace FiniteDomain

/-- When a search goes back to its root. -/
inductive RestartPolicy where
  | never
  | onSolution
  /-- After as many nodes as the scale times the next number of the Luby sequence. -/
  | luby (scale : Nat)
  /-- After as many nodes as the scale times a growing power of the factor. -/
  | geometric (scale : Nat) (factor : Float)
deriving Repr

structure SearchConfig where
  nodeLimit : Option Nat := none
  failLimit : Option Nat := none
  solutionLimit : Option Nat := none
  timeLimitMs : Option Nat := none
  restart : RestartPolicy := .never
  /-- Restarts post nogoods of the closed part of the path. -/
  nogoodsOnRestart : Bool := false
  seed : Option Nat := none
deriving Repr

/-- Why a configuration is refused. -/
inductive ConfigError where
  | solutionLimit
  | lubyScale
  | geometricScale
  | geometricFactor (factor : Float)
deriving Repr

namespace ConfigError

def message : ConfigError → String
  | solutionLimit => "solution_limit must be positive"
  | lubyScale => "luby scale must be positive"
  | geometricScale => "geometric scale must be positive"
  | geometricFactor factor =>
    s!"geometric factor must be a finite value >= 1, got {Decimal.shortestText factor}"

end ConfigError

namespace RestartPolicy

/-- The first thing that is wrong with a policy. -/
def problem? : RestartPolicy → Option ConfigError
  | never | onSolution => none
  | luby scale => if scale = 0 then some .lubyScale else none
  | geometric scale factor =>
    if scale = 0 then some .geometricScale
    else if !factor.isFinite || factor < 1.0 then some (.geometricFactor factor)
    else none

def text : RestartPolicy → String
  | never => "Never"
  | onSolution => "OnSolution"
  | luby scale => s!"Luby \x7b scale: {scale} \x7d"
  | geometric scale factor => s!"Geometric \x7b scale: {scale}, factor: {Decimal.markedText factor} \x7d"

end RestartPolicy

namespace SearchConfig

/-- A number that may be absent. -/
def optionText : Option Nat → String
  | some n => s!"Some({n})"
  | none => "None"

def text (c : SearchConfig) : String :=
  s!"SearchConfig \x7b node_limit: {optionText c.nodeLimit}, fail_limit: {optionText c.failLimit}, " ++
    s!"solution_limit: {optionText c.solutionLimit}, time_limit_ms: {optionText c.timeLimitMs}, " ++
    s!"restart: {c.restart.text}, nogoods_on_restart: {c.nogoodsOnRestart}, seed: {optionText c.seed} \x7d"

/-- The first thing that is wrong with a configuration. -/
def problem? (c : SearchConfig) : Option ConfigError :=
  if c.solutionLimit = some 0 then some .solutionLimit else c.restart.problem?

end SearchConfig

end FiniteDomain
