import FiniteDomain.Branch.Alternative
import FiniteDomain.Branch.Draws

/-!
# Heuristics

A heuristic branches on the variables of a list: one rule picks a variable that has more than one value left,
another the split of its domain. Of an interval only splits are made whose refutation moves a bound.
-/

namespace FiniteDomain

/-- Which variable to branch on. Of equals the first in the list is taken. -/
inductive VarSelector where
  /-- The first. -/
  | inputOrder
  /-- The fewest values. -/
  | firstFail
  /-- The most values. -/
  | antiFirstFail
  /-- The least lower bound. -/
  | smallest
  /-- The greatest upper bound. -/
  | largest
  | random
deriving Repr, DecidableEq, Inhabited

namespace VarSelector

def text : VarSelector → String
  | inputOrder => "InputOrder"
  | firstFail => "FirstFail"
  | antiFirstFail => "AntiFirstFail"
  | smallest => "Smallest"
  | largest => "Largest"
  | random => "Random"

end VarSelector

/-- How to split the domain of the variable. -/
inductive ValSelector where
  /-- Take the lower bound. -/
  | min
  /-- Take the upper bound. -/
  | max
  /-- Take the value nearest to the middle of the bounds; split an interval there. -/
  | middle
  /-- Take any value; of an interval, one of its bounds. -/
  | random
  /-- Keep what is at most the middle. -/
  | splitMiddle
  /-- Keep what is above the middle. -/
  | reverseSplitMiddle
deriving Repr, DecidableEq, Inhabited

namespace ValSelector

def text : ValSelector → String
  | min => "Min"
  | max => "Max"
  | middle => "Middle"
  | random => "Random"
  | splitMiddle => "SplitMiddle"
  | reverseSplitMiddle => "ReverseSplitMiddle"

end ValSelector

structure Heuristic where
  vars : List VarId
  varSelector : VarSelector := .inputOrder
  valSelector : ValSelector := .min
  seed : Nat := 0
  draws : Draws := { seed }

namespace Heuristic

/-- A heuristic whose draws start at a seed. -/
def ofSeed (vars : List VarId) (varSelector : VarSelector) (valSelector : ValSelector) (seed : Nat) :
    Heuristic := { vars, varSelector, valSelector, seed }

/-- The first variable with more than one value, and its least value. -/
def inputOrderMin (vars : List VarId) : Heuristic := { vars }

/-! ## Picking a variable -/

/-- The variable has more than one value left. -/
def isFree (m : Model) (x : VarId) : Except Fault Bool := do return !(← m.isInstantiated x)

/-- The first of the variables that has more than one value left. -/
def firstFree (m : Model) : List VarId → Except Fault (Option VarId)
  | [] => return none
  | x :: rest => do if ← isFree m x then return some x else firstFree m rest

/-- The variables that have more than one value left. -/
def allFree (m : Model) : List VarId → Except Fault (List VarId)
  | [] => return []
  | x :: rest => do
    if ← isFree m x then return x :: (← allFree m rest) else allFree m rest

/-- The first of the variables whose key is least. -/
def leastBy (key : VarId → Except Fault Int) : List VarId → Except Fault (Option VarId)
  | [] => return none
  | x :: rest => do
    match ← leastBy key rest with
    | none => return some x
    | some y => return some (if (← key x) ≤ (← key y) then x else y)

/-- The variable to branch on, if one has more than one value left. -/
def pickVar (h : Heuristic) (m : Model) : Except Fault (Option VarId × Heuristic) := do
  match h.varSelector with
  | .inputOrder => return (← firstFree m h.vars, h)
  | .firstFail => return (← leastBy m.size (← allFree m h.vars), h)
  | .antiFirstFail => return (← leastBy (fun x => do return -(← m.size x)) (← allFree m h.vars), h)
  | .smallest => return (← leastBy m.lb (← allFree m h.vars), h)
  | .largest => return (← leastBy (fun x => do return -(← m.ub x)) (← allFree m h.vars), h)
  | .random =>
    let free ← allFree m h.vars
    if free.isEmpty then return (none, h)
    let (i, draws) := h.draws.below free.length
    return (free[i]?, { h with draws })

/-! ## Picking a split -/

/-- The middle of two bounds, the lower one of two. -/
def middle (lb ub : Int) : Int := lb + (ub - lb) / 2

/-- The value nearest to `v`, the lower one of two. -/
def nearest (m : Model) (x : VarId) (v : Int) : Except Fault Int := do
  if ← m.contains x v then return v
  match ← m.previous? x v, ← m.next? x v with
  | some low, some high => return if v - low ≤ high - v then low else high
  | none, some high => return high
  | some low, none => return low
  | none, none => m.lb x

/-- Any value of the variable, of an interval one of its bounds. -/
def anyValue (h : Heuristic) (m : Model) (x : VarId) : Except Fault (Int × Heuristic) := do
  let values ← if ← m.isEnumerated x then m.values x else pure #[← m.lb x, ← m.ub x]
  let (i, draws) := h.draws.below values.size
  match values[i]? with
  | some v => return (v, { h with draws })
  | none => throw .missing

/-- The split of the domain of the variable. -/
def pickSplit (h : Heuristic) (m : Model) (x : VarId) : Except Fault (Decision × Heuristic) := do
  let lb ← m.lb x
  let ub ← m.ub x
  let mid := middle lb ub
  match h.valSelector with
  | .min => return (⟨x, lb, .assign, 0⟩, h)
  | .max => return (⟨x, ub, .assign, 0⟩, h)
  | .middle =>
    if ← m.isEnumerated x then return (⟨x, ← nearest m x mid, .assign, 0⟩, h)
    else return (⟨x, mid, .lower, 0⟩, h)
  | .random =>
    let (v, h) ← h.anyValue m x
    return (⟨x, v, .assign, 0⟩, h)
  | .splitMiddle => return (⟨x, mid, .lower, 0⟩, h)
  | .reverseSplitMiddle => return (⟨x, ← successor mid, .upper, 0⟩, h)

/-- The next decision, if a variable of the list has more than one value left. -/
def next (h : Heuristic) (m : Model) : Except Fault (Option Decision × Heuristic) := do
  match ← h.pickVar m with
  | (none, h) => return (none, h)
  | (some x, h) =>
    let (d, h) ← h.pickSplit m x
    return (some d, h)

/-- After so many restarts the draws begin anew, from a seed of their own. -/
def restarted (h : Heuristic) (restarts : Nat) : Heuristic :=
  { h with draws := h.draws.reseed ((h.seed + restarts) % Nat.pow 2 64) }

end Heuristic

end FiniteDomain
