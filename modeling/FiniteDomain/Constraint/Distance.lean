import FiniteDomain.Model.Error
import FiniteDomain.Propagation.Propagator

/-!
# Distances

The distance of two variables is equal to, different from, below or above a constant. An equality is filtered
value by value where holes are kept, and at the bounds elsewhere; the other three look at bounds and at fixed
values only.
-/

namespace FiniteDomain

/-- How a distance compares with the constant. -/
inductive DistanceRelation where
  | eq
  | ne
  | lt
  | gt
deriving Repr, DecidableEq

namespace DistanceRelation

/-- The comparisons that are filtered for distances. -/
def ofRelation? : Relation → Option DistanceRelation
  | .eq => some eq
  | .ne => some ne
  | .lt => some lt
  | .gt => some gt
  | .le => none
  | .ge => none

def toRelation : DistanceRelation → Relation
  | eq => .eq
  | ne => .ne
  | lt => .lt
  | gt => .gt

end DistanceRelation

/-- The distance of `x` and `y` compares with the constant. -/
structure Distance where
  x : VarId
  y : VarId
  relation : DistanceRelation
  constant : Int
  /-- The domains that admit holes. -/
  enumerated : Bool × Bool
deriving Repr, DecidableEq

namespace Distance

def Holds (c : Distance) (a : Assignment) : Prop :=
  c.relation.toRelation.Holds (a c.x - a c.y).natAbs c.constant

instance (c : Distance) (a : Assignment) : Decidable (c.Holds a) :=
  inferInstanceAs (Decidable (Relation.Holds _ _ _))

/-- The distance of two variables of a model, compared in a way that can be filtered. -/
def ofModel (m : Model) (x y : VarId) (relation : Relation) (constant : Int) :
    Except Fault (Except ModelError Distance) := do
  match DistanceRelation.ofRelation? relation with
  | none => return .error (.distanceRelation relation)
  | some relation =>
    return .ok { x, y, relation, constant, enumerated := (← m.isEnumerated x, ← m.isEnumerated y) }

/-- The sum, or the nearest value to it. -/
def plus (a b : Int) : Int := Value.clamp (a + b)

/-- The difference, or the nearest value to it. -/
def minus (a b : Int) : Int := Value.clamp (a - b)

/-- The least value of a domain from `v` on. -/
def nextFrom (x : VarId) (v : Int) : Filter (Option Int) :=
  Filter.ask fun m => do (← m.domain x).nextFrom? m.store v

/-- The greatest value of a domain up to `v`. -/
def previousFrom (x : VarId) (v : Int) : Filter (Option Int) :=
  Filter.ask fun m => do (← m.domain x).previousFrom? m.store v

/-- The domain contains the value, if it is one. -/
def holdsAt (m : Model) (x : VarId) : Option Int → Except Fault Bool
  | none => return false
  | some v => m.contains x v

/-- The lesser of two candidates. -/
def least? : Option Int → Option Int → Option Int
  | some a, some b => some (min a b)
  | none, b => b
  | a, none => a

/-- The greater of two candidates. -/
def greatest? : Option Int → Option Int → Option Int
  | some a, some b => some (max a b)
  | none, b => b
  | a, none => a

/-- Some value of the domain of `b` is at the distance of the constant from `v`. -/
def supported (c : Distance) (m : Model) (b : VarId) (v : Int) : Except Fault Bool := do
  if ← holdsAt m b (Value.ofInt? (v - c.constant)) then return true
  holdsAt m b (Value.ofInt? (v + c.constant))

/-- The domain of `a` admits holes. -/
def admitsHoles (c : Distance) (a : VarId) : Bool := if a = c.x then c.enumerated.1 else c.enumerated.2

/-- Removes the given values and says whether any was there. -/
def removeAll (a : VarId) (changed : Bool) : List Int → Filter Bool
  | [] => return changed
  | v :: rest => do
    let removed ← Filter.narrow a (.remove v)
    removeAll a (changed || removed) rest

/-- Keeps the values of `a` that have one of `b` at the distance of the constant. The bounds of `a` are settled
first, by the nearest values of `b`. -/
def filterEq (c : Distance) (a b : VarId) : Filter Bool := do
  let k := c.constant
  let near ← Filter.narrow a (.within (minus (← Filter.lb b) k) (plus (← Filter.ub b) k))
  let least ← Filter.lb a
  let low := least? ((← nextFrom b (minus least k)).map fun w => plus w k)
    ((← nextFrom b (plus least k)).map fun w => minus w k)
  let greatest ← Filter.ub a
  let high := greatest? ((← previousFrom b (minus greatest k)).map fun w => plus w k)
    ((← previousFrom b (plus greatest k)).map fun w => minus w k)
  match low, high with
  | some low, some high =>
    let moved ← Filter.narrow a (.within low high)
    if c.admitsHoles a then
      let unsupported ← Filter.ask fun m => do
        (← m.values a).toList.filterM fun v => do return !(← c.supported m b v)
      removeAll a (near || moved) unsupported
    else return near || moved
  | _, _ => Filter.fail .noDistance

/-- Repeats a pass until it changes nothing. -/
def repeatPass (pass : Filter Bool) : Nat → Filter Unit
  | 0 => Filter.abort .outOfFuel
  | fuel + 1 => do
    if ← pass then repeatPass pass fuel

/-- Two passes, one for each variable. -/
def bothWays (pass : VarId → VarId → Filter Bool) (x y : VarId) : Filter Bool := do
  let first ← pass x y
  let second ← pass y x
  return first || second

/-- More than the number of values that the two domains can lose. -/
def patience (c : Distance) : Filter Nat := do
  let spanX := (← Filter.ub c.x) - (← Filter.lb c.x)
  let spanY := (← Filter.ub c.y) - (← Filter.lb c.y)
  return spanX.toNat + spanY.toNat + 1

def runEq (c : Distance) : Filter Unit := do
  if c.constant < 0 then Filter.fail .negativeDistance
  else
    repeatPass (bothWays c.filterEq c.x c.y) (← c.patience)
    if (← Filter.isInstantiated c.x) && (← Filter.isInstantiated c.y) then Filter.setPassive

/-- Once `a` is fixed, the two values at the distance of the constant go from `b`. -/
def removeAround (c : Distance) (b : VarId) (v : Int) : Filter Unit := do
  let below := Value.ofInt? (v - c.constant)
  let above := Value.ofInt? (v + c.constant)
  let _ ← removeAll b false (below.toList ++ above.toList)
  let left ← Filter.ask fun m => do
    if ← holdsAt m b below then return true
    holdsAt m b above
  if !left then Filter.setPassive

def runNe (c : Distance) : Filter Unit := do
  if c.constant < 0 then Filter.setPassive
  else
    match ← Filter.value? c.x with
    | some v => c.removeAround c.y v
    | none =>
      match ← Filter.value? c.y with
      | some v => c.removeAround c.x v
      | none => pure ()

/-- The least and the greatest distance between the bounds of the two variables. -/
def range (c : Distance) (m : Model) : Except Fault (Int × Int) := do
  let lx ← m.lb c.x
  let ux ← m.ub c.x
  let ly ← m.lb c.y
  let uy ← m.ub c.y
  let least := if ux < ly then ly - ux else if uy < lx then lx - uy else 0
  return (least, max (ux - ly) (uy - lx))

/-- The distance of two fixed variables. -/
def fixed? (c : Distance) (m : Model) : Except Fault (Option Int) := do
  match ← m.value? c.x, ← m.value? c.y with
  | some a, some b => return some (a - b).natAbs
  | _, _ => return none

def entailed (c : Distance) (m : Model) : Except Fault Entailment := do
  let (least, greatest) ← c.range m
  let outside := c.constant < least || greatest < c.constant
  let fixed ← c.fixed? m
  match c.relation with
  | .eq =>
    match fixed with
    | some d => return if d = c.constant then .always else .never
    | none => return if outside then .never else .undecided
  | .ne =>
    match fixed with
    | some d => return if d = c.constant then .never else .always
    | none => return if outside then .always else .undecided
  | .lt => return if greatest < c.constant then .always else if c.constant ≤ least then .never else .undecided
  | .gt => return if c.constant < least then .always else if greatest ≤ c.constant then .never else .undecided

def setPassiveIfEntailed (c : Distance) : Filter Unit := do
  if (← Filter.ask c.entailed) = .always then Filter.setPassive

/-- Brings the bounds of `a` to within less than the constant of those of `b`. -/
def filterLt (c : Distance) (a b : VarId) : Filter Bool := do
  let k := c.constant - 1
  Filter.narrow a (.within (minus (← Filter.lb b) k) (plus (← Filter.ub b) k))

def runLt (c : Distance) : Filter Unit := do
  if c.constant ≤ 0 then Filter.fail .distanceBelowBound
  else
    repeatPass (bothWays c.filterLt c.x c.y) (← c.patience)
    c.setPassiveIfEntailed

/-- Removes from `a` what is within the constant of every value of `b`. -/
def filterGt (c : Distance) (a b : VarId) : Filter Bool := do
  Filter.narrow a (.removeRange (minus (← Filter.ub b) c.constant) (plus (← Filter.lb b) c.constant))

def runGt (c : Distance) : Filter Unit := do
  if c.constant < 0 then Filter.setPassive
  else
    repeatPass (bothWays c.filterGt c.x c.y) (← c.patience)
    c.setPassiveIfEntailed

def filter (c : Distance) : Filter Unit :=
  match c.relation with
  | .eq => c.runEq
  | .ne => c.runNe
  | .lt => c.runLt
  | .gt => c.runGt

def condition (c : Distance) (place : Nat) : EventMask :=
  match c.relation with
  | .ne => .instantiation
  | .eq => if (if place = 0 then c.enumerated.1 else c.enumerated.2) then .all else .boundAndInst
  | _ => .boundAndInst

def propagator (c : Distance) : Propagator where
  name := "DistanceXYC"
  scope := #[c.x, c.y]
  priority := .binary
  condition := c.condition
  run := c.filter
  entailed := c.entailed

end Distance

end FiniteDomain
