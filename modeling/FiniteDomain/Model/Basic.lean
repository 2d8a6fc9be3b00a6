import FiniteDomain.Contradiction
import FiniteDomain.Domain.Mutation
import FiniteDomain.Model.Error

/-!
# Models

A model holds variables, the store of their domains, and the events of domain changes that nobody has looked
at yet. Variables are numbered in the order of their creation.
-/

namespace FiniteDomain

/-- A named variable and the cells of its domain. -/
structure Variable where
  name : String
  domain : Domain
deriving Repr, DecidableEq

structure Model where
  name : String
  store : Store Datum := {}
  vars : Array Variable := #[]
  /-- Changes not yet looked at, oldest first. -/
  events : Array Event := #[]
  /-- How many names were generated. -/
  generated : Nat := 0
deriving Repr

namespace Model

/-! ## Creation of variables -/

/-- An interval of fewer steps than this is enumerated, unless asked otherwise. -/
def enumerationLimit : Int := 65536

/-- A further variable, and the store in which its domain lives. -/
def append (m : Model) (name : String) (domain : Domain) (store : Store Datum) : VarId × Model :=
  (⟨m.vars.size⟩, { m with store, vars := m.vars.push ⟨name, domain⟩ })

/-- A variable of which only the bounds are kept. -/
def newBounded (m : Model) (name : String) (lb ub : Int) : Except ModelError (VarId × Model) :=
  if ub < lb then .error (.emptyInterval lb ub name)
  else
    let (domain, store) := Domain.bounded m.store lb ub
    .ok (m.append name domain store)

/-- The integers of an interval. -/
def interval (lb ub : Int) : Array Int :=
  (Array.range (ub - lb + 1).toNat).map fun (i : Nat) => lb + (i : Int)

/-- A variable over an interval that admits holes. -/
def newEnumerated (m : Model) (name : String) (lb ub : Int) : Except ModelError (VarId × Model) :=
  if ub < lb then .error (.emptyInterval lb ub name)
  else
    let (domain, store) := Domain.enumerated m.store (interval lb ub)
    .ok (m.append name domain store)

/-- A variable over an interval, with holes if the interval is short. -/
def newInteger (m : Model) (name : String) (lb ub : Int) : Except ModelError (VarId × Model) :=
  if Value.clamp (ub - lb) < enumerationLimit then m.newEnumerated name lb ub else m.newBounded name lb ub

/-- The values of a list in increasing order, each once. -/
def sortedValues (values : List Int) : Array Int := (values.mergeSort.eraseReps).toArray

/-- A variable over the values of a list. -/
def newOfValues (m : Model) (name : String) (values : List Int) : Except ModelError (VarId × Model) :=
  let sorted := sortedValues values
  if sorted.isEmpty then .error (.emptyValues name)
  else
    let (domain, store) := Domain.enumerated m.store sorted
    .ok (m.append name domain store)

/-- A variable with one value, named after it. -/
def newConstant (m : Model) (value : Int) : VarId × Model :=
  let (domain, store) := Domain.bounded m.store value value
  m.append s!"cste_{value}" domain store

/-- A variable with a generated name. The name is used up even if the variable is refused. -/
def newAnonymous (m : Model) (lb ub : Int) : Except ModelError VarId × Model :=
  let m := { m with generated := m.generated + 1 }
  match m.newInteger s!"tmp_{m.generated}" lb ub with
  | .ok (x, m) => (.ok x, m)
  | .error e => (.error e, m)

/-! ## Queries -/

def varCount (m : Model) : Nat := m.vars.size

/-- All variables in the order of creation. -/
def allVars (m : Model) : Array VarId := (Array.range m.vars.size).map VarId.mk

/-- The variable is one of this model. -/
def owns (m : Model) (x : VarId) : Bool := x.index < m.vars.size

/-- A variable by its number. -/
def variableOf (m : Model) (x : VarId) : Except Fault Variable :=
  match m.vars[x.index]? with
  | some v => .ok v
  | none => .error .missing

def varName (m : Model) (x : VarId) : Except Fault String := do return (← m.variableOf x).name

def domain (m : Model) (x : VarId) : Except Fault Domain := do return (← m.variableOf x).domain

def lb (m : Model) (x : VarId) : Except Fault Int := do return (← m.domain x).lb m.store

def ub (m : Model) (x : VarId) : Except Fault Int := do return (← m.domain x).ub m.store

def size (m : Model) (x : VarId) : Except Fault Int := do return (← m.domain x).size m.store

def extent (m : Model) (x : VarId) : Except Fault Domain.Extent := do return (← m.domain x).extent m.store

def contains (m : Model) (x : VarId) (v : Int) : Except Fault Bool := do (← m.domain x).contains m.store v

def isInstantiated (m : Model) (x : VarId) : Except Fault Bool := do
  return (← m.domain x).isInstantiated m.store

def isEnumerated (m : Model) (x : VarId) : Except Fault Bool := do return (← m.domain x).isEnumerated

/-- The value of a variable that has one left. -/
def value? (m : Model) (x : VarId) : Except Fault (Option Int) := do return (← m.domain x).value? m.store

def next? (m : Model) (x : VarId) (v : Int) : Except Fault (Option Int) := do (← m.domain x).next? m.store v

def previous? (m : Model) (x : VarId) (v : Int) : Except Fault (Option Int) := do
  (← m.domain x).previous? m.store v

def values (m : Model) (x : VarId) : Except Fault (Array Int) := do (← m.domain x).values m.store

/-- The values of all variables, of those that have one left. -/
def snapshot (m : Model) : Array (Option Int) := m.vars.map fun v => v.domain.value? m.store

/-- The bounds and sizes of all variables. -/
def extents (m : Model) : Array Domain.Extent := m.vars.map fun v => v.domain.extent m.store

def allInstantiated (m : Model) : Bool := m.vars.all fun v => v.domain.isInstantiated m.store

def world (m : Model) : Nat := m.store.world

/-! ## Narrowing -/

/-- Narrows the domain of a variable. The answer says whether it changed, or that nothing would be left; a
change also becomes an event. -/
def apply (m : Model) (x : VarId) (μ : Mutation) (cause : Cause) :
    Except Fault (Except Contradiction Bool × Model) :=
  match m with
  | ⟨name, store, vars, events, generated⟩ =>
    match vars[x.index]? with
    | none => .error .missing
    | some v =>
      match v.domain.apply store μ with
      | .error fault => .error fault
      | .ok (.unchanged, store) => .ok (.ok false, ⟨name, store, vars, events, generated⟩)
      | .ok (.changed kind, store) =>
        .ok (.ok true, ⟨name, store, vars, events.push ⟨x, kind, cause⟩, generated⟩)
      | .ok (.emptied, store) =>
        .ok (.error ⟨.emptyDomain x, cause⟩, ⟨name, store, vars, events, generated⟩)

/-- Narrows the domain of a variable and keeps no event of it. -/
def applySilently (m : Model) (x : VarId) (μ : Mutation) : Except Fault (Update × Model) := do
  let v ← m.variableOf x
  let (update, store) ← v.domain.apply m.store μ
  return (update, { m with store })

/-- Forgets the events. -/
def clearEvents (m : Model) : Model := { m with events := #[] }

/-! ## Worlds -/

def pushWorld (m : Model) : Model :=
  match m with
  | ⟨name, store, vars, events, generated⟩ => ⟨name, store.push, vars, events, generated⟩

def popWorld (m : Model) : Except Fault Model :=
  match m with
  | ⟨name, store, vars, events, generated⟩ => do return ⟨name, ← store.pop, vars, events, generated⟩

def popUntil (m : Model) (target : Nat) : Except Fault Model :=
  match m with
  | ⟨name, store, vars, events, generated⟩ => do
    return ⟨name, ← store.popUntil target, vars, events, generated⟩

def commitWorld (m : Model) : Except Fault Model :=
  match m with
  | ⟨name, store, vars, events, generated⟩ => do return ⟨name, ← store.commit, vars, events, generated⟩

/-- Writes a cell of the store. -/
def setCell (m : Model) (cell : Nat) (value : Datum) : Model :=
  match m with
  | ⟨name, store, vars, events, generated⟩ => ⟨name, store.set cell value, vars, events, generated⟩

end Model

end FiniteDomain
