import FiniteDomain.Domain.Basic
import FiniteDomain.Event

/-!
# Mutations of domains

A mutation asks that some values go. It is refused, with the domain as it was, if none would be left, and
otherwise says which kind of change it made. In an interval only values at its ends can go.
-/

namespace FiniteDomain

/-- What a domain is asked to keep. -/
inductive Mutation where
  | atLeast (v : Int)
  | atMost (v : Int)
  | within (low high : Int)
  | remove (v : Int)
  | removeRange (low high : Int)
  | assign (v : Int)
deriving Repr, DecidableEq

namespace Mutation

/-- The value is one that the mutation keeps. -/
def Keeps : Mutation → Int → Prop
  | atLeast v, w => v ≤ w
  | atMost v, w => w ≤ v
  | within low high, w => low ≤ w ∧ w ≤ high
  | remove v, w => w ≠ v
  | removeRange low high, w => ¬(low ≤ w ∧ w ≤ high)
  | assign v, w => w = v

instance (μ : Mutation) (w : Int) : Decidable (μ.Keeps w) := by
  cases μ <;> unfold Keeps <;> infer_instance

end Mutation

/-- What came of a mutation. -/
inductive Update where
  | unchanged
  | changed (kind : EventKind)
  | emptied
deriving Repr, DecidableEq

namespace Update

/-- Two changes one after the other, taken as one. -/
def merge : Update → Update → Update
  | changed a, changed b => changed (a.merge b)
  | unchanged, u => u
  | u, unchanged => u
  | _, _ => emptied

end Update

namespace Domain

/-- The kind of a moved bound: an instantiation if the bounds met. -/
def boundKind (d : Domain) (s : Store Datum) (kind : EventKind) : EventKind :=
  if d.isInstantiated s then .instantiate else kind

/-- Keeps the values from `v` on. -/
def atLeast (d : Domain) (s : Store Datum) (v : Int) : Except Fault (Update × Store Datum) := do
  let lb := d.lb s
  if v ≤ lb then return (.unchanged, s)
  if d.ub s < v then return (.emptied, s)
  match d.members with
  | none =>
    let s := s.set d.lower (.int v)
    return (.changed (d.boundKind s .incLow), s)
  | some m =>
    match ← d.nextFrom? s v with
    | none => return (.emptied, s)
    | some w =>
      let removed ← m.count s (← m.places.place lb) (← placeBefore (← m.places.place w))
      let (_, s) ← s.add m.size (-removed)
      let s := s.set d.lower (.int w)
      return (.changed (d.boundKind s .incLow), s)

/-- Keeps the values up to `v`. -/
def atMost (d : Domain) (s : Store Datum) (v : Int) : Except Fault (Update × Store Datum) := do
  let ub := d.ub s
  if ub ≤ v then return (.unchanged, s)
  if v < d.lb s then return (.emptied, s)
  match d.members with
  | none =>
    let s := s.set d.upper (.int v)
    return (.changed (d.boundKind s .decUpp), s)
  | some m =>
    match ← d.previousFrom? s v with
    | none => return (.emptied, s)
    | some w =>
      let removed ← m.count s ((← m.places.place w) + 1) (← m.places.place ub)
      let (_, s) ← s.add m.size (-removed)
      let s := s.set d.upper (.int w)
      return (.changed (d.boundKind s .decUpp), s)

/-- Some value lies within the limits. -/
def meets (d : Domain) (s : Store Datum) (low high : Int) : Except Fault Bool := do
  if high < low ∨ d.ub s < low ∨ high < d.lb s then return false
  if d.isEnumerated then
    match ← d.nextFrom? s low with
    | some v => return v ≤ high
    | none => return false
  else return true

/-- Keeps the values within the limits. Whether any is left is settled before a bound moves. -/
def within (d : Domain) (s : Store Datum) (low high : Int) : Except Fault (Update × Store Datum) := do
  if ← d.meets s low high then
    match ← d.atLeast s low with
    | (.emptied, s) => return (.emptied, s)
    | (first, s) =>
      match ← d.atMost s high with
      | (.emptied, s) => return (.emptied, s)
      | (second, s) => return (first.merge second, s)
  else return (.emptied, s)

/-- Removes a value. -/
def remove (d : Domain) (s : Store Datum) (v : Int) : Except Fault (Update × Store Datum) := do
  if ← d.contains s v then
    let lb := d.lb s
    let ub := d.ub s
    if lb = ub then return (.emptied, s)
    else if v = lb then d.atLeast s (← successor v)
    else if v = ub then d.atMost s (← predecessor v)
    else
      match d.members with
      | none => return (.unchanged, s)
      | some m =>
        let i ← m.places.place v
        m.check i
        let w := Word.erase (m.row s (i / Word.width)) (i % Word.width)
        let s := s.set (m.words.cell (i / Word.width)) (.word w)
        let (_, s) ← s.add m.size (-1)
        return (.changed .remove, s)
  else return (.unchanged, s)

/-- Removes the values after `v` and up to `high`, one by one. -/
def removeUpTo (d : Domain) (s : Store Datum) (v high : Int) (sofar : Update) :
    Nat → Except Fault (Update × Store Datum)
  | 0 => .error .outOfFuel
  | fuel + 1 => do
    match ← d.next? s v with
    | none => return (sofar, s)
    | some w =>
      if w ≤ high then
        match ← d.remove s w with
        | (.emptied, s) => return (.emptied, s)
        | (update, s) => d.removeUpTo s w high (sofar.merge update) fuel
      else return (sofar, s)

/-- Removes the values within the limits. -/
def removeRange (d : Domain) (s : Store Datum) (low high : Int) : Except Fault (Update × Store Datum) := do
  let lb := d.lb s
  let ub := d.ub s
  if high < low ∨ high < lb ∨ ub < low then return (.unchanged, s)
  else if low ≤ lb then
    if ub ≤ high then return (.emptied, s) else d.atLeast s (← successor high)
  else if ub ≤ high then d.atMost s (← predecessor low)
  else if d.isEnumerated then
    d.removeUpTo s (← predecessor low) high .unchanged ((high - low).toNat + 2)
  else return (.unchanged, s)

/-- Keeps one value. -/
def assign (d : Domain) (s : Store Datum) (v : Int) : Except Fault (Update × Store Datum) := do
  if ← d.contains s v then
    if d.isInstantiated s then return (.unchanged, s)
    let s := s.set d.lower (.int v)
    let s := s.set d.upper (.int v)
    match d.members with
    | none => return (.changed .instantiate, s)
    | some m => return (.changed .instantiate, s.set m.size (.int 1))
  else return (.emptied, s)

/-- Narrows a domain as asked. -/
def apply (d : Domain) (s : Store Datum) : Mutation → Except Fault (Update × Store Datum)
  | .atLeast v => d.atLeast s v
  | .atMost v => d.atMost s v
  | .within low high => d.within s low high
  | .remove v => d.remove s v
  | .removeRange low high => d.removeRange s low high
  | .assign v => d.assign s v

end Domain

end FiniteDomain
