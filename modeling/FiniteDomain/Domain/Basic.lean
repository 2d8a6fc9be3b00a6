import FiniteDomain.Domain.Universe
import FiniteDomain.Domain.Word
import FiniteDomain.Store.Datum

/-!
# Domains

A domain lives in the cells of a store. A bounded one is an interval of two cells. An enumerated one also has a
universe, a row of words that say which places of the universe are left, and the number of values. Places
outside the two bounds are never looked at, so moving a bound need not touch the words.
-/

namespace FiniteDomain

/-- The part of a domain that admits holes: the cell of the number of values, the universe, and its words. -/
structure Members where
  size : Nat
  places : Universe
  words : Block
deriving Repr, DecidableEq

/-- The cells of the two bounds, and the members if holes are tracked. -/
structure Domain where
  lower : Nat
  upper : Nat
  members : Option Members
deriving Repr, DecidableEq

namespace Members

/-- The words of the members as they stand in the store. -/
def row (m : Members) (s : Store Datum) (j : Nat) : UInt64 := s.word (m.words.cell j)

/-- Every place up to `i` has its word. -/
def check (m : Members) (i : Nat) : Except Fault Unit :=
  if i / Word.width < m.words.length then .ok () else .error .missing

/-- The place is left. -/
def has (m : Members) (s : Store Datum) (i : Nat) : Except Fault Bool := do
  m.check i
  return Words.has (m.row s) i

/-- The least value left from one place to another. -/
def next? (m : Members) (s : Store Datum) (start limit : Nat) : Except Fault (Option Int) := do
  if limit < start then return none
  m.check limit
  match Words.next? (m.row s) start limit with
  | some i => return some (← m.places.value i)
  | none => return none

/-- The greatest value left from one place down to another. -/
def previous? (m : Members) (s : Store Datum) (start limit : Nat) : Except Fault (Option Int) := do
  if start < limit then return none
  m.check start
  match Words.previous? (m.row s) start limit with
  | some i => return some (← m.places.value i)
  | none => return none

/-- The number of values left from one place to another. -/
def count (m : Members) (s : Store Datum) (start limit : Nat) : Except Fault Nat := do
  if limit < start then return 0
  m.check limit
  return Words.count (m.row s) start limit

end Members

/-- The integer after `v`. -/
def successor (v : Int) : Except Fault Int :=
  match Value.ofInt? (v + 1) with
  | some w => .ok w
  | none => .error .overflow

/-- The integer before `v`. -/
def predecessor (v : Int) : Except Fault Int :=
  match Value.ofInt? (v - 1) with
  | some w => .ok w
  | none => .error .overflow

/-- The place before `i`. -/
def placeBefore : Nat → Except Fault Nat
  | 0 => .error .overflow
  | i + 1 => .ok i

namespace Domain

/-! ## Creation -/

/-- An interval. -/
def bounded (s : Store Datum) (lb ub : Int) : Domain × Store Datum :=
  let (lower, s) := s.make (.int lb)
  let (upper, s) := s.make (.int ub)
  (⟨lower, upper, none⟩, s)

/-- The words of a universe in which just the given values are left. -/
def wordsOf (u : Universe) (values : Array Int) : Array UInt64 :=
  let clear := Array.replicate ((u.length + (Word.width - 1)) / Word.width) (0 : UInt64)
  values.foldl (fun words v =>
    match u.index? v with
    | some i => words.modify (i / Word.width) fun w => Word.insert w (i % Word.width)
    | none => words) clear

/-- Writes a list of words into a row of cells from a cell on. -/
def writeWords (s : Store Datum) (cell : Nat) : List UInt64 → Store Datum
  | [] => s
  | w :: rest => writeWords (s.set cell (.word w)) (cell + 1) rest

/-- The values of a nonempty array in increasing order. The words start clear and are then written, so below
the world of its creation a domain loses them again. -/
def enumerated (s : Store Datum) (values : Array Int) : Domain × Store Datum :=
  let places := Universe.ofSorted values
  let words := wordsOf places values
  let (start, s) := s.makeMany words.size (.word 0)
  let s := writeWords s start words.toList
  let (lower, s) := s.make (.int (values[0]?.getD 0))
  let (upper, s) := s.make (.int (values.back?.getD 0))
  let (size, s) := s.make (.int values.size)
  (⟨lower, upper, some ⟨size, places, ⟨start, words.size⟩⟩⟩, s)

/-! ## Queries -/

def isEnumerated (d : Domain) : Bool := d.members.isSome

def lb (d : Domain) (s : Store Datum) : Int := s.int d.lower

def ub (d : Domain) (s : Store Datum) : Int := s.int d.upper

/-- The number of values. Of an interval it is cut off at the greatest value. -/
def size (d : Domain) (s : Store Datum) : Int :=
  match d.members with
  | none => Value.clamp (Value.clamp (d.ub s - d.lb s) + 1)
  | some m => s.int m.size

def isInstantiated (d : Domain) (s : Store Datum) : Bool := d.lb s == d.ub s

/-- The value, if one is left. -/
def value? (d : Domain) (s : Store Datum) : Option Int :=
  if d.isInstantiated s then some (d.lb s) else none

def contains (d : Domain) (s : Store Datum) (v : Int) : Except Fault Bool :=
  if v < d.lb s ∨ d.ub s < v then .ok false
  else
    match d.members with
    | none => .ok true
    | some m =>
      match m.places.index? v with
      | some i => m.has s i
      | none => .ok false

/-- The least value above `v`. -/
def next? (d : Domain) (s : Store Datum) (v : Int) : Except Fault (Option Int) := do
  if d.ub s ≤ v then return none
  match d.members with
  | none => return some (max (← successor v) (d.lb s))
  | some m =>
    let start := max (m.places.countLe v) (← m.places.place (d.lb s))
    m.next? s start (← m.places.place (d.ub s))

/-- The greatest value below `v`. -/
def previous? (d : Domain) (s : Store Datum) (v : Int) : Except Fault (Option Int) := do
  if v ≤ d.lb s then return none
  match d.members with
  | none => return some (min (← predecessor v) (d.ub s))
  | some m =>
    let start := min (← placeBefore (m.places.countLt v)) (← m.places.place (d.ub s))
    m.previous? s start (← m.places.place (d.lb s))

/-- The least value from `v` on. -/
def nextFrom? (d : Domain) (s : Store Datum) (v : Int) : Except Fault (Option Int) := do
  if ← d.contains s v then return some v
  d.next? s v

/-- The greatest value up to `v`. -/
def previousFrom? (d : Domain) (s : Store Datum) (v : Int) : Except Fault (Option Int) := do
  if ← d.contains s v then return some v
  d.previous? s v

/-- The values after `v`, in increasing order, behind those already found. -/
def valuesFrom (d : Domain) (s : Store Datum) (v : Int) (found : Array Int) : Nat → Except Fault (Array Int)
  | 0 => .error .outOfFuel
  | fuel + 1 => do
    match ← d.next? s v with
    | none => return found
    | some w => d.valuesFrom s w (found.push w) fuel

/-- The values in increasing order. -/
def values (d : Domain) (s : Store Datum) : Except Fault (Array Int) :=
  d.valuesFrom s (d.lb s) #[d.lb s] ((d.ub s - d.lb s).toNat + 1)

/-- The numbers that show a domain: its bounds and its size. -/
structure Extent where
  lb : Int
  ub : Int
  size : Int
deriving Repr, DecidableEq

def extent (d : Domain) (s : Store Datum) : Extent := ⟨d.lb s, d.ub s, d.size s⟩

end Domain

end FiniteDomain
