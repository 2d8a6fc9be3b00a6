import FiniteDomain.Fault
import FiniteDomain.Integer

/-!
# Universes

A universe numbers the values that a domain started with. It is dense, a run of consecutive integers some of
which may be absent from the domain, when that run is short for the number of values, and a sorted table of
the values otherwise.
-/

namespace FiniteDomain

/-- How the places of a domain stand for values. -/
inductive Universe where
  /-- Place `i` stands for `offset + i`. -/
  | dense (offset : Int) (length : Nat)
  /-- Place `i` stands for entry `i` of a table in increasing order. -/
  | sparse (table : Array Int)
deriving Repr, DecidableEq

namespace Universe

/-- A run of integers longer than this for each value is replaced by a table. -/
def spread : Nat := 64

/-- The universe of the values of an array in increasing order. -/
def ofSorted (values : Array Int) : Universe :=
  match values[0]?, values.back? with
  | some least, some greatest =>
    let span := greatest - least + 1
    if span ≤ values.size * spread then .dense least span.toNat else .sparse values
  | _, _ => .sparse #[]

def length : Universe → Nat
  | dense _ n => n
  | sparse table => table.size

/-- The number of entries below a value between two places, when all before the first are below it and all
from the second on are not. -/
def countBetween (table : Array Int) (v : Int) (low high : Nat) : Nat :=
  if low < high then
    let middle := (low + high) / 2
    match table[middle]? with
    | some entry => if entry < v then countBetween table v (middle + 1) high else countBetween table v low middle
    | none => countBetween table v low middle
  else low
termination_by high - low

/-- The number of entries of a table in increasing order that are below a value. -/
def countBelow (table : Array Int) (v : Int) : Nat := countBetween table v 0 table.size

/-- The number of places whose value is below `v`. -/
def countLt : Universe → Int → Nat
  | dense offset n, v => min n (v - offset).toNat
  | sparse table, v => countBelow table v

/-- The number of places whose value is at most `v`. -/
def countLe : Universe → Int → Nat
  | dense offset n, v => min n (v - offset + 1).toNat
  | sparse table, v => countBelow table (v + 1)

/-- The place of a value. -/
def index? : Universe → Int → Option Nat
  | dense offset n, v => if offset ≤ v ∧ v < offset + n then some (v - offset).toNat else none
  | sparse table, v =>
    let i := countBelow table v
    if table[i]? = some v then some i else none

/-- The place of a value that has one. -/
def place (u : Universe) (v : Int) : Except Fault Nat :=
  match u.index? v with
  | some i => .ok i
  | none => .error (.outsideUniverse v)

/-- The value that a place stands for. -/
def value : Universe → Nat → Except Fault Int
  | dense offset _, i =>
    match Value.ofInt? (offset + i) with
    | some v => .ok v
    | none => .error .overflow
  | sparse table, i =>
    match table[i]? with
    | some v => .ok v
    | none => .error .missing

end Universe

end FiniteDomain
