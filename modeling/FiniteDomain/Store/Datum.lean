import FiniteDomain.Integer
import FiniteDomain.Store.Basic

/-!
# Data in a store

What the cells of a solver hold: integers, truth values, doubles, and words of 64 bits. Doubles are compared
as doubles, so a zero equals its negative, and what is not a number differs from itself.
-/

namespace FiniteDomain

/-- The contents of one cell. -/
inductive Datum where
  | int (value : Int)
  | bool (value : Bool)
  | double (value : Float)
  | word (value : UInt64)
deriving Repr

namespace Datum

def equal : Datum → Datum → Bool
  | int a, int b => a == b
  | bool a, bool b => a == b
  | double a, double b => a == b
  | word a, word b => a == b
  | _, _ => false

instance : BEq Datum := ⟨equal⟩

end Datum

/-- A row of cells. -/
structure Block where
  start : Nat
  length : Nat
deriving Repr, DecidableEq

namespace Block

/-- The cell at a place of the row. -/
def cell (b : Block) (place : Nat) : Nat := b.start + place

end Block

namespace Store

/-- The integer in a cell. -/
def int (s : Store Datum) (cell : Nat) : Int :=
  match s.get? cell with
  | some (.int v) => v
  | _ => 0

/-- The truth value in a cell. -/
def flag (s : Store Datum) (cell : Nat) : Bool :=
  match s.get? cell with
  | some (.bool b) => b
  | _ => false

/-- The word in a cell. -/
def word (s : Store Datum) (cell : Nat) : UInt64 :=
  match s.get? cell with
  | some (.word w) => w
  | _ => 0

/-- Adds to the integer in a cell. -/
def add [BEq Datum] (s : Store Datum) (cell : Nat) (delta : Int) : Except Fault (Int × Store Datum) :=
  match Value.ofInt? (s.int cell + delta) with
  | none => .error (.storedOverflow delta)
  | some v => .ok (v, s.set cell (.int v))

end Store

end FiniteDomain
