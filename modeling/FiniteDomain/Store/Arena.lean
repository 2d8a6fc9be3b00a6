import FiniteDomain.Store.Datum

/-!
# Arenas

An arena is a store whose cells and vectors are named by the order in which they were made. Each name also has
a number among the names of its own type, by which it is shown.
-/

namespace FiniteDomain

/-- The types of data that an arena hands out. -/
inductive DatumType where
  | int
  | bool
  | double
deriving Repr, DecidableEq

namespace Datum

/-- Words belong to domains and have no type of their own here. -/
def type : Datum → DatumType
  | int _ => .int
  | bool _ => .bool
  | double _ => .double
  | word _ => .int

end Datum

/-- A cell or a vector of an arena and its number among those of its type. -/
structure Handle where
  type : DatumType
  ordinal : Nat
  block : Block
deriving Repr, DecidableEq

/-- A store, its cells and its vectors, each in the order of creation. -/
structure Arena where
  store : Store Datum := {}
  cells : Array Handle := #[]
  vectors : Array Handle := #[]
deriving Repr

namespace Arena

private def ordinalOf (handles : Array Handle) (type : DatumType) : Nat :=
  handles.countP fun h => h.type == type

/-- A new cell. -/
def makeCell (a : Arena) (value : Datum) : Arena :=
  let (start, store) := a.store.make value
  { a with store, cells := a.cells.push ⟨value.type, ordinalOf a.cells value.type, ⟨start, 1⟩⟩ }

/-- A new vector with the same value everywhere. -/
def makeVector (a : Arena) (length : Nat) (value : Datum) : Arena :=
  let (start, store) := a.store.makeMany length value
  { a with store, vectors := a.vectors.push ⟨value.type, ordinalOf a.vectors value.type, ⟨start, length⟩⟩ }

/-- The address of a cell. -/
def cellAddress (a : Arena) (cell : Nat) : Except Fault Nat :=
  match a.cells[cell]? with
  | some h => .ok h.block.start
  | none => .error .missing

/-- The address of an element of a vector. -/
def elementAddress (a : Arena) (vector place : Nat) : Except Fault Nat :=
  match a.vectors[vector]? with
  | some h => if place < h.block.length then .ok (h.block.cell place) else .error .missing
  | none => .error .missing

/-- Writes a cell, under the test of equality at hand. -/
def set [BEq Datum] (a : Arena) (cell : Nat) (value : Datum) : Except Fault Arena := do
  let address ← a.cellAddress cell
  return { a with store := a.store.set address value }

/-- Adds to the integer in a cell and gives the sum. -/
def add [BEq Datum] (a : Arena) (cell : Nat) (delta : Int) : Except Fault (Int × Arena) := do
  let address ← a.cellAddress cell
  let (sum, store) ← a.store.add address delta
  return (sum, { a with store })

/-- The slot of a cell. -/
def get (a : Arena) (cell : Nat) : Except Fault (Slot Datum) := do
  let address ← a.cellAddress cell
  match a.store.slots[address]? with
  | some slot => return slot
  | none => throw .missing

def setAt [BEq Datum] (a : Arena) (vector place : Nat) (value : Datum) : Except Fault Arena := do
  let address ← a.elementAddress vector place
  return { a with store := a.store.set address value }

def getAt (a : Arena) (vector place : Nat) : Except Fault Datum := do
  let address ← a.elementAddress vector place
  match a.store.get? address with
  | some value => return value
  | none => throw .missing

/-- The length of a vector. -/
def vectorLength (a : Arena) (vector : Nat) : Except Fault Nat :=
  match a.vectors[vector]? with
  | some h => .ok h.block.length
  | none => .error .missing

def push (a : Arena) : Arena := { a with store := a.store.push }

def pop (a : Arena) : Except Fault Arena := do return { a with store := ← a.store.pop }

def popUntil (a : Arena) (target : Nat) : Except Fault Arena := do
  return { a with store := ← a.store.popUntil target }

def commit (a : Arena) : Except Fault Arena := do return { a with store := ← a.store.commit }

/-- World, length of the trail and number of cells. -/
def text (a : Arena) : String :=
  s!"Environment \x7b world: {a.store.world}, trail_len: {a.store.trail.size}, cells: {a.store.cellCount} \x7d"

/-- The cells and the vectors as shown. -/
def handleTexts (a : Arena) : Array String × Array String :=
  (a.cells.map fun h => s!"Stored#{h.ordinal}", a.vectors.map fun h => s!"StoredVector#{h.ordinal}")

/-- Every cell with its stamp, and the elements of every vector. -/
def dump (a : Arena) : Array (Slot Datum) × Array (Array Datum) :=
  (a.cells.filterMap fun h => a.store.slots[h.block.start]?,
    a.vectors.map fun h => (Array.range h.block.length).filterMap fun i => a.store.get? (h.block.cell i))

end Arena

end FiniteDomain
