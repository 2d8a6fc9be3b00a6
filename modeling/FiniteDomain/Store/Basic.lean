import FiniteDomain.Fault

/-!
# Backtrackable memory

A store is an array of slots together with a stack of worlds. Popping a world gives every slot the value and
the stamp that it had when the world was pushed. A slot is recorded on the trail at its first change in a
world only, which its stamp tells: it is the world of the last change.
-/

namespace FiniteDomain

/-- A value and the world in which it was written. -/
structure Slot (α : Type) where
  value : α
  stamp : Nat
deriving Repr, DecidableEq

/-- What a slot held before its first change in a world. -/
structure Record (α : Type) where
  cell : Nat
  value : α
  stamp : Nat
deriving Repr, DecidableEq

/-- Slots, the trail of their earlier contents, and for each open world the length of the trail when it was
pushed, outermost first. -/
structure Store (α : Type) where
  slots : Array (Slot α) := #[]
  trail : Array (Record α) := #[]
  starts : Array Nat := #[]
deriving Repr, DecidableEq

namespace Store

variable {α : Type}

/-- No slots, in the initial world. -/
def empty : Store α := {}

/-- The number of open worlds. -/
def world (s : Store α) : Nat := s.starts.size

/-- The number of slots. -/
def cellCount (s : Store α) : Nat := s.slots.size

/-- What a cell holds, if there is such a cell. -/
@[inline]
def get? (s : Store α) (cell : Nat) : Option α := (s.slots[cell]?).map Slot.value

/-- The world of the last change of a cell. -/
def stamp? (s : Store α) (cell : Nat) : Option Nat := (s.slots[cell]?).map Slot.stamp

/-- A new slot. It counts as written in the initial world, so that every pop leaves or restores the value it
starts with. -/
def make (s : Store α) (value : α) : Nat × Store α :=
  match s with
  | ⟨slots, trail, starts⟩ => (slots.size, ⟨slots.push ⟨value, 0⟩, trail, starts⟩)

/-- Several new slots in a row with the same value; the address is that of the first. -/
def makeMany (s : Store α) (length : Nat) (value : α) : Nat × Store α :=
  match s with
  | ⟨slots, trail, starts⟩ => (slots.size, ⟨slots ++ Array.replicate length ⟨value, 0⟩, trail, starts⟩)

/-- Writes a cell. An equal value changes nothing, and so does a cell that does not exist. -/
def set [BEq α] (s : Store α) (cell : Nat) (value : α) : Store α :=
  match s with
  | ⟨slots, trail, starts⟩ =>
    match slots[cell]? with
    | none => ⟨slots, trail, starts⟩
    | some old =>
      if old.value == value then ⟨slots, trail, starts⟩
      else
        let trail := if old.stamp = starts.size then trail else trail.push ⟨cell, old.value, old.stamp⟩
        ⟨slots.setIfInBounds cell ⟨value, starts.size⟩, trail, starts⟩

/-- Opens a world. -/
def push (s : Store α) : Store α :=
  match s with
  | ⟨slots, trail, starts⟩ => ⟨slots, trail, starts.push trail.size⟩

/-- Restores the recorded slots, newest first, until the trail has the given length. -/
def unwind (slots : Array (Slot α)) (trail : Array (Record α)) (start : Nat) :
    Array (Slot α) × Array (Record α) :=
  if h : start < trail.size then
    have : trail.size - 1 < trail.size := by omega
    let r := trail[trail.size - 1]
    unwind (slots.setIfInBounds r.cell ⟨r.value, r.stamp⟩) trail.pop start
  else (slots, trail)
termination_by trail.size
decreasing_by simp only [Array.size_pop]; omega

/-- Closes the current world and undoes its changes. -/
def pop (s : Store α) : Except Fault (Store α) :=
  match s with
  | ⟨slots, trail, starts⟩ =>
    match starts.back? with
    | none => .error .popAtInitialWorld
    | some start =>
      let (slots, trail) := unwind slots trail start
      .ok ⟨slots, trail, starts.pop⟩

/-- Closes the given number of worlds. -/
def popMany (s : Store α) : Nat → Except Fault (Store α)
  | 0 => .ok s
  | n + 1 => do
    let s ← s.pop
    s.popMany n

/-- Closes worlds until the given one is the current one. -/
def popUntil (s : Store α) (target : Nat) : Except Fault (Store α) :=
  if target ≤ s.world then s.popMany (s.world - target)
  else .error (.popAbove target s.world)

/-- Hands the records of a closed world to its parent. Their slots now belong to the parent; a record that
would restore a value of the parent itself is dropped, since that value was overwritten for good. -/
def merge (parent : Nat) (slots : Array (Slot α)) (trail : Array (Record α)) (segment : List (Record α)) :
    Array (Slot α) × Array (Record α) :=
  match segment with
  | [] => (slots, trail)
  | r :: rest =>
    let slots := slots.modify r.cell fun slot => { slot with stamp := parent }
    merge parent slots (if r.stamp = parent then trail else trail.push r) rest

/-- Closes the current world and keeps its changes. -/
def commit (s : Store α) : Except Fault (Store α) :=
  match s with
  | ⟨slots, trail, starts⟩ =>
    match starts.back? with
    | none => .error .commitAtInitialWorld
    | some start =>
      let segment := (trail.extract start trail.size).toList
      let (slots, trail) := merge (starts.size - 1) slots (trail.take start) segment
      .ok ⟨slots, trail, starts.pop⟩

end Store

end FiniteDomain
