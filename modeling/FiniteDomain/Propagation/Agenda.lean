import FiniteDomain.Propagation.Propagator

/-!
# Agendas

The propagators that wait to run: those of a lower rank first, and among equals the one that has waited
longest. The waiting list is kept in this order.
-/

namespace FiniteDomain

/-- Who waits, in the order in which they will run. -/
structure Agenda where
  entries : List (Priority × PropId) := []
deriving Repr, DecidableEq

namespace Agenda

def isEmpty (a : Agenda) : Bool := a.entries.isEmpty

/-- The waiting propagators of one priority, the one that came first in front. -/
def queue (a : Agenda) (priority : Priority) : List PropId :=
  (a.entries.filter fun e => e.1 = priority).map Prod.snd

/-- Puts an entry behind all that run no later. -/
def insertEntry (entry : Priority × PropId) : List (Priority × PropId) → List (Priority × PropId)
  | [] => [entry]
  | e :: rest => if e.1.rank ≤ entry.1.rank then e :: insertEntry entry rest else entry :: e :: rest

def enqueue (a : Agenda) (priority : Priority) (id : PropId) : Agenda :=
  ⟨insertEntry (priority, id) a.entries⟩

/-- Takes out the next to run. -/
def next? (a : Agenda) : Option (PropId × Agenda) :=
  match a.entries with
  | [] => none
  | e :: rest => some (e.2, ⟨rest⟩)

/-- Takes a propagator out wherever it waits. -/
def erase (a : Agenda) (id : PropId) : Agenda := ⟨a.entries.filter fun e => e.2 ≠ id⟩

end Agenda

end FiniteDomain
