import FiniteDomain.Report.Trace
import FiniteDomain.Search.Run

/-!
# Audiences

An audience observes searches through monitors, keeps what they write down, and holds the flag that asks a
search to stop. Monitors stay for all later searches. Until the flag is set up nobody can raise it, and a
monitor that was added before has none to raise.
-/

namespace FiniteDomain

/-- What was written down during an activity. -/
inductive LogEntry where
  | filter (entry : FilterEntry)
  | began (vars : Nat)
  | node (depth : Nat) (domains : Option (Array Domain.Extent))
  | down (decision : Decision) (world : Nat)
  | up (decision : Decision) (world : Nat)
  | solution (solution : Solution)
  | failure (contradiction : Contradiction)
  | restart (restarts world : Nat)
  | closed (status : Status) (solutions : Nat)
deriving Repr, DecidableEq

inductive Monitor where
  /-- Writes an entry for each call, at nodes also the domains if asked to. -/
  | record (domains : Bool)
  /-- Writes trace lines, and counts the solutions of all searches. -/
  | tracing (solutions : Nat)
  | silent
  /-- Asks to stop when the given node opens, counted over all searches. -/
  | cancelAt (node opened : Nat)
deriving Repr, DecidableEq

structure Audience where
  monitors : Array Monitor := #[]
  /-- The flag that asks a search to stop before its next node, once it was set up. -/
  flag : Option Bool := none
  /-- Lines up to this level are kept. -/
  level : Option Level := none
  log : Array LogEntry := #[]
  lines : Array String := #[]
  /-- How many more solutions are awaited before a search is asked to stop. -/
  solutionsAwaited : Option Nat := none
deriving Repr

namespace Callback

/-- The entry of a recording monitor. -/
def entry (c : Callback) (m : Model) (domains : Bool) : LogEntry :=
  match c with
  | rootPropagated => .began m.varCount
  | nodeOpened depth => .node depth (if domains then some m.extents else none)
  | down d => .down d m.world
  | up d => .up d m.world
  | solution s => .solution s
  | contradiction c => .failure c
  | restarted restarts => .restart restarts m.world
  | closed measures status => .closed status measures.solutions

end Callback

/-- The monitor as it is without a flag to raise. -/
def Monitor.withoutFlag : Monitor → Monitor
  | .cancelAt _ _ => .silent
  | monitor => monitor

namespace Audience

/-- Sets up the flag, or changes it. -/
def putFlag (a : Audience) (value : Bool) : Audience := { a with flag := some value }

/-- Asks a search to stop, if there is a flag. -/
def raise (a : Audience) : Audience := { a with flag := a.flag.map fun _ => true }

/-- Keeps a line if its level is shown. -/
def keepLine (a : Audience) (line : Option TraceLine) : Audience :=
  match line, a.level with
  | some l, some level => if level.shows l.level then { a with lines := a.lines.push l.text } else a
  | _, _ => a

/-- A monitor hears a call. -/
def call (a : Audience) (c : Callback) (m : Model) (monitor : Monitor) : Monitor × Audience :=
  match monitor with
  | .record domains => (monitor, { a with log := a.log.push (c.entry m domains) })
  | .tracing solutions =>
    let heard := match c with
      | .solution _ => solutions + 1
      | _ => solutions
    (.tracing heard, a.keepLine (c.traceLine? m solutions))
  | .silent => (.silent, a)
  | .cancelAt node opened =>
    match c with
    | .nodeOpened _ =>
      (.cancelAt node (opened + 1), if opened + 1 = node then a.raise else a)
    | _ => (monitor, a)

/-- All monitors hear a call, in the order in which they were added. -/
def callAll (a : Audience) (c : Callback) (m : Model) : Audience :=
  a.monitors.foldl
    (fun a monitor =>
      let (monitor, a) := a.call c m monitor
      { a with monitors := a.monitors.push monitor })
    { a with monitors := #[] }

/-- A solution was handed out. -/
def countSolution (a : Audience) : Audience :=
  match a.solutionsAwaited with
  | some (n + 1) =>
    let a := { a with solutionsAwaited := some n }
    if n = 0 then a.raise else a
  | _ => a

def hear (a : Audience) (notice : Notice) : Audience :=
  match notice with
  | .callback c m =>
    let a := a.callAll c m
    match c with
    | .solution _ => a.countSolution
    | _ => a
  | .filterLogged entry => { a with log := a.log.push (.filter entry) }
  | _ => a.keepLine notice.traceLine?

/-- No time passes for a search. -/
def signals (a : Audience) : Signals := { cancelled := a.flag.getD false }

def observer : Observer Audience := ⟨hear, signals⟩

/-- Adds a monitor behind the others. Where there is no flag yet, it has none to raise. -/
def addMonitor (a : Audience) (monitor : Monitor) : Audience :=
  { a with monitors := a.monitors.push (if a.flag.isSome then monitor else monitor.withoutFlag) }

/-- Takes out the entries and the lines. -/
def collect (a : Audience) : Array LogEntry × Array String × Audience :=
  (a.log, a.lines, { a with log := #[], lines := #[] })

end Audience

end FiniteDomain
