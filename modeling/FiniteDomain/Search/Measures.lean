import FiniteDomain.Decimal.Fixed

/-!
# Measures of a search

The counters that a search keeps.
-/

namespace FiniteDomain

structure Measures where
  nodes : Nat := 0
  decisions : Nat := 0
  fails : Nat := 0
  backtracks : Nat := 0
  solutions : Nat := 0
  restarts : Nat := 0
  /-- The greatest number of decisions on the path at one time. -/
  maxDepth : Nat := 0
  propagations : Nat := 0
  best : Option Int := none
  elapsedMs : Nat := 0
deriving Repr, DecidableEq

namespace Measures

/-- The elapsed time in seconds, as the nearest double to whole seconds and nanoseconds added up. -/
def seconds (m : Measures) : Float :=
  Float.ofNat (m.elapsedMs / 1000) + Float.ofNat (m.elapsedMs % 1000 * 1000000) / 1000000000.0

/-- The counters other than the time and the best objective. -/
def countsText (m : Measures) : String :=
  s!"{m.solutions} solutions, {m.nodes} nodes, {m.fails} fails, {m.backtracks} backtracks, " ++
    s!"{m.restarts} restarts, depth {m.maxDepth}, {m.propagations} propagations"

/-- The best objective, if there is one. -/
def bestText (m : Measures) : String :=
  match m.best with
  | some b => s!", best {b}"
  | none => ""

/-- All that is shown of the measures; the time has three places. -/
def text (m : Measures) : String :=
  s!"{m.countsText}, {Decimal.fixedText m.seconds 3}s{m.bestText}"

end Measures

end FiniteDomain
