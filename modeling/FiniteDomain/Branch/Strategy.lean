import FiniteDomain.Branch.Heuristic

/-!
# Strategies

A strategy says what to branch on next, from a state of its own and the model. The ones at hand are
heuristics and fixed lists.
-/

namespace FiniteDomain

/-- A rule for decisions that keeps a state of type `σ`. -/
structure Strategy (σ : Type) where
  /-- The next decision, if the rule has one. -/
  next : σ → Model → Except Fault (Option Decision × σ)
  /-- The state after so many restarts. -/
  restarted : σ → Nat → σ

/-- The state of a strategy at hand. -/
inductive Brancher where
  | heuristic (h : Heuristic)
  /-- The answers still to be given, whatever the model. -/
  | script (answers : List (Option Decision))

namespace Brancher

def next (b : Brancher) (m : Model) : Except Fault (Option Decision × Brancher) :=
  match b with
  | heuristic h => do
    let (d, h) ← h.next m
    return (d, heuristic h)
  | script [] => return (none, script [])
  | script (d :: rest) => return (d, script rest)

/-- A fixed list goes on after a restart where it was. -/
def restarted (b : Brancher) (restarts : Nat) : Brancher :=
  match b with
  | heuristic h => heuristic (h.restarted restarts)
  | script answers => script answers

/-- The rule that branchers follow. -/
def strategy : Strategy Brancher := ⟨next, restarted⟩

end Brancher

end FiniteDomain
