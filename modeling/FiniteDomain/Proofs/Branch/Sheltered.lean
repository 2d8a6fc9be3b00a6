import FiniteDomain.Branch.Strategy
import FiniteDomain.Proofs.Model.Chain

/-!
# Strategies know of no worlds

The strategies at hand never fault in an operation on worlds, whatever model they are shown.
-/

namespace FiniteDomain

open Sheltered

/-- The strategy never faults in an operation on worlds. -/
def Strategy.Lawful {σ : Type} (strategy : Strategy σ) : Prop := ∀ b m, Sheltered (strategy.next b m)

namespace Heuristic

variable (h : Heuristic) (m : Model) (x : VarId)

theorem sheltered_isFree : Sheltered (isFree m x) := bind (m.sheltered_isInstantiated x) fun _ => ok _

theorem sheltered_firstFree (vars : List VarId) : Sheltered (firstFree m vars) := by
  induction vars with
  | nil => exact ok none
  | cons x rest ih =>
    refine bind (sheltered_isFree m x) fun free => ?_
    split
    · exact ok _
    · exact ih

theorem sheltered_allFree (vars : List VarId) : Sheltered (allFree m vars) := by
  induction vars with
  | nil => exact ok []
  | cons x rest ih =>
    refine bind (sheltered_isFree m x) fun free => ?_
    split
    · exact bind ih fun _ => ok _
    · exact ih

theorem sheltered_leastBy {key : VarId → Except Fault Int} (hkey : ∀ x, Sheltered (key x)) (vars : List VarId) :
    Sheltered (leastBy key vars) := by
  induction vars with
  | nil => exact ok none
  | cons x rest ih =>
    refine bind ih fun y => ?_
    cases y with
    | none => exact ok _
    | some y => exact bind (hkey x) fun _ => bind (hkey y) fun _ => ok _

theorem sheltered_pickVar : Sheltered (h.pickVar m) := by
  have hleast : ∀ key : VarId → Except Fault Int, (∀ x, Sheltered (key x)) →
      Sheltered (do return (← leastBy key (← allFree m h.vars), h)) := fun key hkey =>
    bind (sheltered_allFree m h.vars) fun _ => bind (sheltered_leastBy hkey _) fun _ => ok _
  rw [pickVar]
  split
  · exact bind (sheltered_firstFree m h.vars) fun _ => ok _
  · exact hleast _ m.sheltered_size
  · exact hleast _ fun x => bind (m.sheltered_size x) fun _ => ok _
  · exact hleast _ m.sheltered_lb
  · exact hleast _ fun x => bind (m.sheltered_ub x) fun _ => ok _
  · refine bind (sheltered_allFree m h.vars) fun free => ?_
    split <;> exact ok _

theorem sheltered_nearest (v : Int) : Sheltered (nearest m x v) := by
  refine bind (m.sheltered_contains x v) fun there => ?_
  split
  · exact ok _
  · refine bind (m.sheltered_previous? x v) fun low => bind (m.sheltered_next? x v) fun high => ?_
    split
    · exact ok _
    · exact ok _
    · exact ok _
    · exact m.sheltered_lb x

theorem sheltered_anyValue : Sheltered (h.anyValue m x) := by
  refine bind (m.sheltered_isEnumerated x) fun holes => ?_
  dsimp only
  split
  · refine bind (m.sheltered_values x) fun values => ?_
    split
    · exact ok _
    · exact error not_false
  · refine bind (m.sheltered_lb x) fun _ => bind (m.sheltered_ub x) fun _ => bind (ok _) fun values => ?_
    split
    · exact ok _
    · exact error not_false

theorem sheltered_pickSplit : Sheltered (h.pickSplit m x) := by
  refine bind (m.sheltered_lb x) fun lb => bind (m.sheltered_ub x) fun ub => ?_
  dsimp only
  split
  · exact ok _
  · exact ok _
  · refine bind (m.sheltered_isEnumerated x) fun holes => ?_
    split
    · exact bind (sheltered_nearest m x _) fun _ => ok _
    · exact ok _
  · exact bind (h.sheltered_anyValue m x) fun _ => ok _
  · exact ok _
  · exact bind (sheltered_successor _) fun _ => ok _

theorem sheltered_next : Sheltered (h.next m) := by
  refine bind (h.sheltered_pickVar m) fun r => ?_
  split
  · exact ok _
  · exact bind (sheltered_pickSplit _ m _) fun _ => ok _

end Heuristic

/-- **The strategies at hand are lawful.** -/
theorem Brancher.strategy_lawful : Brancher.strategy.Lawful := by
  intro b m
  cases b with
  | heuristic h => exact bind (h.sheltered_next m) fun _ => ok _
  | script answers => cases answers <;> exact ok _

end FiniteDomain
