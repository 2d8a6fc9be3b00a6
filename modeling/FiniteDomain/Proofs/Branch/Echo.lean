import FiniteDomain.Branch.Alternative
import FiniteDomain.Branch.Strategy
import FiniteDomain.Proofs.Model.Echo

/-!
# Heuristics on models with a residue

A heuristic whose rules are not random makes the same decisions on models that echo each other, whatever it has drawn.

* `Strategy.Echoes`: states of a strategy that make no difference;
* `Heuristic.Plain`, `Brancher.Twins`;
* `Brancher.strategy_echoes`.
-/

namespace FiniteDomain

/-- On models that echo each other the strategy makes the same decisions from related states. -/
structure Strategy.Echoes {σ : Type} (strategy : Strategy σ) (R : σ → σ → Prop) : Prop where
  next : ∀ {k : Residue} {m m' : Model} {b b' : σ}, R b b' → m.Echoes k m' →
    Matches (fun r r' => r'.1 = r.1 ∧ R r.2 r'.2) (strategy.next b m) (strategy.next b' m')
  restarted : ∀ {b b' : σ} (restarts : Nat), R b b' → R (strategy.restarted b restarts) (strategy.restarted b' restarts)

namespace Heuristic

variable {k : Residue} {m m' : Model}

section Echoes

variable (h : m.Echoes k m')

include h

theorem isFree_echoes : isFree m' = isFree m := by
  funext x
  rw [isFree, isFree, h.isInstantiated_eq]

theorem firstFree_echoes (vars : List VarId) : firstFree m' vars = firstFree m vars := by
  induction vars with
  | nil => rfl
  | cons x rest ih => rw [firstFree, firstFree, isFree_echoes h, ih]

theorem allFree_echoes (vars : List VarId) : allFree m' vars = allFree m vars := by
  induction vars with
  | nil => rfl
  | cons x rest ih => rw [allFree, allFree, isFree_echoes h, ih]

theorem nearest_echoes (x : VarId) (v : Int) : nearest m' x v = nearest m x v := by
  rw [nearest, nearest, h.contains_eq, h.previous?_eq, h.next?_eq, h.lb_eq]

end Echoes

/-- Neither the variable nor the split is picked at random. -/
structure Plain (g : Heuristic) : Prop where
  varSelector : g.varSelector ≠ .random
  valSelector : g.valSelector ≠ .random

variable {g : Heuristic} (hg : g.Plain)

include hg

theorem Plain.pickVar (h : m.Echoes k m') (draws : Draws) :
    Matches (fun r r' => r = (r.1, g) ∧ r' = (r.1, { g with draws })) (g.pickVar m) (pickVar { g with draws } m') := by
  have hsize : m'.size = m.size := funext h.size_eq
  have hlb : m'.lb = m.lb := funext h.lb_eq
  have hub : m'.ub = m.ub := funext h.ub_eq
  have hrandom := hg.varSelector
  rw [Heuristic.pickVar, Heuristic.pickVar, firstFree_echoes h, allFree_echoes h, hsize, hlb, hub]
  cases hs : g.varSelector with
  | inputOrder => exact .ask fun r => .ok ⟨rfl, rfl⟩
  | firstFail | antiFirstFail | smallest | largest => exact .ask fun _ => .ask fun r => .ok ⟨rfl, rfl⟩
  | random => exact absurd hs hrandom

theorem Plain.pickSplit (h : m.Echoes k m') (draws : Draws) (x : VarId) :
    Matches (fun r r' => r = (r.1, g) ∧ r' = (r.1, { g with draws })) (g.pickSplit m x)
      (pickSplit { g with draws } m' x) := by
  have hrandom := hg.valSelector
  rw [Heuristic.pickSplit, Heuristic.pickSplit, h.lb_eq, h.ub_eq, h.isEnumerated_eq]
  refine .ask fun lb => .ask fun ub => ?_
  dsimp only
  cases hs : g.valSelector with
  | min | max | splitMiddle => exact .ok ⟨rfl, rfl⟩
  | middle =>
    refine .ask fun holes => ?_
    split
    · rw [nearest_echoes h]
      exact .ask fun v => .ok ⟨rfl, rfl⟩
    · exact .ok ⟨rfl, rfl⟩
  | reverseSplitMiddle => exact .ask fun v => .ok ⟨rfl, rfl⟩
  | random => exact absurd hs hrandom

/-- **The same decision is made**, and nothing is drawn for it. -/
theorem Plain.next (h : m.Echoes k m') (draws : Draws) :
    Matches (fun r r' => r = (r.1, g) ∧ r' = (r.1, { g with draws })) (g.next m) (next { g with draws } m') := by
  refine .bind (hg.pickVar h draws) ?_
  rintro ⟨x, _⟩ ⟨_, _⟩ ⟨⟨⟩, ⟨⟩⟩
  cases x with
  | none => exact .ok ⟨rfl, rfl⟩
  | some x =>
    refine .bind (hg.pickSplit h draws x) ?_
    rintro ⟨d, _⟩ ⟨_, _⟩ ⟨⟨⟩, ⟨⟩⟩
    exact .ok ⟨rfl, rfl⟩

end Heuristic

namespace Brancher

/-- The given heuristic twice, whatever was drawn. -/
inductive Twins (g : Heuristic) : Brancher → Brancher → Prop
  | intro (draws draws' : Draws) : Twins g (.heuristic { g with draws }) (.heuristic { g with draws := draws' })

variable {g : Heuristic} {b b' : Brancher}

theorem Twins.refl (g : Heuristic) : Twins g (.heuristic g) (.heuristic g) := .intro g.draws g.draws

/-- Either of them differs from the heuristic in what was drawn only. -/
theorem Twins.of_heuristic (h : Twins g b b') : Twins g (.heuristic g) b := by
  obtain ⟨draws, -⟩ := h
  exact .intro g.draws draws

theorem strategy_echoes (hg : g.Plain) : strategy.Echoes (Twins g) := by
  refine ⟨fun hb h => ?_, fun restarts hb => ?_⟩
  · obtain ⟨draws, draws'⟩ := hb
    have hdrawn : Heuristic.Plain { g with draws } := ⟨hg.varSelector, hg.valSelector⟩
    refine .bind (hdrawn.next h draws') ?_
    rintro ⟨d, _⟩ ⟨_, _⟩ ⟨⟨⟩, ⟨⟩⟩
    exact .ok ⟨rfl, .intro draws draws'⟩
  · obtain ⟨draws, draws'⟩ := hb
    exact .intro _ _

end Brancher

end FiniteDomain
