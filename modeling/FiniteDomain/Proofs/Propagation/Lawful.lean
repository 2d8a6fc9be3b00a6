import FiniteDomain.Constraint.Basic
import FiniteDomain.Proofs.Model.Chain
import FiniteDomain.Propagation.Scripted

/-!
# Lawful propagators

A propagator is lawful if all that it does to a model is to narrow domains in its own name, and no operation on
worlds faults in it. Nothing is asked of the model. The rules follow the ways in which filters are put together.

* `Constraint.lawful`, `Script.lawful`: the propagators at hand are lawful.
-/

namespace FiniteDomain

open Sheltered

namespace Filter

/-- What the filter does to the model is a chain of narrowings in its own name, and no operation on worlds faults
in it. -/
def Lawful {α : Type} (f : Filter α) : Prop :=
  ∀ s : Scene, @Activity.Gives _ .worldly (f.run s) fun r =>
    r.2.self = s.self ∧ Model.Chain (.propagator s.self) s.model r.2.model

namespace Lawful

variable {α β : Type}

theorem pure (x : α) : Lawful (Pure.pure x) := fun _ => @Activity.Gives.pure _ .worldly _ _ ⟨rfl, .refl⟩

theorem bind {f : Filter α} {g : α → Filter β} (hf : f.Lawful) (hg : ∀ x, (g x).Lawful) : (f >>= g).Lawful := by
  let := Tolerance.worldly
  intro s
  refine Activity.Gives.bind (hf s) ?_
  rintro ⟨r, s'⟩ ⟨hself, hchain⟩
  cases r with
  | error c => exact .pure ⟨hself, hchain⟩
  | ok x =>
    refine (hg x s').mono fun r hr => ⟨hr.1.trans hself, hchain.trans ?_⟩
    rw [← hself]
    exact hr.2

theorem map {f : Filter α} (g : α → β) (hf : f.Lawful) : (g <$> f).Lawful := by
  let := Tolerance.worldly
  intro s
  refine Activity.Gives.bind (hf s) ?_
  rintro ⟨r, s'⟩ hr
  cases r <;> exact .pure hr

theorem throw (c : Contradiction) : Lawful (MonadExcept.throw c : Filter α) :=
  fun _ => @Activity.Gives.pure _ .worldly _ _ ⟨rfl, .refl⟩

/-- To end as an outcome says. -/
theorem ended (outcome : Except Contradiction Unit) :
    Lawful (match outcome with | .ok () => Pure.pure () | .error c => MonadExcept.throw c : Filter Unit) := by
  cases outcome with
  | ok u => exact .pure ()
  | error c => exact .throw c

/-- A question that never faults in an operation on worlds. -/
theorem ask {question : Model → Except Fault α} (h : ∀ m, Sheltered (question m)) : (Filter.ask question).Lawful := by
  let := Tolerance.worldly
  exact fun s => .bind (.question (h s.model)) fun x _ => .pure ⟨rfl, .refl⟩

theorem self : Filter.self.Lawful := fun _ => @Activity.Gives.pure _ .worldly _ _ ⟨rfl, .refl⟩

theorem narrow (x : VarId) (μ : Mutation) : (Filter.narrow x μ).Lawful := by
  let := Tolerance.worldly
  rintro ⟨self, model, passive⟩
  exact .bind (model.narrow_gives x μ (.propagator self)) fun r hr => .pure ⟨rfl, .one hr⟩

theorem fail (conflict : Conflict) : Lawful (Filter.fail conflict : Filter α) :=
  fun _ => @Activity.Gives.pure _ .worldly _ _ ⟨rfl, .refl⟩

theorem abort {fault : Fault} (h : ¬fault.OfWorlds) : Lawful (Filter.abort fault : Filter α) :=
  fun _ => @Activity.Gives.throw _ .worldly _ _ h

theorem setPassive : Filter.setPassive.Lawful := fun _ => @Activity.Gives.pure _ .worldly _ _ ⟨rfl, .refl⟩

theorem log (entry : FilterEntry) : (Filter.log entry).Lawful := by
  let := Tolerance.worldly
  exact fun s => .bind (.report _) fun _ _ => .pure ⟨rfl, .refl⟩

theorem attempt {f : Filter α} (h : f.Lawful) : f.attempt.Lawful := by
  let := Tolerance.worldly
  exact fun s => .bind (h s) fun r hr => .pure hr

theorem forM {f : α → Filter PUnit} (h : ∀ x, (f x).Lawful) (l : List α) : (l.forM f).Lawful := by
  induction l with
  | nil => exact .pure _
  | cons x rest ih => exact (h x).bind fun _ => ih

/-! ### Questions about a variable -/

variable (x : VarId)

theorem lb : (Filter.lb x).Lawful := .ask fun m => m.sheltered_lb x

theorem ub : (Filter.ub x).Lawful := .ask fun m => m.sheltered_ub x

theorem contains (v : Int) : (Filter.contains x v).Lawful := .ask fun m => m.sheltered_contains x v

theorem value? : (Filter.value? x).Lawful := .ask fun m => m.sheltered_value? x

theorem isInstantiated : (Filter.isInstantiated x).Lawful := .ask fun m => m.sheltered_isInstantiated x

end Lawful

end Filter

open FiniteDomain.Filter

/-- The passes of the propagator are lawful, and so is the look at what is known of its constraint. -/
structure Propagator.Lawful (p : Propagator) : Prop where
  run : p.run.Lawful
  runOn : ∀ place mask, (p.runOn place mask).Lawful
  entailed : ∀ m, Sheltered (p.entailed m)

/-! ### Disequalities -/

theorem Unequal.lawful (c : Unequal) : c.propagator.Lawful := by
  have hrun : c.filter.Lawful := by
    refine .bind (.narrow _ _) fun changed => ?_
    split
    · exact .setPassive
    · refine .bind (.contains _ _) fun there => ?_
      split
      · exact .setPassive
      · exact .pure ()
  refine ⟨hrun, fun _ _ => hrun, fun m => ?_⟩
  refine bind (m.sheltered_contains _ _) fun there => ?_
  split
  · exact ok _
  · refine bind (m.sheltered_isInstantiated _) fun fixed => ?_
    split <;> exact ok _

namespace UnequalSum

variable (c : UnequalSum)

theorem lawful_removeSupport (fixed other : VarId) : (c.removeSupport fixed other).Lawful := by
  refine .bind (.value? fixed) fun v => ?_
  cases v with
  | none => exact .pure ()
  | some v =>
    dsimp only
    split
    · exact .setPassive
    · refine .bind (.narrow _ _) fun changed => ?_
      split
      · exact .setPassive
      · refine .bind (.contains _ _) fun there => ?_
        split
        · exact .setPassive
        · exact .pure ()

theorem sheltered_excluded (m : Model) : Sheltered (c.excluded m) := by
  refine bind (m.sheltered_lb c.x) fun lx => bind (m.sheltered_lb c.y) fun ly => ?_
  split
  · exact ok _
  · exact bind (m.sheltered_ub c.x) fun ux => bind (m.sheltered_ub c.y) fun uy => ok _

theorem lawful : c.propagator.Lawful := by
  have hrun : c.filter.Lawful := by
    refine .bind (.isInstantiated c.x) fun fixed => ?_
    split
    · exact c.lawful_removeSupport _ _
    · refine .bind (.isInstantiated c.y) fun fixed => ?_
      split
      · exact c.lawful_removeSupport _ _
      · refine .bind (.ask c.sheltered_excluded) fun out => ?_
        split
        · exact .setPassive
        · exact .pure ()
  refine ⟨hrun, fun _ _ => hrun, fun m => ?_⟩
  refine bind (c.sheltered_excluded m) fun out => ?_
  split
  · exact ok _
  · refine bind (m.sheltered_value? c.x) fun a => bind (m.sheltered_value? c.y) fun b => ?_
    split <;> exact ok _

end UnequalSum

/-! ### Distances -/

namespace Distance

variable (c : Distance)

theorem lawful_removeAll (a : VarId) (changed : Bool) (l : List Int) : (removeAll a changed l).Lawful := by
  induction l generalizing changed with
  | nil => exact .pure changed
  | cons v rest ih => exact .bind (.narrow _ _) fun removed => ih _

theorem lawful_repeatPass {pass : Filter Bool} (h : pass.Lawful) (fuel : Nat) : (repeatPass pass fuel).Lawful := by
  induction fuel with
  | zero => exact .abort not_false
  | succ fuel ih =>
    refine .bind h fun changed => ?_
    split
    · exact ih
    · exact .pure ()

theorem lawful_bothWays {pass : VarId → VarId → Filter Bool} (h : ∀ a b, (pass a b).Lawful) (x y : VarId) :
    (bothWays pass x y).Lawful := .bind (h x y) fun _ => .bind (h y x) fun _ => .pure _

theorem lawful_patience : c.patience.Lawful :=
  .bind (.ub c.x) fun _ => .bind (.lb c.x) fun _ => .bind (.ub c.y) fun _ => .bind (.lb c.y) fun _ => .pure _

theorem sheltered_holdsAt (m : Model) (x : VarId) (v : Option Int) : Sheltered (holdsAt m x v) := by
  cases v with
  | none => exact ok false
  | some v => exact m.sheltered_contains x v

theorem sheltered_supported (m : Model) (b : VarId) (v : Int) : Sheltered (c.supported m b v) := by
  refine bind (sheltered_holdsAt m b _) fun there => ?_
  split
  · exact ok _
  · exact sheltered_holdsAt m b _

theorem sheltered_range (m : Model) : Sheltered (c.range m) :=
  bind (m.sheltered_lb c.x) fun _ => bind (m.sheltered_ub c.x) fun _ => bind (m.sheltered_lb c.y) fun _ =>
    bind (m.sheltered_ub c.y) fun _ => ok _

theorem sheltered_fixed? (m : Model) : Sheltered (c.fixed? m) := by
  refine bind (m.sheltered_value? c.x) fun a => bind (m.sheltered_value? c.y) fun b => ?_
  split <;> exact ok _

theorem sheltered_entailed (m : Model) : Sheltered (c.entailed m) := by
  refine bind (c.sheltered_range m) fun r => bind (c.sheltered_fixed? m) fun fixed => ?_
  cases c.relation with
  | eq => cases fixed <;> exact ok _
  | ne => cases fixed <;> exact ok _
  | lt => exact ok _
  | gt => exact ok _

theorem lawful_nextFrom (x : VarId) (v : Int) : (nextFrom x v).Lawful :=
  .ask fun m => bind (m.sheltered_domain x) fun d => d.sheltered_nextFrom? m.store v

theorem lawful_previousFrom (x : VarId) (v : Int) : (previousFrom x v).Lawful :=
  .ask fun m => bind (m.sheltered_domain x) fun d => d.sheltered_previousFrom? m.store v

theorem lawful_filterEq (a b : VarId) : (c.filterEq a b).Lawful := by
  refine .bind (.lb b) fun _ => .bind (.ub b) fun _ => .bind (.narrow _ _) fun near => .bind (.lb a) fun least => ?_
  refine .bind (lawful_nextFrom _ _) fun _ => .bind (lawful_nextFrom _ _) fun _ => .bind (.ub a) fun greatest => ?_
  refine .bind (lawful_previousFrom _ _) fun _ => .bind (lawful_previousFrom _ _) fun _ => ?_
  dsimp only
  split
  · refine .bind (.narrow _ _) fun moved => ?_
    split
    · refine .bind (.ask fun m => bind (m.sheltered_values a) fun vs => ?_) fun _ => lawful_removeAll _ _ _
      exact sheltered_filterM (fun v => bind (c.sheltered_supported m b v) fun _ => ok _) _
    · exact .pure _
  · exact .fail _

theorem lawful_setPassiveIfEntailed : c.setPassiveIfEntailed.Lawful := by
  refine .bind (.ask c.sheltered_entailed) fun e => ?_
  split
  · exact .setPassive
  · exact .pure ()

theorem lawful_removeAround (b : VarId) (v : Int) : (c.removeAround b v).Lawful := by
  refine .bind (lawful_removeAll _ _ _) fun _ => .bind (.ask fun m => ?_) fun left => ?_
  · refine bind (sheltered_holdsAt m b _) fun there => ?_
    split
    · exact ok _
    · exact sheltered_holdsAt m b _
  · split
    · exact .setPassive
    · exact .pure ()

theorem lawful_filter : c.filter.Lawful := by
  rw [filter]
  split
  · rw [runEq]
    split
    · exact .fail _
    · refine .bind c.lawful_patience fun fuel =>
        .bind (lawful_repeatPass (lawful_bothWays c.lawful_filterEq _ _) fuel) fun _ => ?_
      refine .bind (.isInstantiated c.x) fun _ => .bind (.isInstantiated c.y) fun _ => ?_
      split
      · exact .setPassive
      · exact .pure ()
  · rw [runNe]
    split
    · exact .setPassive
    · refine .bind (.value? c.x) fun v => ?_
      cases v with
      | some v => exact c.lawful_removeAround _ v
      | none =>
        refine .bind (.value? c.y) fun v => ?_
        cases v with
        | some v => exact c.lawful_removeAround _ v
        | none => exact .pure ()
  · rw [runLt]
    split
    · exact .fail _
    · have hpass : ∀ a b, (c.filterLt a b).Lawful := fun a b =>
        .bind (.lb b) fun _ => .bind (.ub b) fun _ => .narrow _ _
      exact .bind c.lawful_patience fun fuel =>
        .bind (lawful_repeatPass (lawful_bothWays hpass _ _) fuel) fun _ => c.lawful_setPassiveIfEntailed
  · rw [runGt]
    split
    · exact .setPassive
    · have hpass : ∀ a b, (c.filterGt a b).Lawful := fun a b =>
        .bind (.ub b) fun _ => .bind (.lb b) fun _ => .narrow _ _
      exact .bind c.lawful_patience fun fuel =>
        .bind (lawful_repeatPass (lawful_bothWays hpass _ _) fuel) fun _ => c.lawful_setPassiveIfEntailed

theorem lawful : c.propagator.Lawful := ⟨c.lawful_filter, fun _ _ => c.lawful_filter, c.sheltered_entailed⟩

end Distance

/-! ### Linear sums -/

namespace Linear

variable (c : Linear)

theorem sheltered_rangeIn (m : Model) (coefficient : Int) (x : VarId) : Sheltered (rangeIn m coefficient x) :=
  bind (m.sheltered_lb x) fun _ => bind (m.sheltered_ub x) fun _ => ok _

theorem sheltered_boundsFrom (m : Model) (sign low high : Int) (terms : List Term) :
    Sheltered (boundsFrom m sign low high terms) := by
  induction terms generalizing low high with
  | nil => exact ok _
  | cons t rest ih =>
    refine bind (sheltered_rangeIn m _ _) fun r => ?_
    dsimp only
    split
    · exact ih _ _
    · exact ok _

theorem sheltered_entailed (m : Model) : Sheltered (c.entailed m) := by
  refine bind (sheltered_boundsFrom m 1 0 0 c.terms) fun r => ?_
  cases r with
  | none => exact ok _
  | some r => cases c.relation <;> exact ok _

theorem sheltered_slackOf (m : Model) (terms : List Term) : Sheltered (slackOf m terms) := by
  induction terms with
  | nil => exact ok _
  | cons t rest ih => exact bind (m.sheltered_ub _) fun _ => bind (m.sheltered_lb _) fun _ => bind ih fun _ => ok _

theorem lawful_filterTerms (sign room : Int) (changed : Bool) (terms : List Term) :
    (filterTerms sign room changed terms).Lawful := by
  induction terms generalizing changed with
  | nil => exact .pure changed
  | cons t rest ih =>
    refine .bind (.ask fun m => sheltered_rangeIn m _ _) fun r => ?_
    dsimp only
    split
    · exact ih changed
    · refine .bind ?_ fun moved => ih _
      rw [filterTerm]
      split <;> exact .narrow _ _

theorem lawful_filterSide (side : Side) : (c.filterSide side).Lawful := by
  refine .bind (.ask fun m => sheltered_boundsFrom m _ 0 0 c.terms) fun r => ?_
  cases r with
  | none => exact .pure false
  | some r =>
    dsimp only
    split
    · exact .fail _
    · split
      · exact .abort not_false
      · exact lawful_filterTerms _ _ _ _

theorem lawful_pass : c.pass.Lawful := by
  rw [pass]
  split
  · exact c.lawful_filterSide _
  · exact c.lawful_filterSide _
  · exact .bind (c.lawful_filterSide _) fun _ => .bind (c.lawful_filterSide _) fun _ => .pure _

theorem lawful_settle (fuel : Nat) : (c.settle fuel).Lawful := by
  induction fuel with
  | zero => exact .abort not_false
  | succ fuel ih =>
    refine .bind c.lawful_pass fun changed => ?_
    split
    · exact ih
    · exact .pure ()

theorem lawful : c.propagator.Lawful := by
  have hrun : c.filter.Lawful := by
    refine .bind (.ask fun m => sheltered_slackOf m c.terms) fun fuel => .bind (c.lawful_settle _) fun _ => ?_
    refine .bind (.ask c.sheltered_entailed) fun e => ?_
    split
    · exact .setPassive
    · exact .pure ()
  exact ⟨hrun, fun _ _ => hrun, c.sheltered_entailed⟩

end Linear

/-! ### Nogoods -/

namespace Nogood

variable (c : Nogood)

theorem sheltered_truth (l : Literal) (m : Model) : Sheltered (l.truth m) := by
  refine bind (m.sheltered_value? _) fun v => ?_
  split
  · exact ok _
  · refine bind (m.sheltered_contains _ _) fun there => ?_
    split <;> exact ok _

theorem sheltered_standing (m : Model) (literals : List Literal) : Sheltered (standing m literals) := by
  induction literals with
  | nil => exact ok _
  | cons l rest ih =>
    refine bind (sheltered_truth l m) fun truth => ?_
    split
    · exact ok _
    · exact ih
    · refine bind ih fun r => ?_
      cases r <;> exact ok _

theorem lawful : c.propagator.Lawful := by
  have hrun : c.filter.Lawful := by
    refine .bind (.ask fun m => sheltered_standing m c.literals) fun r => ?_
    split
    · exact .setPassive
    · exact .fail _
    · refine .bind (.narrow _ _) fun _ => .bind (.ask (sheltered_truth _)) fun truth => ?_
      split
      · exact .setPassive
      · exact .pure ()
    · exact .pure ()
  refine ⟨hrun, fun _ _ => hrun, fun m => bind (sheltered_standing m c.literals) fun r => ?_⟩
  split <;> exact ok _

end Nogood

/-- **The constraints at hand are lawful.** -/
theorem Constraint.lawful (c : Constraint) : c.propagator.Lawful := by
  cases c with
  | unequal c => exact c.lawful
  | unequalSum c => exact c.lawful
  | distance c => exact c.lawful
  | linear c => exact c.lawful
  | nogood c => exact c.lawful

/-! ### Scripts -/

namespace Script

variable (s : Script)

theorem lawful_performAll (replies : Array Reply) (actions : List ScriptAction) :
    (performAll replies actions).Lawful := by
  induction actions generalizing replies with
  | nil => exact .pure _
  | cons a rest ih =>
    have hmet : a.isMet.Lawful := by
      rw [ScriptAction.isMet]
      split
      · exact .contains _ _
      · exact .pure true
    have hperform : a.perform.Lawful := by
      rw [ScriptAction.perform]
      split
      · exact .narrow _ _
      · exact .fail _
    refine .bind hmet fun met => ?_
    split
    · refine .bind (.attempt hperform) fun r => ?_
      cases r with
      | ok any => exact ih _
      | error c => exact .pure _
    · exact ih _

theorem sheltered_view (m : Model) : Sheltered (s.view m) :=
  sheltered_mapM (fun x => bind (m.sheltered_extent x) fun _ => bind (m.sheltered_value? x) fun _ => ok _) _

theorem sheltered_isSettled (m : Model) : Sheltered (s.isSettled m) := by
  rw [isSettled]
  split
  · exact ok _
  · exact ok _
  · exact sheltered_allM (fun x => m.sheltered_isInstantiated x) _

theorem lawful_filter (on : Option (Nat × EventMask)) : (s.filter on).Lawful := by
  refine .bind .self fun id => ?_
  dsimp only
  split <;> refine .bind ?_ fun look => .bind (lawful_performAll _ _) fun r => .bind (.log _) fun _ =>
    .bind (.ask s.sheltered_isSettled) fun settled => ?_
  case isTrue.refine_1 => exact .map _ (.ask s.sheltered_view)
  case isFalse.refine_1 => exact .pure none
  all_goals
    split
    · exact .bind .setPassive fun _ => .ended _
    · exact .ended _

/-- **The scripted propagators are lawful.** -/
theorem lawful : s.propagator.Lawful := ⟨s.lawful_filter _, fun _ _ => s.lawful_filter _, fun _ => ok _⟩

theorem lawful_witness (name : String) (scope : Array VarId) : (witness name scope).Lawful :=
  ⟨lawful_filter _ _, fun _ _ => lawful_filter _ _, fun _ => ok _⟩

end Script

end FiniteDomain
