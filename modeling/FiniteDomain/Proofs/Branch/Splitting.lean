import FiniteDomain.Proofs.Branch.Heuristic
import FiniteDomain.Proofs.Model.Lifetime

/-!
# Decisions that halve a domain

Of a heuristic a search may ask two things. It has a decision as long as a variable of its list has more than one
value left; otherwise a node would pass for a solution. And both alternatives of a decision can be taken, lose values,
and together lose none: otherwise the search would run in circles or miss solutions. Neither is plain of intervals,
out of whose middle nothing can be taken, nor at the ends of the range of values.

* `Decision.Bisects`: what two alternatives leave of a domain;
* `Heuristic.next_halves`: every decision of a heuristic halves a domain.
-/

namespace FiniteDomain

open Activity

/-- The bounds of the variable have a middle that is computed within range, as is the value after it. -/
def Model.HasMiddle (m : Model) (x : VarId) : Prop :=
  ∃ lb ub, m.lb x = .ok lb ∧ m.ub x = .ok ub ∧ Sum.Fits (ub - lb) ∧ Value.Fits ((ub - lb) / 2) ∧
    Value.Fits (Heuristic.middle lb ub) ∧ Value.Fits (Heuristic.middle lb ub + 1)

/-- There is a value after the middle, since the bounds differ. -/
theorem Model.hasMiddle {m : Model} (hw : m.WellFormed) {x : VarId} (hx : m.owns x = true) (hfree : ¬m.Fixed x) :
    m.HasMiddle x := by
  obtain ⟨y, hy⟩ := Model.owns_iff.mp hx
  have hd := hw.domains _ y hy
  have hlt : y.domain.lb m.store < y.domain.ub m.store :=
    lt_of_le_of_ne hd.lb_le_ub fun heq => hfree ((Model.fixed_iff hy).mpr heq)
  have hlow := hd.fits_lb
  have hhigh := hd.fits_ub
  refine ⟨_, _, Model.lb_eq hy, Model.ub_eq hy, ?_⟩
  simp only [Heuristic.middle, Value.Fits, Value.least, Value.greatest, Sum.Fits, Sum.least, Sum.greatest] at *
  omega

namespace Decision

variable {d : Decision} {m : Model}

/-- What the alternatives of the decision leave of the model: each a part of the values of its variable that is not
empty, none in both parts and each in one, and of the other variables everything. -/
structure Bisects (d : Decision) (m first second : Model) : Prop where
  firstFormed : first.WellFormed
  secondFormed : second.WellFormed
  firstHas : ∃ v, first.Has d.var v
  secondHas : ∃ v, second.Has d.var v
  apart : ∀ v, first.Has d.var v → ¬second.Has d.var v
  cover : ∀ v, m.Has d.var v ↔ first.Has d.var v ∨ second.Has d.var v
  others : ∀ x, x ≠ d.var → ∀ v, (first.Has x v ↔ m.Has x v) ∧ (second.Has x v ↔ m.Has x v)

/-- The decision halves the domain of a variable with more than one value left: from the model both alternatives
succeed, and nothing leaves its range. -/
structure Halves (d : Decision) (m : Model) : Prop where
  free : ¬m.Fixed d.var
  fits : Value.Fits d.value
  middle : m.HasMiddle d.var
  bisects : ∀ before, ∃ first second after after', d.takeNext m before = .ok (.ok (), { d with tried := 1 }, first) after ∧
    ({ d with tried := 1 } : Decision).takeNext m before = .ok (.ok (), { d with tried := 2 }, second) after' ∧
    d.Bisects m first second

/-- The value of a decision lies between values of its variable. -/
theorem Parts.fits (h : d.Parts m) (hw : m.WellFormed) : Value.Fits d.value := by
  obtain ⟨v, hv, hfirst⟩ := h.first
  obtain ⟨w, hw', hsecond⟩ := h.second
  have hv := hw.fits hv
  have hw := hw.fits hw'
  cases hs : d.split <;> rw [hs] at hfirst hsecond <;> simp only [Split.FirstHolds] at hfirst hsecond <;>
    simp only [Value.Fits] at hv hw ⊢ <;> omega

/-- **An alternative that has a value is taken**, and leaves the values that belong to it. -/
theorem takeNext_returns (hw : m.WellFormed) (hd : d.Parts m) (hlt : d.tried < 2) {e : Decision}
    (he : e = { d with tried := d.tried + 1 }) {v : Int} (hv : m.Has d.var v) (hin : e.Holds fun _ => v)
    (before : Array Notice) :
    ∃ m' after, d.takeNext m before = .ok (.ok (), e, m') after ∧ m'.WellFormed ∧
      (∀ w, m'.Has d.var w ↔ m.Has d.var w ∧ e.Holds fun _ => w) ∧ ∀ x, x ≠ d.var → ∀ w, m'.Has x w ↔ m.Has x w := by
  obtain ⟨⟨outcome, e', m'⟩, after, hrun, rfl, μ, hμ, hcase⟩ :=
    Quiet.returns (@takeNext_spec .strict d m hw hd hlt) before
  subst he
  have hkeeps : ∀ w, μ.Keeps w ↔ ({ d with tried := d.tried + 1 } : Decision).Holds fun _ => w :=
    fun w => mutation_keeps_iff hμ (Nat.succ_ne_zero _) fun _ => w
  have hcases : μ = d.split.choice d.value ∨ d.split.refutation d.value = .ok μ :=
    mutation_cases (d := { d with tried := d.tried + 1 }) hμ
  rcases hcase with ⟨-, -, hnone⟩ | ⟨rfl, changed, hn⟩
  · exact absurd (Model.target_of_keeps hv ((hkeeps v).mpr hin)) (hnone v)
  · refine ⟨m', after, hrun, hn.narrows.wellFormed, fun w => (hn.has_iff w).trans ⟨fun ht => ?_, fun hk => ?_⟩, hn.other⟩
    · obtain ⟨y, hy, htarget⟩ := ht
      refine ⟨(Model.has_iff hy).mpr htarget.1, (hkeeps w).mp (hd.exact μ hcases w ⟨y, hy, htarget⟩)⟩
    · exact Model.target_of_keeps hk.1 ((hkeeps w).mpr hk.2)

/-- **The alternatives of a decision that parts a domain** bisect it. -/
theorem Parts.bisects (hd : d.Parts m) (hw : m.WellFormed) (h0 : d.tried = 0) (before : Array Notice) :
    ∃ first second after after', d.takeNext m before = .ok (.ok (), { d with tried := 1 }, first) after ∧
      ({ d with tried := 1 } : Decision).takeNext m before = .ok (.ok (), { d with tried := 2 }, second) after' ∧
      d.Bisects m first second := by
  obtain ⟨v, hv, hfirst⟩ := hd.first
  obtain ⟨w, hw', hsecond⟩ := hd.second
  obtain ⟨m₁, after, hrun, hwf₁, hhas₁, hother₁⟩ :=
    takeNext_returns hw hd (by omega) (e := { d with tried := 1 }) (by rw [h0]) hv hfirst before
  have hparts : ({ d with tried := 1 } : Decision).Parts m := ⟨hd.first, hd.second, hd.exact⟩
  obtain ⟨m₂, after', hrun', hwf₂, hhas₂, hother₂⟩ :=
    takeNext_returns hw hparts (by simp) (e := { d with tried := 2 }) rfl hw' hsecond before
  have h₁ : ∀ u, m₁.Has d.var u ↔ m.Has d.var u ∧ d.split.FirstHolds d.value u := hhas₁
  have h₂ : ∀ u, m₂.Has d.var u ↔ m.Has d.var u ∧ ¬d.split.FirstHolds d.value u := hhas₂
  refine ⟨m₁, m₂, after, after', hrun, hrun', hwf₁, hwf₂, ⟨v, (h₁ v).mpr ⟨hv, hfirst⟩⟩, ⟨w, (h₂ w).mpr ⟨hw', hsecond⟩⟩,
    fun u hu hu' => ((h₂ u).mp hu').2 ((h₁ u).mp hu).2, fun u => ?_, fun x hx u => ⟨hother₁ x hx u, hother₂ x hx u⟩⟩
  rw [h₁, h₂, ← and_or_left]
  exact ⟨fun hu => ⟨hu, Decidable.em _⟩, And.left⟩

theorem Splits.halves (hd : d.Splits m) (hw : m.WellFormed) : d.Halves m :=
  ⟨hd.free hw, hd.fits hw, Model.hasMiddle hw hd.owns (hd.free hw), hd.bisects hw hd.untried⟩

end Decision

namespace Heuristic

variable {m : Model}

/-- **Every decision of a heuristic halves the domain of a variable of its list**, whatever its selectors and its
draws, and it has one unless all of these are fixed. -/
theorem next_halves (hw : m.WellFormed) (h : Heuristic) (hv : ∀ x ∈ h.vars, m.owns x = true) :
    ∃ d? h', h.next m = .ok (d?, h') ∧ (d? = none ↔ ∀ x ∈ h.vars, m.Fixed x) ∧
      ∀ d, d? = some d → d.var ∈ h.vars ∧ d.Halves m := by
  obtain ⟨⟨d?, h'⟩, hnext, -, hsome, hnone⟩ := Meets.returns (@next_meets .strict m hw h fun x hx => .inr (hv x hx))
  have hhalves : ∀ d, d? = some d → d.var ∈ h.vars ∧ d.Halves m :=
    fun d hd => ⟨(hsome d hd).1, (hsome d hd).2.halves hw⟩
  refine ⟨d?, h', hnext, ⟨hnone, fun hall => ?_⟩, hhalves⟩
  cases hd : d? with
  | none => rfl
  | some d =>
    obtain ⟨hmem, hd⟩ := hhalves d hd
    exact absurd (hall _ hmem) hd.free

/-- All selectors, on an interval of all values, on the two ends of it and on values with a gap in the middle. -/
theorem next_halves_of_extremes : ∃ m, m.WellFormed ∧ ∀ varSelector valSelector seed,
    let h := ofSeed [⟨0⟩, ⟨1⟩, ⟨2⟩] varSelector valSelector seed
    (∀ x ∈ h.vars, m.owns x = true) ∧ ∃ d? h', h.next m = .ok (d?, h') ∧
      (d? = none ↔ ∀ x ∈ h.vars, m.Fixed x) ∧ ∀ d, d? = some d → d.var ∈ h.vars ∧ d.Halves m := by
  obtain ⟨m₁, h₁, hsize₁⟩ : ∃ m₁, (Model.mk "extremes" {} #[] #[] 0).newBounded "x" Value.least Value.greatest =
      .ok (⟨0⟩, m₁) ∧ m₁.vars.size = 1 := ⟨_, rfl, rfl⟩
  obtain ⟨m₂, h₂, hsize₂⟩ := m₁.exists_newOfValues "y" [Value.least, Value.greatest] nofun
  obtain ⟨m₃, h₃, hsize₃⟩ := m₂.exists_newOfValues "z" [0, 1, 7, 8] nofun
  have hw : m₃.WellFormed := by
    refine Model.History.wellFormed (.create (.create (.create (.start "extremes") (.newBounded ?_ ?_ h₁))
      (.newOfValues ?_ ?_ h₂)) (.newOfValues ?_ ?_ h₃)) ?_
    all_goals simp [Value.Fits, Value.least, Value.greatest]
  have hv : ∀ x ∈ [(⟨0⟩ : VarId), ⟨1⟩, ⟨2⟩], m₃.owns x = true := by simp [Model.owns, hsize₃, hsize₂, hsize₁]
  exact ⟨m₃, hw, fun varSelector valSelector seed => ⟨hv, next_halves hw (ofSeed _ varSelector valSelector seed) hv⟩⟩

end Heuristic

end FiniteDomain
