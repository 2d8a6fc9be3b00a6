import FiniteDomain.Proofs.Constraint.Distance
import FiniteDomain.Proofs.Model.Lifetime
import FiniteDomain.Proofs.Model.Recounting

/-!
# Consistency of distances

A run of the propagator of a distance that finds no contradiction leaves no value that it could have removed. Each value
of the two variables that can be removed has a partner in the domain of the other, at a distance that the constraint
admits. That holds up to the ends of the range of values, where the nearest partners are reckoned with sums that are cut
off. A bound may be kept for such a sum, but then the pass for the other variable moves a bound, and both are repeated.

* `Filtered`: what is left of one variable is consistent with what is left of the other;
* `run_consistent`: so it is after a run, in both directions.
-/

namespace FiniteDomain

open Activity FiniteDomain.Filter

namespace Distance

variable {c : Distance} {m : Model}

/-- The domain of `a` is consistent with that of `b`.

For an equality, or a distance above the constant, each value that can be removed has a partner. For a distance below it
the bounds are near enough to those of `b`. For a disequality the two values that a fixed value excludes are gone, unless
they are in the middle of an interval. -/
def Filtered (c : Distance) (m : Model) (a b : VarId) : Prop :=
  match c.relation with
  | .eq => ∀ v, m.Removable a v → ∃ w, m.Has b w ∧ ((v - w).natAbs : Int) = c.constant
  | .ne => 0 ≤ c.constant → ∀ v, m.value? a = .ok (some v) → ∀ w, w = v - c.constant ∨ w = v + c.constant → m.Has b w →
      m.isEnumerated b = .ok false ∧ ∃ l u, m.lb b = .ok l ∧ m.ub b = .ok u ∧ l < w ∧ w < u
  | .lt => ∀ l u, m.lb b = .ok l → m.ub b = .ok u → ∀ v, m.lb a = .ok v ∨ m.ub a = .ok v →
      l - (c.constant - 1) ≤ v ∧ v ≤ u + (c.constant - 1)
  | .gt => ∀ v, m.Removable a v → ∃ w, m.Has b w ∧ c.constant < ((v - w).natAbs : Int)

/-- Where the constraint knows which domains admit holes, all values that can be removed are looked at. -/
theorem examined_of_removable (hx : m.isEnumerated c.x = .ok c.enumerated.1)
    (hy : m.isEnumerated c.y = .ok c.enumerated.2) {a : VarId} (ha : a = c.x ∨ a = c.y) {v : Int}
    (hv : m.Removable a v) : c.Examined m a v := by
  rcases hv.2 with henum | hbound
  · refine .inr ⟨?_, henum, hv.1⟩
    rw [admitsHoles]
    split
    · subst_vars
      rw [henum, Except.ok.injEq] at hx
      exact hx.symm
    · rename_i hne
      rw [← ha.resolve_left hne, henum, Except.ok.injEq] at hy
      exact hy.symm
  · exact .inl hbound

theorem Supported.filtered {a b : VarId} (h : c.Supported m a b) (hw : m.WellFormed)
    (hexamined : ∀ v, m.Removable a v → c.Examined m a v) : c.Filtered m a b := by
  simp only [Supported] at h
  rw [Filtered]
  cases hr : c.relation <;> simp only [hr] at h ⊢
  case eq => exact fun v hv => h v (hexamined v hv)
  case ne =>
    intro hk v hv w hw' hhas
    have hinside := h v hv w (by omega) hhas
    exact ⟨hinside.1, hinside.between hw⟩
  case lt => exact h
  case gt => exact h

/-- **A run that finds no contradiction leaves consistent domains**, whatever the constant and the bounds. The
constraint has to know which of its domains admit holes, which `ofModel` sees to. -/
theorem run_consistent (hw : m.WellFormed) (hx : m.isEnumerated c.x = .ok c.enumerated.1)
    (hy : m.isEnumerated c.y = .ok c.enumerated.2) (hk : Value.Fits c.constant) (id : PropId) (before : Array Notice) :
    ∃ result after, c.propagator.run.run { self := id, model := m } before = .ok result after ∧
      m.Within result.2.model ∧ (result.1 ≠ .ok () → ∀ a, m.Allows a → ¬c.Holds a) ∧
      (result.1 = .ok () → c.Filtered result.2.model c.x c.y ∧ c.Filtered result.2.model c.y c.x) := by
  have hox := Model.owns_of_isEnumerated hx
  have hoy := Model.owns_of_isEnumerated hy
  obtain ⟨⟨result, s⟩, after, hrun, hends⟩ := Quiet.returns
    (@filter_settles c { self := id, model := m } .strict hw hox hoy rfl hk) before
  refine ⟨(result, s), after, hrun, ?_⟩
  cases result with
  | error e => exact ⟨hends.1.within, fun _ a ha hholds => hends.2 a hholds ha, nofun⟩
  | ok u =>
    obtain ⟨hin, hsettles⟩ := hends
    have hvars := hin.narrows.vars_eq
    have hexamined : ∀ a, a = c.x ∨ a = c.y → ∀ v, s.model.Removable a v → c.Examined s.model a v := fun a ha v =>
      examined_of_removable ((Model.isEnumerated_congr hvars _).trans hx) ((Model.isEnumerated_congr hvars _).trans hy) ha
    exact ⟨hin.narrows.within, fun h => absurd rfl h, fun _ =>
      ⟨hsettles.consistent.left.filtered hin.wellFormed (hexamined _ (.inl rfl)),
        hsettles.consistent.right.filtered hin.wellFormed (hexamined _ (.inr rfl))⟩⟩

/-- An interval at an end of the range of values and a domain with a hole: the interval loses a bound that only the
value that is missing was a partner of. -/
theorem run_consistent_of_extremes : ∃ m c, m.WellFormed ∧ m.contains ⟨1⟩ (Value.greatest - 2) = .ok false ∧
    c = Distance.mk ⟨0⟩ ⟨1⟩ .eq 3 (false, true) ∧ m.lb ⟨0⟩ = .ok (Value.greatest - 5) ∧
    ∃ result after, c.propagator.run.run { self := ⟨0⟩, model := m } #[] = .ok result after ∧ result.1 = .ok () ∧
      result.2.model.lb ⟨0⟩ = .ok (Value.greatest - 4) ∧
      ∀ v, result.2.model.Removable ⟨0⟩ v → ∃ w, result.2.model.Has ⟨1⟩ w ∧ ((v - w).natAbs : Int) = 3 := by
  let c : Distance := ⟨⟨0⟩, ⟨1⟩, .eq, 3, (false, true)⟩
  have heval : ((Model.mk "holed" {} #[] #[] 0).newBounded "x" (Value.greatest - 5) Value.greatest).toOption.bind
      (fun r => (r.2.newEnumerated "y" (Value.greatest - 4) Value.greatest).toOption.bind fun r =>
      (r.2.apply ⟨1⟩ (.remove (Value.greatest - 2)) .decision).toOption.map fun r =>
        ([r.2.contains ⟨1⟩ (Value.greatest - 2), r.2.isEnumerated ⟨0⟩, r.2.isEnumerated ⟨1⟩].map Except.toOption,
          (r.2.lb ⟨0⟩).toOption,
          match c.propagator.run.run { self := ⟨0⟩, model := r.2 } #[] with
            | .ok (outcome, s) _ => if outcome = .ok () then (s.model.lb ⟨0⟩).toOption else none
            | .error _ _ => none)) =
        some ([some false, some false, some true], some (Value.greatest - 5), some (Value.greatest - 4)) := by
    decide +kernel
  obtain ⟨⟨x, m₁⟩, h₁, heval⟩ := Option.bind_eq_some_iff.mp heval
  obtain ⟨⟨y, m₂⟩, h₂, heval⟩ := Option.bind_eq_some_iff.mp heval
  obtain ⟨⟨changed, m⟩, h₃, heval⟩ := Option.map_eq_some_iff.mp heval
  simp only [Prod.mk.injEq, List.map_cons, List.map_nil, List.cons.injEq, and_true, toOption_eq_some] at h₁ h₂ h₃ heval
  obtain ⟨⟨hhole, hx, hy⟩, hlb, hrun⟩ := heval
  have hw : m.WellFormed := by
    refine Model.History.wellFormed (.apply (.create (.create (.start "holed") (.newBounded ?_ ?_ h₁))
      (.newEnumerated ?_ ?_ ?_ h₂)) h₃) ?_
    all_goals simp [Value.Fits, Value.least, Value.greatest]
  obtain ⟨result, after, hr, -, -, hfiltered⟩ := run_consistent (c := c) hw hx hy (by decide) ⟨0⟩ #[]
  simp only [hr, Option.ite_none_right_eq_some, toOption_eq_some] at hrun
  exact ⟨m, c, hw, hhole, rfl, hlb, result, after, hr, hrun.1, hrun.2, (hfiltered hrun.1).1⟩

end Distance

end FiniteDomain
