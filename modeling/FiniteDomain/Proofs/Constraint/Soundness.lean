import FiniteDomain.Proofs.Constraint.Passes
import FiniteDomain.Proofs.Model.Lifetime

/-!
# One run of a propagator

Whatever its parameters, and whatever the well-formed domains that it is run on, the propagator of a constraint changes
no domain outside its scope, keeps every assignment that satisfies the constraint, finds a contradiction only if there
is none, and asks not to be woken again only if all that is left satisfies the constraint. Satisfied means satisfied in
the integers: also where sums leave their range. The one way not to come to an end is a constant that is too far from a
sum for the room between them to be in range.

* `Sound`: what a run came to;
* `run_sound`: every run is sound.
-/

namespace FiniteDomain

open FiniteDomain.Filter

namespace Tolerance

/-- A result that left its range is put up with. -/
@[reducible]
def roomy : Tolerance := ⟨(· = .overflow)⟩

end Tolerance

namespace Constraint

variable {c : Constraint} {m : Model}

/-- What a run of the propagator on the model came to is sound. -/
structure Sound (c : Constraint) (m : Model) (r : Except Contradiction Unit × Scene) : Prop where
  within : m.Within r.2.model
  other : ∀ x, x ∉ c.propagator.scope →
    r.2.model.extent x = m.extent x ∧ ∀ v, r.2.model.contains x v = m.contains x v
  keeps : ∀ a, m.Allows a → c.Holds a → r.2.model.Allows a
  refutes : ∀ e, r.1 = .error e → ∀ a, m.Allows a → ¬c.Holds a
  passive : r.2.passive = true → ∀ a, r.2.model.Allows a → c.Holds a

/-- What satisfies the constraint is let stand. -/
theorem Holds.admits {a : Assignment} (h : c.Holds a) : c.Admits a := by
  match c, h with
  | unequal _, h | unequalSum _, h | distance _, h | nogood _, h => exact h
  | linear _, h => exact Linear.Holds.admits h

/-- A run that asks not to be woken again leaves values only that satisfy the constraint. -/
theorem filter_holds [Tolerance] (start : Scene) (hw : start.model.WellFormed)
    (hscope : ∀ x ∈ c.propagator.scope, start.model.owns x = true) (hproper : c.Proper)
    (hroom : Fault.overflow.Tolerated ∨ c.HasRoom start.model) (hp : start.passive = false) :
    Leads c.Admits start c.propagator.run start fun _ s => s.passive = true → ∀ a, s.model.Allows a → c.Holds a := by
  match c, hscope, hproper, hroom with
  | unequal c, hscope, hproper, hroom | unequalSum c, hscope, hproper, hroom
  | distance c, hscope, hproper, hroom | nogood c, hscope, hproper, hroom =>
    exact (filter_spec start hw ⟨hscope, hproper, trivial, hroom⟩ hp).mono fun _ _ _ h => h.passive
  | linear c, hscope, hproper, hroom =>
    have howns : ∀ t ∈ c.terms, start.model.owns t.var = true := fun t ht => hscope _ (mem_linear_scope ht)
    exact (Linear.filter_holds hw hproper howns hroom hp).mono fun _ _ _ h => h.2

/-- What is known of a run by what it leads to and by how its filter is built. -/
theorem Sound.of_ends (hw : m.WellFormed) {id : PropId} {r : Except Contradiction Unit × Scene}
    (hends : Ends c.Admits { self := id, model := m } (fun _ s => s.passive = true → ∀ a, s.model.Allows a → c.Holds a) r)
    (hconfined : (∀ e, r.1 = .error e → r.2.passive = false) ∧
      Model.Rewrites (m.OwnsIn c.propagator.scope.toList) m r.2.model) : c.Sound m r := by
  obtain ⟨hawake, hwrites⟩ := hconfined
  have hother : ∀ x, x ∉ c.propagator.scope →
      r.2.model.extent x = m.extent x ∧ ∀ v, r.2.model.contains x v = m.contains x v :=
    fun x hx => hwrites.other hw fun hmem => hx (Array.mem_toList_iff.mp hmem)
  obtain ⟨r, s⟩ := r
  cases r with
  | ok u =>
    obtain ⟨hin, hpassive⟩ := hends
    exact ⟨hin.narrows.within, hother, fun a ha hholds => hin.keeps a hholds.admits ha, nofun, hpassive⟩
  | error e =>
    obtain ⟨hnarrows, hnone⟩ := hends
    refine ⟨hnarrows.within, hother, fun a ha hholds => absurd ha (hnone a hholds.admits), ?_, ?_⟩
    · exact fun _ _ a ha hholds => hnone a hholds.admits ha
    · exact fun hp => absurd (hawake e rfl) (by rw [hp]; decide)

/-- **Every run is sound**, unless a constraint without room is taken beyond the range of sums. -/
theorem run_sound (c : Constraint) (hw : m.WellFormed) (hscope : ∀ x ∈ c.propagator.scope, m.owns x = true)
    (hproper : c.Proper) (id : PropId) (before : Array Notice) :
    (∃ r after, c.propagator.run.run { self := id, model := m } before = .ok r after ∧ c.Sound m r) ∨
      ¬c.HasRoom m ∧ ∃ after, c.propagator.run.run { self := id, model := m } before = .error .overflow after := by
  have hrun := @filter_holds c .roomy { self := id, model := m } hw hscope hproper (.inl rfl) rfl before
  cases hr : c.propagator.run.run { self := id, model := m } before with
  | ok r after =>
    rw [hr] at hrun
    obtain ⟨-, -, -, hends⟩ := hrun
    exact .inl ⟨r, after, rfl, .of_ends hw hends (c.run_concludes.confined _ before r after hr)⟩
  | error fault after =>
    rw [hr] at hrun
    obtain ⟨-, -, -, hfault⟩ := hrun
    obtain rfl : fault = .overflow := hfault
    refine .inr ⟨fun hroom => ?_, after, rfl⟩
    have hnever := @filter_holds c .strict { self := id, model := m } hw hscope hproper (.inr hroom) rfl before
    rw [hr] at hnever
    obtain ⟨-, -, -, hfalse⟩ := hnever
    exact hfalse

/-- Constraints of every kind, at an end of the range of values and with a variable that counts twice. -/
theorem run_sound_of_corner : ∃ m, m.WellFormed ∧ ∀ c ∈ [unequal ⟨⟨0⟩, Value.least⟩, unequalSum ⟨⟨0⟩, ⟨1⟩, 1, (false, true)⟩,
    distance ⟨⟨0⟩, ⟨0⟩, .gt, 0, (false, false)⟩, linear ⟨[⟨2, ⟨0⟩⟩, ⟨-3, ⟨1⟩⟩, ⟨1, ⟨0⟩⟩], .le, Value.least⟩,
    nogood ⟨[⟨⟨0⟩, Value.least, false⟩, ⟨⟨1⟩, 1, true⟩]⟩], (∀ x ∈ c.propagator.scope, m.owns x = true) ∧ c.Proper ∧
      ((∃ r after, c.propagator.run.run { self := ⟨0⟩, model := m } #[] = .ok r after ∧ c.Sound m r) ∨
        ¬c.HasRoom m ∧ ∃ after, c.propagator.run.run { self := ⟨0⟩, model := m } #[] = .error .overflow after) := by
  obtain ⟨m, m', hm, hm', hx, hy⟩ : ∃ m m', (Model.mk "corner" {} #[] #[] 0).newBounded "x" Value.least
      (Value.least + 2) = .ok (⟨0⟩, m) ∧ m.newEnumerated "y" 0 2 = .ok (⟨1⟩, m') ∧ m'.owns ⟨0⟩ = true ∧
        m'.owns ⟨1⟩ = true := ⟨_, _, rfl, rfl, rfl, rfl⟩
  have hw : m'.WellFormed := by
    refine Model.History.wellFormed (.create (.create (.start "corner") (.newBounded ?_ ?_ hm))
      (.newEnumerated ?_ ?_ ?_ hm')) ?_
    all_goals simp [Value.Fits, Value.least, Value.greatest]
  refine ⟨m', hw, fun c hc => ?_⟩
  have hscope : ∀ x ∈ c.propagator.scope, m'.owns x = true := by
    simp only [List.mem_cons, List.not_mem_nil, or_false] at hc
    rcases hc with rfl | rfl | rfl | rfl | rfl <;>
      simp [propagator, Unequal.propagator, UnequalSum.propagator, Distance.propagator, Linear.propagator,
        Nogood.propagator, hx, hy]
  have hproper : c.Proper := by
    simp only [List.mem_cons, List.not_mem_nil, or_false] at hc
    rcases hc with rfl | rfl | rfl | rfl | rfl <;> simp [Proper, Value.Fits, Value.least, Value.greatest]
  exact ⟨hscope, hproper, c.run_sound hw hscope hproper ⟨0⟩ #[]⟩

end Constraint

end FiniteDomain
