import FiniteDomain.Proofs.Constraint.Machine
import FiniteDomain.Proofs.Constraint.Still

/-!
# The loops of filters

Distances and sums are filtered by a pass that is repeated until it changes nothing. A pass tells that it changed
something just if one of the variables lost a value for good. So it is not repeated oftener than there are values to
lose, and the bound that is set to the repetitions is never reached.

* `Filter.Exhausts`: a pass that ends if it is repeated;
* `Constraint.loop?`: the pass that a constraint repeats;
* `Constraint.loop_exhausts`: it ends, on all well-formed domains;
* `Constraint.run_loops`: it is given enough repetitions;
* `Constraint.loops`: both.
-/

namespace FiniteDomain

open Distance (repeatPass bothWays)

namespace Filter

/-- Repeated from the model on, a pass over some variables ends. Each time it tells whether one of them lost a value,
and more repetitions than there are values to lose make no difference. -/
structure Exhausts (pass : Filter Bool) (l : List VarId) (m : Model) : Prop where
  tells : ∀ s before changed s' after, s.model = m → pass.run s before = .ok (.ok changed, s') after →
    m.Within s'.model ∧ (changed = true → ∃ x ∈ l, ∃ v, m.Has x v ∧ ¬s'.model.Has x v) ∧
      (changed = false → s'.model = m)
  ends : ∀ s before fuel, s.model = m → m.spare l < fuel →
    (∀ after, (repeatPass pass fuel).run s before ≠ .error .outOfFuel after) ∧
      ∀ more, fuel ≤ more → (repeatPass pass more).run s before = (repeatPass pass fuel).run s before

/-- A variable of the list lost a value if there are fewer to lose. -/
theorem exists_lost {m m' : Model} {l : List VarId} (h : m'.spare l < m.spare l) :
    ∃ x ∈ l, ∃ v, m.Has x v ∧ ¬m'.Has x v := by
  induction l with
  | nil => exact absurd h (Nat.not_lt_zero _)
  | cons x rest ih =>
    by_cases hlost : ∃ v, m.Has x v ∧ ¬m'.Has x v
    · exact ⟨x, List.mem_cons_self, hlost⟩
    · have hcount : m.count x ≤ m'.count x :=
        Model.count_le fun v hv => Classical.byContradiction fun hn => hlost ⟨v, hv, hn⟩
      have hcons : ∀ m : Model, m.spare (x :: rest) = (m.count x - 1) + m.spare rest := fun _ => rfl
      rw [hcons, hcons] at h
      obtain ⟨z, hz, hv⟩ := ih (by omega)
      exact ⟨z, List.mem_cons_of_mem x hz, hv⟩

/-- Repetitions that ended leave nothing to do for more of them. -/
theorem repeatPass_of_le {pass : Filter Bool} {s : Scene} {before : Array Notice} {fuel more : Nat}
    (h : ∀ after, (repeatPass pass fuel).run s before ≠ .error .outOfFuel after) (hle : fuel ≤ more) :
    (repeatPass pass more).run s before = (repeatPass pass fuel).run s before := by
  induction fuel generalizing s before more with
  | zero => exact absurd rfl (h before)
  | succ fuel ih =>
    obtain ⟨more, rfl⟩ : ∃ k, more = k + 1 := ⟨more - 1, by omega⟩
    refine run_bind_congr_at rfl fun changed t middle hrun => ?_
    cases changed with
    | false => rfl
    | true =>
      refine ih (fun after hout => h after ?_) (by omega)
      rw [repeatPass, run_bind_of_ok hrun]
      exact hout

theorem Exhausts.of_leads {pass : Filter Bool} {l : List VarId} {m : Model} (hw : m.WellFormed)
    (h : ∀ start s, start.model = m → Within Nowhere start s →
      @Leads .roomy _ Nowhere start pass s (Passes l (fun _ => True) s)) : pass.Exhausts l m := by
  let := Tolerance.roomy
  refine ⟨?_, ?_⟩
  · rintro s before changed s' after rfl hrun
    have hends := h s s rfl (.refl hw) before
    rw [hrun] at hends
    obtain ⟨-, -, -, hin, htally, -⟩ := hends
    exact ⟨hin.narrows.within, fun hc => exists_lost (htally.fewer hc), htally.same⟩
  · rintro s before fuel rfl hfuel
    have hleads := Distance.repeatPass_spec (P := fun _ => True) (.refl hw) (fun t ht => h s t rfl ht) hfuel before
    have hne : ∀ after, (repeatPass pass fuel).run s before ≠ .error .outOfFuel after := by
      intro after hrun
      rw [hrun] at hleads
      obtain ⟨-, -, -, hfault⟩ := hleads
      cases hfault
    exact ⟨hne, fun more hle => repeatPass_of_le hne hle⟩

end Filter

open FiniteDomain.Filter

/-- A sum is settled by repeating its pass. -/
theorem Linear.settle_eq (c : Linear) (fuel : Nat) : c.settle fuel = repeatPass c.pass fuel := by
  induction fuel with
  | zero => rfl
  | succ fuel ih => rw [settle, repeatPass, ih]

namespace Distance

variable {c : Distance} {pass : VarId → VarId → Filter Bool}

/-- The pass over each of the variables that a run repeats, if there is any. -/
def loop? (c : Distance) : Option (VarId → VarId → Filter Bool) :=
  match c.relation with
  | .eq => if c.constant < 0 then none else some c.filterEq
  | .ne => none
  | .lt => if c.constant ≤ 0 then none else some c.filterLt
  | .gt => if c.constant < 0 then none else some c.filterGt

theorem loop?_cases (h : c.loop? = some pass) :
    (c.relation = .eq ∧ 0 ≤ c.constant ∧ pass = c.filterEq) ∨ (c.relation = .lt ∧ 0 < c.constant ∧ pass = c.filterLt) ∨
      (c.relation = .gt ∧ 0 ≤ c.constant ∧ pass = c.filterGt) := by
  rw [loop?] at h
  split at h
  · obtain ⟨hk, heq⟩ := Option.ite_none_left_eq_some.mp h
    exact .inl ⟨‹_›, Int.not_lt.mp hk, (Option.some.inj heq).symm⟩
  · cases h
  · obtain ⟨hk, heq⟩ := Option.ite_none_left_eq_some.mp h
    exact .inr (.inl ⟨‹_›, Int.not_le.mp hk, (Option.some.inj heq).symm⟩)
  · obtain ⟨hk, heq⟩ := Option.ite_none_left_eq_some.mp h
    exact .inr (.inr ⟨‹_›, Int.not_lt.mp hk, (Option.some.inj heq).symm⟩)

theorem filter_of_loop? (h : c.loop? = some pass) :
    ∃ rest, c.filter = (do repeatPass (bothWays pass c.x c.y) (← c.patience); rest) := by
  rw [filter]
  rcases loop?_cases h with ⟨hr, hk, rfl⟩ | ⟨hr, hk, rfl⟩ | ⟨hr, hk, rfl⟩
  · simp only [hr, runEq, if_neg (Int.not_lt.mpr hk)]
    exact ⟨_, rfl⟩
  · simp only [hr, runLt, if_neg (Int.not_le.mpr hk)]
    exact ⟨_, rfl⟩
  · simp only [hr, runGt, if_neg (Int.not_lt.mpr hk)]
    exact ⟨_, rfl⟩

theorem loop_leads [Tolerance] (h : c.loop? = some pass) {start s : Scene} (hx : start.model.owns c.x = true)
    (hy : start.model.owns c.y = true) (hin : Within Nowhere start s) :
    Leads Nowhere start (bothWays pass c.x c.y) s (Passes [c.x, c.y] (fun _ => True) s) := by
  have hforget : ∀ {P : Model → Prop}, Leads Nowhere start (bothWays pass c.x c.y) s (Passes [c.x, c.y] P s) →
      Leads Nowhere start (bothWays pass c.x c.y) s (Passes [c.x, c.y] (fun _ => True) s) :=
    fun h => h.mono fun _ _ _ hpasses => ⟨hpasses.1, fun _ => trivial⟩
  rcases loop?_cases h with ⟨-, hk, rfl⟩ | ⟨-, hk, rfl⟩ | ⟨-, hk, rfl⟩
  · exact hforget (Leads.both hin (fun s hs => filterEq_spec hs hx hy mem_both_left hk fun _ h _ => h.elim)
      fun s hs => filterEq_spec hs hy hx mem_both_right hk fun _ h _ => h.elim)
  · exact hforget (Leads.both hin (fun s hs => filterLt_spec hs hx hy mem_both_left hk fun _ h _ => h.elim)
      fun s hs => filterLt_spec hs hy hx mem_both_right hk fun _ h _ => h.elim)
  · exact hforget (Leads.both hin (fun s hs => filterGt_spec hs hx hy mem_both_left hk fun _ h _ => h.elim)
      fun s hs => filterGt_spec hs hy hx mem_both_right hk fun _ h _ => h.elim)

end Distance

namespace Constraint

variable {c : Constraint} {m : Model} {pass : Filter Bool}

/-- The pass that a run repeats until it changes nothing, if there is any. -/
def loop? : Constraint → Option (Filter Bool)
  | distance c => c.loop?.map fun pass => bothWays pass c.x c.y
  | linear c => some c.pass
  | unequal _ | unequalSum _ | nogood _ => none

/-- Whatever pass a run repeats comes to an end on the model, and the run allows for more repetitions than there are
values to lose. -/
def Loops (c : Constraint) (m : Model) : Prop :=
  ∀ pass, c.loop? = some pass → pass.Exhausts c.propagator.scope.toList m ∧
    ∃ (patience : Filter Nat) (rest : Filter Unit) (fuel : Nat),
      c.propagator.run = (do repeatPass pass (← patience); rest) ∧ patience.Answers m fuel ∧
        m.spare c.propagator.scope.toList < fuel

/-- Each pass notes whether it changed a domain. -/
theorem loop_leads [Tolerance] (hoverflow : Fault.overflow.Tolerated) (h : c.loop? = some pass) {start s : Scene}
    (hscope : ∀ x ∈ c.propagator.scope, start.model.owns x = true) (hproper : c.Proper) (hin : Within Nowhere start s) :
    Leads Nowhere start pass s (Passes c.propagator.scope.toList (fun _ => True) s) := by
  cases c with
  | distance c =>
    obtain ⟨each, heach, rfl⟩ := Option.map_eq_some_iff.mp h
    exact Distance.loop_leads heach (hscope c.x Distance.mem_scope_left) (hscope c.y Distance.mem_scope_right) hin
  | linear c =>
    cases h
    have howns : ∀ t ∈ c.terms, start.model.owns t.var = true := fun t ht => hscope _ (mem_linear_scope ht)
    exact (Linear.pass_tallies hin hproper howns hoverflow).mono fun _ _ _ hpasses => ⟨hpasses.1, fun _ => trivial⟩
  | unequal _ | unequalSum _ | nogood _ => cases h

/-- **The loop of a filter ends**, from all well-formed domains. -/
theorem loop_exhausts (h : c.loop? = some pass) (hw : m.WellFormed) (hproper : c.Proper)
    (hscope : ∀ x ∈ c.propagator.scope, m.owns x = true) : pass.Exhausts c.propagator.scope.toList m := by
  let := Tolerance.roomy
  refine .of_leads hw fun start s heq hin => ?_
  subst heq
  exact loop_leads rfl h hscope hproper hin

/-- **The loop is given enough repetitions.** A run first reckons with how many values there are to lose, and repeats the
pass that often at most. -/
theorem run_loops (h : c.loop? = some pass) (hw : m.WellFormed) (hscope : ∀ x ∈ c.propagator.scope, m.owns x = true) :
    ∃ (patience : Filter Nat) (rest : Filter Unit) (fuel : Nat),
      c.propagator.run = (do repeatPass pass (← patience); rest) ∧ patience.Answers m fuel ∧
        m.spare c.propagator.scope.toList < fuel := by
  cases c with
  | distance c =>
    obtain ⟨each, heach, rfl⟩ := Option.map_eq_some_iff.mp h
    have hx := hscope c.x Distance.mem_scope_left
    have hy := hscope c.y Distance.mem_scope_right
    obtain ⟨rest, hrun⟩ := Distance.filter_of_loop? heach
    obtain ⟨fuel, hanswers, hle⟩ := Distance.patience_answers (c := c) hw hx hy
    exact ⟨c.patience, rest, fuel + 1, hrun, hanswers, Nat.lt_succ_of_le hle⟩
  | linear c =>
    cases h
    obtain ⟨n, hn, hle⟩ := Linear.slackOf_spec hw fun t ht => hscope _ (mem_linear_scope ht)
    refine ⟨do return (← ask fun m => Linear.slackOf m c.terms) + 1,
      do if (← ask c.entailed) = .always then setPassive, n + 1, ?_, .bind (.ask hn) (.pure m _), ?_⟩
    · simp only [bind_assoc, pure_bind, ← Linear.settle_eq]
      rfl
    · simpa [propagator, Linear.propagator] using Nat.lt_succ_of_le hle
  | unequal _ | unequalSum _ | nogood _ => cases h

theorem loops (c : Constraint) (hw : m.WellFormed) (hproper : c.Proper)
    (hscope : ∀ x ∈ c.propagator.scope, m.owns x = true) : c.Loops m :=
  fun _ h => ⟨loop_exhausts h hw hproper hscope, run_loops h hw hscope⟩

end Constraint

end FiniteDomain
