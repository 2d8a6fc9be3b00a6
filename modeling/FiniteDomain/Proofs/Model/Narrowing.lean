import FiniteDomain.Proofs.Model.Lifetime

/-!
# Narrowings as operations on sets

For a variable whose domain is well-formed, the queries answer for the set of its values, and a narrowing
intersects that set with the values that are kept, or leaves it if none would remain. A change queues one event,
whose kind tells which bounds moved. Nothing is asked of the other variables.

* `Answers`: what the queries say of the set of values;
* `Narrowing`: the three ways in which a narrowing can end;
* `narrowing_exact`: queries and narrowings of a well-formed domain.
-/

namespace FiniteDomain

namespace Model

variable {m : Model} {x : VarId} {y : Variable}

/-- The queries of a variable are exact. -/
structure Answers (m : Model) (x : VarId) : Prop where
  contains : ∀ v, ∃ b, m.contains x v = .ok b ∧ (b = true ↔ m.Has x v)
  bounds : ∃ lb ub, m.lb x = .ok lb ∧ m.ub x = .ok ub ∧ m.Has x lb ∧ m.Has x ub ∧ ∀ v, m.Has x v → lb ≤ v ∧ v ≤ ub
  values : ∃ vs, m.values x = .ok vs ∧ vs.toList.Pairwise (· < ·) ∧ (∀ v, v ∈ vs ↔ m.Has x v) ∧
    ∃ e, m.isEnumerated x = .ok e ∧ m.size x = .ok (if e then vs.size else min (vs.size : Int) Value.greatest)
  next : ∀ v, Value.Fits v → ∃ r, m.next? x v = .ok r ∧ LeastOf (fun w => m.Has x w ∧ v < w) r
  previous : ∀ v, Value.Fits v → ∃ r, m.previous? x v = .ok r ∧ GreatestOf (fun w => m.Has x w ∧ w < v) r

theorem answers_of_wellFormed (hy : m.vars[x.index]? = some y) (h : y.domain.WellFormed m.store) : m.Answers x := by
  have hhas : ∀ v, m.Has x v ↔ y.domain.Has m.store v := fun v => has_iff hy
  constructor
  · intro v
    obtain ⟨b, hb⟩ := Domain.exists_contains h.shaped m.store v
    refine ⟨b, (contains_eq hy v).trans hb, ?_⟩
    rw [hhas, Domain.Has, hb, Except.ok.injEq]
  · refine ⟨_, _, lb_eq hy, ub_eq hy, (hhas _).mpr h.has_lb, (hhas _).mpr h.has_ub, fun v hv => ?_⟩
    exact ⟨h.lb_le ((hhas v).mp hv), h.le_ub ((hhas v).mp hv)⟩
  · obtain ⟨vs, hvs, hsorted, hmem⟩ := h.values_spec
    refine ⟨vs, ?_, hsorted, fun v => (hmem v).trans (hhas v).symm, _, isEnumerated_eq hy, ?_⟩
    · rw [values, domain_eq_ok hy, ok_bind, hvs]
    · rw [size_eq hy, h.size_eq_length hsorted fun v => Array.mem_toList_iff.trans (hmem v), Array.length_toList]
  · intro v hv
    obtain ⟨r, hr, hleast⟩ := h.next?_spec fun _ => hv
    simp only [hhas]
    exact ⟨r, by rw [next?, domain_eq_ok hy, ok_bind, hr], hleast⟩
  · intro v hv
    obtain ⟨r, hr, hgreatest⟩ := h.previous?_spec fun _ => hv
    simp only [hhas]
    exact ⟨r, by rw [previous?, domain_eq_ok hy, ok_bind, hr], hgreatest⟩

/-- What a narrowing leads to. It is refused, and the model is as it was, if no value of the variable would be left.
It changes nothing if all would be left. Otherwise the target becomes the set of values, one event is queued, and
nothing outside the domain is written. -/
inductive Narrowing (m : Model) (x : VarId) (y : Variable) (μ : Mutation) (cause : Cause) :
    Except Contradiction Bool × Model → Prop
  | refused : (∀ v, ¬m.Target x μ v) → Narrowing m x y μ cause (.error ⟨.emptyDomain x, cause⟩, m)
  | idle : (∃ v, m.Has x v) → (∀ v, m.Has x v → m.Target x μ v) → Narrowing m x y μ cause (.ok false, m)
  | narrowed {store : Store Datum} {lb ub lb' ub' : Int} :
      (∃ v, m.Target x μ v) → (∃ v, m.Has x v ∧ ¬m.Target x μ v) → y.domain.WellFormed store →
      (∀ v, y.domain.Has store v ↔ m.Target x μ v) →
      m.lb x = .ok lb → m.ub x = .ok ub → y.domain.lb store = lb' → y.domain.ub store = ub' →
      (∀ c, ¬y.domain.Owns c → store.get? c = m.store.get? c) →
      Narrowing m x y μ cause
        (.ok true, { m with store, events := m.events.push ⟨x, .ofBounds lb ub lb' ub', cause⟩ })

/-- **Narrowings are exact.** For a well-formed domain every query answers for the set of its values, and every
narrowing, whatever the integers it is given, ends in one of three ways, according to what it is to leave. -/
theorem narrowing_exact (hy : m.vars[x.index]? = some y) (h : y.domain.WellFormed m.store) (μ : Mutation)
    (cause : Cause) : m.Answers x ∧ ∃ r, m.apply x μ cause = .ok r ∧ Narrowing m x y μ cause r := by
  refine ⟨answers_of_wellFormed hy h, ?_⟩
  obtain ⟨⟨update, t⟩, hrun, hout⟩ := h.apply_spec μ
  obtain ⟨name, store, vars, events, generated⟩ := m
  have hy' : vars[x.index]? = some y := hy
  have hrun' : y.domain.apply store μ = .ok (update, t) := hrun
  simp only [apply, hy', hrun']
  cases hout with
  | emptied hn => exact ⟨_, rfl, .refused fun v hv => hn v ((target_iff hy).mp hv)⟩
  | unchanged ha =>
    exact ⟨_, rfl, .idle ⟨_, (has_iff hy).mpr h.has_lb⟩ fun v hv => (target_iff hy).mpr (ha v ((has_iff hy).mp hv))⟩
  | changed hw hwf hhas hlost =>
    obtain ⟨v, hv, hn⟩ := hlost
    have htarget : ∀ v, y.domain.Has t v ↔ (Model.mk name store vars events generated).Target x μ v :=
      fun v => (hhas v).trans (target_iff hy).symm
    exact ⟨_, rfl, .narrowed ⟨_, (htarget _).mp hwf.has_lb⟩
      ⟨v, (has_iff hy).mpr hv, fun hc => hn ((target_iff hy).mp hc)⟩ hwf htarget (lb_eq hy) (ub_eq hy) rfl rfl
      fun c hc => hw.get?_eq hc⟩

/-- The middle of three values is removed. -/
theorem narrowing_exact_of_three : ∃ m x y, m.vars[x.index]? = some y ∧ y.domain.WellFormed m.store ∧
    m.Answers x ∧ ∃ r, m.apply x (.remove 1) .unknown = .ok r ∧ Narrowing m x y (.remove 1) .unknown r := by
  obtain ⟨m, hm⟩ : ∃ m, (Model.mk "three" {} #[] #[] 0).newEnumerated "x" 0 2 = .ok (⟨0⟩, m) := ⟨_, rfl⟩
  have hhistory : History [⟨0, fun v => 0 ≤ v ∧ v ≤ 2, true⟩] m :=
    .create (.start "three") (.newEnumerated (by decide) (by decide) (by decide) hm)
  obtain ⟨y, hy, hlives⟩ := hhistory.exists_lives (x := ⟨0⟩) rfl
  have hwell := hlives.sound 0 m.store rfl (.inr ⟨rfl, hlives.born⟩)
  exact ⟨m, ⟨0⟩, y, hy, hwell, narrowing_exact hy hwell (.remove 1) .unknown⟩

end Model

end FiniteDomain
