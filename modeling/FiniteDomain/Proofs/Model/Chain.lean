import FiniteDomain.Proofs.Domain.Sheltered
import FiniteDomain.Proofs.Model.Edits

/-!
# Chains of narrowings

All that a propagator does to a model is a chain of narrowings in its own name. It writes cells of domains only,
whether the domains are well-formed or not.
-/

namespace FiniteDomain

namespace Model

/-- Narrowings with one cause lead from the model to the other. -/
inductive Chain (cause : Cause) (m : Model) : Model → Prop
  | refl : Chain cause m m
  | step {m' m'' : Model} {x : VarId} {μ : Mutation} {result : Except Contradiction Bool} (h : Chain cause m m')
      (ha : m'.apply x μ cause = .ok (result, m'')) : Chain cause m m''

/-- The second model came about from the first by writes to cells of the set. -/
structure Rewrites (P : Nat → Prop) (m m' : Model) : Prop where
  frame : m' = { m with store := m'.store, events := m'.events }
  writes : Store.Writes P m.store m'.store

variable {m m' m'' : Model} {P Q : Nat → Prop} {cause : Cause}

namespace Rewrites

theorem refl (m : Model) : Rewrites P m m := ⟨rfl, .refl⟩

theorem trans (h1 : Rewrites P m m') (h2 : Rewrites P m' m'') : Rewrites P m m'' :=
  ⟨by rw [h2.frame, h1.frame], h1.writes.trans h2.writes⟩

theorem mono (h : Rewrites P m m') (hPQ : ∀ c, P c → Q c) : Rewrites Q m m' := ⟨h.frame, h.writes.mono hPQ⟩

theorem vars_eq (h : Rewrites P m m') : m'.vars = m.vars := by rw [h.frame]

theorem owns_iff (h : Rewrites P m m') (c : Nat) : m'.Owns c ↔ m.Owns c := by rw [Owns, Owns, h.vars_eq]

theorem clearEvents (m : Model) : Rewrites P m m.clearEvents := ⟨rfl, .refl⟩

theorem setCell {cell : Nat} (h : P cell) (value : Datum) : Rewrites P m (m.setCell cell value) := ⟨rfl, .one h value⟩

/-- If the writes keep to domains and to cells that nothing is said of, this is an edit. -/
theorem edited (h : Rewrites (fun c => P c ∨ m.Owns c) m m') (hm : m.Separate) : Edited P m m' := by
  rw [h.frame]
  exact hm.keep (.writes .refl (h.writes.mono fun c hc => hc.imp_right .inl)) m'.events m.generated

end Rewrites

/-- The cells of the domains of some variables. -/
def OwnsIn (m : Model) (l : List VarId) (c : Nat) : Prop :=
  ∃ x ∈ l, ∃ y, m.vars[x.index]? = some y ∧ y.domain.Owns c

theorem OwnsIn.owns {l : List VarId} {c : Nat} (h : m.OwnsIn l c) : m.Owns c := by
  obtain ⟨x, -, y, hy, hc⟩ := h
  exact ⟨x.index, y, hy, hc⟩

theorem Rewrites.trans_owns {l : List VarId} (h1 : Rewrites (m.OwnsIn l) m m') (h2 : Rewrites (m'.OwnsIn l) m' m'') :
    Rewrites (m.OwnsIn l) m m'' := by
  refine h1.trans (h2.mono ?_)
  rintro c ⟨x, hx, y, hy, hc⟩
  exact ⟨x, hx, y, h1.vars_eq ▸ hy, hc⟩

/-- A narrowing writes to cells of its variable only. -/
theorem apply_confined {l : List VarId} {x : VarId} (hx : x ∈ l) {μ : Mutation} {result : Except Contradiction Bool}
    (h : m.apply x μ cause = .ok (result, m')) : Rewrites (m.OwnsIn l) m m' := by
  obtain ⟨y, u, t, events, hy, ht, rfl⟩ := exists_of_apply h
  exact ⟨rfl, (Domain.confined_apply y.domain m.store μ u t ht).mono fun c hc => ⟨x, hx, y, hy, hc⟩⟩

theorem apply_rewrites {x : VarId} {μ : Mutation} {result : Except Contradiction Bool}
    (h : m.apply x μ cause = .ok (result, m')) : Rewrites m.Owns m m' :=
  (apply_confined List.mem_cons_self h).mono fun _ hc => hc.owns (l := [x])

namespace Chain

theorem one {x : VarId} {μ : Mutation} {result : Except Contradiction Bool}
    (h : m.apply x μ cause = .ok (result, m')) : Chain cause m m' := .step .refl h

theorem trans (h1 : Chain cause m m') (h2 : Chain cause m' m'') : Chain cause m m'' := by
  induction h2 with
  | refl => exact h1
  | step _ ha ih => exact .step ih ha

theorem rewrites (h : Chain cause m m') : Rewrites m.Owns m m' := by
  induction h with
  | refl => exact .refl m
  | step _ ha ih => exact ih.trans ((apply_rewrites ha).mono fun c => (ih.owns_iff c).mp)

end Chain

/-! ### Queries -/

/-- Queries look at no cells but those of the domain. -/
theorem queries_congr_of {m m' : Model} (hvars : m'.vars = m.vars) {x : VarId}
    (hget : ∀ c, m.OwnsIn [x] c → m'.store.get? c = m.store.get? c) :
    m'.extent x = m.extent x ∧ ∀ v, m'.contains x v = m.contains x v := by
  cases hy : m.vars[x.index]? with
  | none => simp [extent, contains, domain, variableOf, hvars, hy]
  | some y =>
    have hget : ∀ c, y.domain.Owns c → m'.store.get? c = m.store.get? c := fun c hc =>
      hget c ⟨x, List.mem_cons_self, y, hy, hc⟩
    have hy' : m'.vars[x.index]? = some y := hvars ▸ hy
    refine ⟨?_, fun v => ?_⟩
    · rw [extent, extent, domain_eq_ok hy, domain_eq_ok hy']
      exact congrArg Except.ok (Domain.extent_congr hget)
    · rw [contains, contains, domain_eq_ok hy, domain_eq_ok hy']
      exact Domain.contains_congr hget v

theorem queries_congr {m m' : Model} (hvars : m'.vars = m.vars)
    (hget : ∀ c, m.Owns c → m'.store.get? c = m.store.get? c) (x : VarId) :
    m'.extent x = m.extent x ∧ ∀ v, m'.contains x v = m.contains x v :=
  queries_congr_of hvars fun c hc => hget c hc.owns

/-- The domains of all other variables are as they were. -/
theorem Rewrites.other {l : List VarId} (h : Rewrites (m.OwnsIn l) m m') (hw : m.WellFormed) {x : VarId} (hx : x ∉ l) :
    m'.extent x = m.extent x ∧ ∀ v, m'.contains x v = m.contains x v := by
  refine queries_congr_of h.vars_eq fun c hc => h.writes.get?_eq fun hin => hx ?_
  obtain ⟨x', hx', y, hy, hc⟩ := hc
  obtain ⟨z, hz, w, hw', hc'⟩ := hin
  rw [List.mem_singleton] at hx'
  have hindex := hw.apart _ _ y w c hy hw' hc hc'
  rw [hx'] at hindex
  have heq : x = z := congrArg VarId.mk hindex
  rwa [heq]

/-! ### Faults -/

open Sheltered

variable (m : Model) (x : VarId)

theorem sheltered_variableOf : Sheltered (m.variableOf x) := by
  rw [variableOf]
  split
  · exact ok _
  · exact error not_false

theorem sheltered_varName : Sheltered (m.varName x) := bind (m.sheltered_variableOf x) fun _ => ok _

theorem sheltered_domain : Sheltered (m.domain x) := bind (m.sheltered_variableOf x) fun _ => ok _

theorem sheltered_lb : Sheltered (m.lb x) := bind (m.sheltered_domain x) fun _ => ok _

theorem sheltered_ub : Sheltered (m.ub x) := bind (m.sheltered_domain x) fun _ => ok _

theorem sheltered_size : Sheltered (m.size x) := bind (m.sheltered_domain x) fun _ => ok _

theorem sheltered_extent : Sheltered (m.extent x) := bind (m.sheltered_domain x) fun _ => ok _

theorem sheltered_isInstantiated : Sheltered (m.isInstantiated x) := bind (m.sheltered_domain x) fun _ => ok _

theorem sheltered_isEnumerated : Sheltered (m.isEnumerated x) := bind (m.sheltered_domain x) fun _ => ok _

theorem sheltered_value? : Sheltered (m.value? x) := bind (m.sheltered_domain x) fun _ => ok _

theorem sheltered_contains (v : Int) : Sheltered (m.contains x v) :=
  bind (m.sheltered_domain x) fun d => d.sheltered_contains m.store v

theorem sheltered_next? (v : Int) : Sheltered (m.next? x v) :=
  bind (m.sheltered_domain x) fun d => d.sheltered_next? m.store v

theorem sheltered_previous? (v : Int) : Sheltered (m.previous? x v) :=
  bind (m.sheltered_domain x) fun d => d.sheltered_previous? m.store v

theorem sheltered_values : Sheltered (m.values x) := bind (m.sheltered_domain x) fun d => d.sheltered_values m.store

/-- A narrowing of any variable in any model. -/
theorem narrow_gives (μ : Mutation) (cause : Cause) :
    @Activity.Gives _ .worldly (m.narrow x μ cause) fun r => m.apply x μ cause = .ok r := by
  let := Tolerance.worldly
  have happly : Meets (m.apply x μ cause) fun r => m.apply x μ cause = .ok r := by
    refine ⟨fun _ h => h, fun fault hfault => ?_⟩
    rw [apply] at hfault
    split at hfault
    · cases hfault
      exact not_false
    · rename_i y _
      split at hfault
      · rename_i h
        cases hfault
        exact (y.domain.sheltered_apply m.store μ).2 fault h
      all_goals cases hfault
  refine .bind (.question happly) fun r hr => ?_
  refine .bind (.question (r.2.sheltered_varName x)) fun name _ => ?_
  split
  · exact .bind (.report _) fun _ _ => .pure hr
  · exact .pure hr

end Model

end FiniteDomain
