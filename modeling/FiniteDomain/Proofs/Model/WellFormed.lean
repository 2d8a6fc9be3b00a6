import FiniteDomain.Model.Basic
import FiniteDomain.Constraint.Relation
import FiniteDomain.Proofs.Domain.Removal
import Mathlib.Data.Int.Interval
import Mathlib.Data.Set.Card

/-!
# Well-formed models

A model is *well-formed* if its domains are and no two of them share a cell. An assignment is *allowed* if each
variable has its value. What a narrowing by some causes does to a model is summed up in `Narrows`: it is
transitive, it only takes values away, and each variable that it fixes has an event that says so. No event comes
for nothing: each took a value away from its variable.

* `lb_spec`, `ub_spec`, `value?_spec` and so on: the queries;
* `count_lt`, `spare_lt`: domains that lost a value;
* `apply_spec`: one narrowing.
-/

namespace FiniteDomain

namespace Model

/-- The domain of the variable contains the value. -/
def Has (m : Model) (x : VarId) (v : Int) : Prop := m.contains x v = .ok true

/-- Each variable of the model has the value that is assigned to it. -/
def Allows (m : Model) (a : Assignment) : Prop := ∀ x, m.owns x = true → m.Has x (a x)

/-- The variable has one value left. -/
def Fixed (m : Model) (x : VarId) : Prop := m.isInstantiated x = .ok true

/-- The cell belongs to a domain of the model. -/
def Owns (m : Model) (c : Nat) : Prop := ∃ (i : Nat) (y : Variable), m.vars[i]? = some y ∧ y.domain.Owns c

structure WellFormed (m : Model) : Prop where
  linked : m.store.Linked
  domains : ∀ (i : Nat) (y : Variable), m.vars[i]? = some y → y.domain.WellFormed m.store
  apart : ∀ (i j : Nat) (y z : Variable) (c : Nat), m.vars[i]? = some y → m.vars[j]? = some z →
    y.domain.Owns c → z.domain.Owns c → i = j

/-! ### Variables -/

theorem owns_iff {m : Model} {x : VarId} : m.owns x = true ↔ ∃ y, m.vars[x.index]? = some y := by
  simp only [owns, decide_eq_true_eq]
  constructor
  · exact fun h => ⟨_, Array.getElem?_eq_getElem h⟩
  · rintro ⟨y, hy⟩
    exact (Array.getElem?_eq_some_iff.mp hy).1

theorem domain_eq_ok {m : Model} {x : VarId} {y : Variable} (h : m.vars[x.index]? = some y) :
    m.domain x = .ok y.domain := by
  simp only [domain, variableOf, h]
  rfl

theorem owns_of_domain_eq_ok {m : Model} {x : VarId} {d : Domain} (h : m.domain x = .ok d) : m.owns x = true := by
  rw [owns_iff]
  cases hy : m.vars[x.index]? with
  | some y => exact ⟨y, rfl⟩
  | none =>
    simp only [domain, variableOf, hy] at h
    cases h

section Queries

variable {m : Model} {x : VarId} {y : Variable} (h : m.vars[x.index]? = some y)

include h

theorem varName_eq : m.varName x = .ok y.name := by
  simp only [varName, variableOf, h]
  rfl

theorem lb_eq : m.lb x = .ok (y.domain.lb m.store) := by simp only [lb, domain_eq_ok h]; rfl

theorem ub_eq : m.ub x = .ok (y.domain.ub m.store) := by simp only [ub, domain_eq_ok h]; rfl

theorem size_eq : m.size x = .ok (y.domain.size m.store) := by simp only [size, domain_eq_ok h]; rfl

theorem contains_eq (v : Int) : m.contains x v = y.domain.contains m.store v := by
  simp only [contains, domain_eq_ok h]
  rfl

theorem isInstantiated_eq : m.isInstantiated x = .ok (y.domain.isInstantiated m.store) := by
  simp only [isInstantiated, domain_eq_ok h]
  rfl

theorem isEnumerated_eq : m.isEnumerated x = .ok y.domain.isEnumerated := by
  simp only [isEnumerated, domain_eq_ok h]
  rfl

theorem value?_eq : m.value? x = .ok (y.domain.value? m.store) := by
  simp only [value?, domain_eq_ok h]
  rfl

theorem has_iff {v : Int} : m.Has x v ↔ y.domain.Has m.store v := by rw [Has, contains_eq h, Domain.Has]

theorem fixed_iff : m.Fixed x ↔ y.domain.lb m.store = y.domain.ub m.store := by
  rw [Fixed, isInstantiated_eq h, Domain.isInstantiated]
  simp

end Queries

theorem Has.owns {m : Model} {x : VarId} {v : Int} (h : m.Has x v) : m.owns x = true := by
  rw [owns_iff]
  cases hy : m.vars[x.index]? with
  | some y => exact ⟨y, rfl⟩
  | none =>
    simp only [Has, contains, domain, variableOf, hy] at h
    cases h

theorem Fixed.owns {m : Model} {x : VarId} (h : m.Fixed x) : m.owns x = true := by
  rw [owns_iff]
  cases hy : m.vars[x.index]? with
  | some y => exact ⟨y, rfl⟩
  | none =>
    simp only [Fixed, isInstantiated, domain, variableOf, hy] at h
    cases h

theorem isInstantiated_spec {m : Model} {x : VarId} (hx : m.owns x = true) :
    ∃ b, m.isInstantiated x = .ok b ∧ (b = true ↔ m.Fixed x) := by
  obtain ⟨y, hy⟩ := owns_iff.mp hx
  refine ⟨_, isInstantiated_eq hy, ?_⟩
  rw [Fixed, isInstantiated_eq hy]
  simp

/-- Whether a variable admits holes is settled at its creation. -/
theorem isEnumerated_congr {m m' : Model} (h : m'.vars = m.vars) (x : VarId) : m'.isEnumerated x = m.isEnumerated x := by
  rw [isEnumerated, isEnumerated, domain, domain, variableOf, variableOf, h]

theorem owns_of_isEnumerated {m : Model} {x : VarId} {b : Bool} (h : m.isEnumerated x = .ok b) : m.owns x = true := by
  obtain ⟨d, hd, -⟩ := bind_eq_ok.mp h
  exact owns_of_domain_eq_ok hd

theorem exists_isEnumerated {m : Model} {x : VarId} (hx : m.owns x = true) : ∃ b, m.isEnumerated x = .ok b := by
  obtain ⟨y, hy⟩ := owns_iff.mp hx
  exact ⟨_, isEnumerated_eq hy⟩

/-! ### Queries of a well-formed model -/

namespace WellFormed

variable {m : Model} (h : m.WellFormed) {x : VarId} (hx : m.owns x = true)

include h hx

theorem lb_spec : ∃ l, m.lb x = .ok l ∧ m.Has x l ∧ ∀ v, m.Has x v → l ≤ v := by
  obtain ⟨y, hy⟩ := owns_iff.mp hx
  have hd := h.domains _ y hy
  refine ⟨_, lb_eq hy, (has_iff hy).mpr hd.has_lb, ?_⟩
  exact fun v hv => hd.lb_le ((has_iff hy).mp hv)

theorem ub_spec : ∃ u, m.ub x = .ok u ∧ m.Has x u ∧ ∀ v, m.Has x v → v ≤ u := by
  obtain ⟨y, hy⟩ := owns_iff.mp hx
  have hd := h.domains _ y hy
  refine ⟨_, ub_eq hy, (has_iff hy).mpr hd.has_ub, ?_⟩
  exact fun v hv => hd.le_ub ((has_iff hy).mp hv)

theorem contains_spec (v : Int) : ∃ b, m.contains x v = .ok b ∧ (b = true ↔ m.Has x v) := by
  obtain ⟨y, hy⟩ := owns_iff.mp hx
  obtain ⟨b, hb⟩ := Domain.exists_contains (h.domains _ y hy).shaped m.store v
  refine ⟨b, (contains_eq hy v).trans hb, ?_⟩
  rw [has_iff hy, Domain.Has, hb]
  simp

theorem value?_spec : ∃ r, m.value? x = .ok r ∧ (∀ v, r = some v → m.Fixed x ∧ ∀ w, m.Has x w ↔ w = v) ∧
    (r = none → ¬m.Fixed x) := by
  obtain ⟨y, hy⟩ := owns_iff.mp hx
  have hd := h.domains _ y hy
  refine ⟨_, value?_eq hy, ?_, ?_⟩
  · intro v hv
    rw [Domain.value?, Domain.isInstantiated] at hv
    by_cases heq : y.domain.lb m.store = y.domain.ub m.store
    · rw [if_pos (by simpa using heq)] at hv
      cases hv
      exact ⟨(fixed_iff hy).mpr heq, fun w => (has_iff hy).trans (hd.has_iff_of_fixed heq)⟩
    · rw [if_neg (by simpa using heq)] at hv
      cases hv
  · intro hn hf
    have heq := (fixed_iff hy).mp hf
    simp [Domain.value?, Domain.isInstantiated, heq] at hn

theorem next?_spec {v : Int} (hv : Value.Fits v) :
    ∃ r, m.next? x v = .ok r ∧ LeastOf (fun w => m.Has x w ∧ v < w) r := by
  obtain ⟨y, hy⟩ := owns_iff.mp hx
  obtain ⟨r, hr, hleast⟩ := (h.domains _ y hy).next?_spec (v := v) (fun _ => hv)
  refine ⟨r, by simp only [next?, domain_eq_ok hy, ok_bind, hr], ?_⟩
  simpa only [has_iff hy] using hleast

theorem previous?_spec {v : Int} (hv : Value.Fits v) :
    ∃ r, m.previous? x v = .ok r ∧ GreatestOf (fun w => m.Has x w ∧ w < v) r := by
  obtain ⟨y, hy⟩ := owns_iff.mp hx
  obtain ⟨r, hr, hgreatest⟩ := (h.domains _ y hy).previous?_spec (v := v) (fun _ => hv)
  refine ⟨r, by simp only [previous?, domain_eq_ok hy, ok_bind, hr], ?_⟩
  simpa only [has_iff hy] using hgreatest

theorem values_spec : ∃ vs, m.values x = .ok vs ∧ vs.toList.Pairwise (· < ·) ∧ ∀ w, w ∈ vs ↔ m.Has x w := by
  obtain ⟨y, hy⟩ := owns_iff.mp hx
  obtain ⟨vs, hvs, hsorted, hmem⟩ := (h.domains _ y hy).values_spec
  refine ⟨vs, by simp only [values, domain_eq_ok hy, ok_bind, hvs], hsorted, ?_⟩
  simpa only [has_iff hy] using hmem

omit hx in
theorem fits {v : Int} (hv : m.Has x v) : Value.Fits v := by
  obtain ⟨y, hy⟩ := owns_iff.mp hv.owns
  exact (h.domains _ y hy).fits ((has_iff hy).mp hv)

omit hx in
/-- A fixed variable has one value. -/
theorem eq_of_fixed (hf : m.Fixed x) {v w : Int} (hv : m.Has x v) (hw : m.Has x w) : v = w := by
  obtain ⟨y, hy⟩ := owns_iff.mp hf.owns
  have heq := (fixed_iff hy).mp hf
  have hd := h.domains _ y hy
  rw [((hd.has_iff_of_fixed heq).mp ((has_iff hy).mp hv)), ((hd.has_iff_of_fixed heq).mp ((has_iff hy).mp hw))]

theorem exists_has : ∃ v, m.Has x v := by
  obtain ⟨l, -, hl, -⟩ := h.lb_spec hx
  exact ⟨l, hl⟩

/-- A variable with one value is fixed. -/
theorem fixed_of_unique {v : Int} (hv : ∀ w, m.Has x w → w = v) : m.Fixed x := by
  obtain ⟨y, hy⟩ := owns_iff.mp hx
  have hd := h.domains _ y hy
  rw [fixed_iff hy, hv _ ((has_iff hy).mpr hd.has_lb), hv _ ((has_iff hy).mpr hd.has_ub)]

end WellFormed

section Bounds

variable {m : Model} (hw : m.WellFormed) {x : VarId} {v : Int}

include hw

/-- A bound is a value. -/
theorem WellFormed.has_of_bound (hv : m.lb x = .ok v ∨ m.ub x = .ok v) : m.Has x v := by
  rcases hv with hv | hv
  · obtain ⟨d, hd, -⟩ := bind_eq_ok.mp hv
    obtain ⟨l, hl, hhas, -⟩ := hw.lb_spec (owns_of_domain_eq_ok hd)
    cases hl.symm.trans hv
    exact hhas
  · obtain ⟨d, hd, -⟩ := bind_eq_ok.mp hv
    obtain ⟨u, hu, hhas, -⟩ := hw.ub_spec (owns_of_domain_eq_ok hd)
    cases hu.symm.trans hv
    exact hhas

theorem WellFormed.le_of_lb {l : Int} (hl : m.lb x = .ok l) (hv : m.Has x v) : l ≤ v := by
  obtain ⟨l', hl', -, hle⟩ := hw.lb_spec hv.owns
  cases hl'.symm.trans hl
  exact hle v hv

theorem WellFormed.le_of_ub {u : Int} (hu : m.ub x = .ok u) (hv : m.Has x v) : v ≤ u := by
  obtain ⟨u', hu', -, hle⟩ := hw.ub_spec hv.owns
  cases hu'.symm.trans hu
  exact hle v hv

theorem WellFormed.lb_of_fixed (hf : m.Fixed x) (hv : m.Has x v) : m.lb x = .ok v := by
  obtain ⟨l, hl, hhas, -⟩ := hw.lb_spec hf.owns
  rw [hl, hw.eq_of_fixed hf hhas hv]

theorem WellFormed.value?_of_fixed (hf : m.Fixed x) (hv : m.Has x v) : m.value? x = .ok (some v) := by
  obtain ⟨r, hr, hsome, hnone⟩ := hw.value?_spec hf.owns
  cases r with
  | none => exact absurd hf (hnone rfl)
  | some w => rw [hr, ((hsome w rfl).2 v).mp hv]

theorem WellFormed.fixed_of_value? (hv : m.value? x = .ok (some v)) : m.Fixed x ∧ ∀ w, m.Has x w ↔ w = v := by
  obtain ⟨d, hd, -⟩ := bind_eq_ok.mp hv
  obtain ⟨r, hr, hsome, -⟩ := hw.value?_spec (owns_of_domain_eq_ok hd)
  cases hr.symm.trans hv
  exact hsome v rfl

theorem WellFormed.ub_of_fixed (hf : m.Fixed x) (hv : m.Has x v) : m.ub x = .ok v := by
  obtain ⟨u, hu, hhas, -⟩ := hw.ub_spec hf.owns
  rw [hu, hw.eq_of_fixed hf hhas hv]

end Bounds

/-- Each variable of a well-formed model has some value. -/
theorem WellFormed.exists_allows {m : Model} (h : m.WellFormed) : ∃ a, m.Allows a := by
  have hx : ∀ x, ∃ v, m.owns x = true → m.Has x v := by
    intro x
    by_cases hx : m.owns x = true
    · obtain ⟨v, hv⟩ := h.exists_has hx
      exact ⟨v, fun _ => hv⟩
    · exact ⟨0, fun hc => absurd hc hx⟩
  exact ⟨fun x => Classical.choose (hx x), fun x => Classical.choose_spec (hx x)⟩

/-- Each value of a variable is that of some assignment. -/
theorem WellFormed.exists_allows_eq {m : Model} (hw : m.WellFormed) {x : VarId} {v : Int} (hv : m.Has x v) :
    ∃ a, m.Allows a ∧ a x = v := by
  obtain ⟨a, ha⟩ := hw.exists_allows
  refine ⟨fun y => if y = x then v else a y, fun y hy => ?_, if_pos rfl⟩
  dsimp only
  by_cases hyx : y = x
  · subst hyx
    rwa [if_pos rfl]
  · rw [if_neg hyx]
    exact ha y hy

/-! ### Counting -/

/-- The number of values that a variable has left. -/
noncomputable def count (m : Model) (x : VarId) : Nat := {v | m.Has x v}.ncard

/-- The number of changes of a variable that are still to be looked at. -/
def changes (m : Model) (x : VarId) : Nat := m.events.toList.countP fun e => e.var = x

/-- The number of values that some variables can lose. -/
noncomputable def spare (m : Model) (l : List VarId) : Nat := l.foldr (fun x n => (m.count x - 1) + n) 0

section Counting

variable {m m' : Model} {x : VarId}

theorem finite_has (m : Model) (x : VarId) : {v | m.Has x v}.Finite := by
  cases hx : m.vars[x.index]? with
  | none =>
    have hempty : {v | m.Has x v} = ∅ := by
      refine Set.eq_empty_of_forall_notMem fun v hv => ?_
      obtain ⟨y, hy⟩ := owns_iff.mp (Has.owns hv)
      rw [hx] at hy
      cases hy
    rw [hempty]
    exact Set.finite_empty
  | some y =>
    refine (Set.finite_Icc (y.domain.lb m.store) (y.domain.ub m.store)).subset fun v hv => ?_
    exact ((has_iff hx).mp hv).within

theorem count_le (h : ∀ v, m'.Has x v → m.Has x v) : m'.count x ≤ m.count x :=
  Set.ncard_le_ncard h (m.finite_has x)

/-- Where a value went there are fewer. -/
theorem count_lt (h : ∀ v, m'.Has x v → m.Has x v) {v : Int} (hv : m.Has x v) (hn : ¬m'.Has x v) :
    m'.count x < m.count x :=
  Set.ncard_lt_ncard ⟨h, fun hc => hn (hc hv)⟩ (m.finite_has x)

theorem WellFormed.count_pos (h : m.WellFormed) (hx : m.owns x = true) : 0 < m.count x := by
  obtain ⟨v, hv⟩ := h.exists_has hx
  exact (Set.ncard_pos (m.finite_has x)).mpr ⟨v, hv⟩

/-- There are no more values than two bounds leave room for. -/
theorem count_le_span {l u : Int} (hl : ∀ v, m.Has x v → l ≤ v) (hu : ∀ v, m.Has x v → v ≤ u) :
    m.count x ≤ (u - l + 1).toNat := by
  have hsub : {v | m.Has x v} ⊆ ↑(Finset.Icc l u) := by
    intro v hv
    rw [Finset.coe_Icc]
    exact ⟨hl v hv, hu v hv⟩
  refine (Set.ncard_le_ncard hsub (Finset.finite_toSet _)).trans ?_
  rw [Set.ncard_coe_finset, Int.card_Icc]
  omega

theorem spare_le (h : ∀ x, m'.count x ≤ m.count x) (l : List VarId) : m'.spare l ≤ m.spare l := by
  induction l with
  | nil => exact Nat.zero_le _
  | cons x rest ih =>
    exact Nat.add_le_add (Nat.sub_le_sub_right (h x) 1) ih

/-- Where a variable of the list lost a value, and one is left. -/
theorem spare_lt (h : ∀ x, m'.count x ≤ m.count x) {l : List VarId} (hx : x ∈ l) (hpos : 0 < m'.count x)
    (hlt : m'.count x < m.count x) : m'.spare l < m.spare l := by
  induction l with
  | nil => cases hx
  | cons z rest ih =>
    have hz := h z
    have hrest := spare_le h rest
    simp only [spare, List.foldr_cons] at ih hrest ⊢
    rcases List.mem_cons.mp hx with rfl | hx
    · omega
    · have := ih hx
      omega

end Counting

/-! ### Narrowing -/

/-- The values that a mutation of the domain of a variable is to leave. -/
def Target (m : Model) (x : VarId) (μ : Mutation) (v : Int) : Prop :=
  ∃ y : Variable, m.vars[x.index]? = some y ∧ y.domain.Target m.store μ v

theorem target_iff {m : Model} {x : VarId} {y : Variable} (h : m.vars[x.index]? = some y) {μ : Mutation}
    {v : Int} : m.Target x μ v ↔ y.domain.Target m.store μ v := by
  constructor
  · rintro ⟨z, hz, ht⟩
    cases h.symm.trans hz
    exact ht
  · exact fun ht => ⟨y, h, ht⟩

/-- What the mutation keeps of a domain is in its target. -/
theorem target_of_keeps {m : Model} {x : VarId} {μ : Mutation} {v : Int} (hv : m.Has x v) (hk : μ.Keeps v) :
    m.Target x μ v := by
  obtain ⟨y, hy⟩ := owns_iff.mp hv.owns
  exact ⟨y, hy, (has_iff hy).mp hv, .inl hk⟩

/-- A mutation that takes nothing out of the middle leaves what it keeps. -/
theorem Target.keeps {m : Model} {x : VarId} {μ : Mutation} {v : Int} (h : m.Target x μ v)
    (hμ : ¬μ.Removes) : μ.Keeps v := by
  obtain ⟨y, -, ht⟩ := h
  exact ((Domain.target_iff_of_not_removes hμ).mp ht).2

/-- Nothing is spared where holes are admitted. -/
theorem Target.keeps_of_enumerated {m : Model} {x : VarId} {μ : Mutation} {v : Int} (h : m.Target x μ v)
    (henum : m.isEnumerated x = .ok true) : μ.Keeps v := by
  obtain ⟨y, hy, ht⟩ := h
  rw [isEnumerated_eq hy, Domain.isEnumerated, Except.ok.injEq] at henum
  obtain ⟨m, hm⟩ := Option.isSome_iff_exists.mp henum
  exact ((Domain.target_iff_of_members hm).mp ht).2

/-- A removal takes the value from a variable that admits holes. -/
theorem not_target_remove {m : Model} {x : VarId} {v : Int} (henum : m.isEnumerated x = .ok true) :
    ¬m.Target x (.remove v) v := fun h => h.keeps_of_enumerated henum rfl

/-- The second model came about from the first by narrowings, each by one of the causes. -/
structure Narrows (p : Cause → Prop) (m m' : Model) : Prop where
  frame : m' = { m with store := m'.store, events := m'.events }
  writes : Store.Writes m.Owns m.store m'.store
  wellFormed : m'.WellFormed
  has : ∀ x v, m'.Has x v → m.Has x v
  spends : ∀ x, m'.changes x + m'.count x ≤ m.changes x + m.count x
  events : ∃ new : List Event, m'.events.toList = m.events.toList ++ new ∧ (∀ e ∈ new, p e.cause) ∧
    ∀ x, m'.Fixed x → ¬m.Fixed x → ∃ e ∈ new, e.var = x ∧ e.kind = .instantiate

namespace Narrows

variable {p q : Cause → Prop} {m m' m'' : Model}

theorem vars_eq (h : Narrows p m m') : m'.vars = m.vars := by rw [h.frame]

theorem owns_eq (h : Narrows p m m') (x : VarId) : m'.owns x = m.owns x := by rw [owns, owns, h.vars_eq]

theorem refl (h : m.WellFormed) : Narrows p m m :=
  ⟨rfl, .refl, h, fun _ _ hv => hv, fun _ => Nat.le_refl _, [], by simp, by simp, fun _ h1 h2 => absurd h1 h2⟩

theorem trans (h1 : Narrows p m m') (h2 : Narrows p m' m'') : Narrows p m m'' := by
  have howns : ∀ c, m'.Owns c → m.Owns c := by
    rintro c ⟨i, y, hy, hc⟩
    exact ⟨i, y, h1.vars_eq ▸ hy, hc⟩
  obtain ⟨new1, he1, hc1, hf1⟩ := h1.events
  obtain ⟨new2, he2, hc2, hf2⟩ := h2.events
  refine ⟨?_, h1.writes.trans (h2.writes.mono howns), h2.wellFormed, ?_, ?_, new1 ++ new2, ?_, ?_, ?_⟩
  · rw [h2.frame, h1.frame]
  · exact fun x v hv => h1.has x v (h2.has x v hv)
  · exact fun x => (h2.spends x).trans (h1.spends x)
  · rw [he2, he1, List.append_assoc]
  · intro e he
    rcases List.mem_append.mp he with he | he
    · exact hc1 e he
    · exact hc2 e he
  · intro x hx hn
    by_cases hx' : m'.Fixed x
    · obtain ⟨e, he, hev⟩ := hf1 x hx' hn
      exact ⟨e, List.mem_append_left _ he, hev⟩
    · obtain ⟨e, he, hev⟩ := hf2 x hx hx'
      exact ⟨e, List.mem_append_right _ he, hev⟩

theorem allows (h : Narrows p m m') {a : Assignment} (ha : m'.Allows a) : m.Allows a := by
  intro x hx
  exact h.has x _ (ha x (by rw [h.owns_eq]; exact hx))

end Narrows

/-- The second model came about from the first by a mutation of one domain. -/
structure Narrowed (x : VarId) (μ : Mutation) (cause : Cause) (m : Model) (changed : Bool) (m' : Model) : Prop where
  narrows : Narrows (· = cause) m m'
  has_iff : ∀ v, m'.Has x v ↔ m.Target x μ v
  other : ∀ z, z ≠ x → ∀ v, m'.Has z v ↔ m.Has z v
  unchanged : changed = false → m' = m
  changed : changed = true → ∃ v, m.Has x v ∧ ¬m.Target x μ v

/-- The model after a domain was written to and an event queued that tells of it. -/
def tell (m : Model) (t : Store Datum) (e : Event) : Model := { m with store := t, events := m.events.push e }

theorem apply_eq {m : Model} {x : VarId} {y : Variable} (hy : m.vars[x.index]? = some y) (μ : Mutation) (cause : Cause)
    {u : Update} {t : Store Datum} (hrun : y.domain.apply m.store μ = .ok (u, t)) :
    m.apply x μ cause = match u with
      | .emptied => .ok (.error ⟨.emptyDomain x, cause⟩, { m with store := t })
      | .unchanged => .ok (.ok false, { m with store := t })
      | .changed kind => .ok (.ok true, m.tell t ⟨x, kind, cause⟩) := by
  obtain ⟨name, store, vars, events, generated⟩ := m
  have hy' : vars[x.index]? = some y := hy
  have hrun' : y.domain.apply store μ = .ok (u, t) := hrun
  simp only [apply, hy', hrun']
  cases u <;> rfl

section Tell

variable {m : Model} (h : m.WellFormed) {x : VarId} {y : Variable} (hy : m.vars[x.index]? = some y)
  {t : Store Datum} (hw : Store.Writes y.domain.Owns m.store t) (e : Event)

include h hy hw

/-- A write to one domain leaves the cells of the others. -/
theorem WellFormed.get?_of_writes {i : Nat} {z : Variable} (hz : m.vars[i]? = some z) (hi : x.index ≠ i) (c : Nat)
    (hc : z.domain.Owns c) : t.get? c = m.store.get? c :=
  hw.get?_eq fun hc' => hi (h.apart x.index i y z c hy hz hc' hc)

theorem wellFormed_tell (hd : y.domain.WellFormed t) : (m.tell t e).WellFormed := by
  refine ⟨hw.linked h.linked, fun i z hz => ?_, h.apart⟩
  by_cases hi : x.index = i
  · subst hi
    cases hy.symm.trans hz
    exact hd
  · exact (h.domains i z hz).congr (h.get?_of_writes hy hw hz hi) (Nat.le_of_eq hw.size_eq.symm)

theorem has_tell_of_ne {z : VarId} (hz : z ≠ x) (v : Int) : (m.tell t e).Has z v ↔ m.Has z v := by
  have hi : x.index ≠ z.index := fun heq => hz (congrArg VarId.mk heq.symm)
  have hdomain : ∀ {y'}, m.vars[z.index]? = some y' → ((m.tell t e).Has z v ↔ m.Has z v) := fun hy' =>
    (has_iff (m := m.tell t e) hy').trans
      ((Domain.has_congr (h.get?_of_writes hy hw hy' hi) v).trans (has_iff hy').symm)
  constructor
  · intro hv
    obtain ⟨y', hy'⟩ := owns_iff.mp hv.owns
    exact (hdomain hy').mp hv
  · intro hv
    obtain ⟨y', hy'⟩ := owns_iff.mp hv.owns
    exact (hdomain hy').mpr hv

/-- A variable whose domain was not written to keeps its bounds. -/
theorem fixed_of_fixed_tell {z : VarId} (hz : z ≠ x) (hf : (m.tell t e).Fixed z) : m.Fixed z := by
  have hi : x.index ≠ z.index := fun heq => hz (congrArg VarId.mk heq.symm)
  obtain ⟨y', hy'⟩ : ∃ y', m.vars[z.index]? = some y' := owns_iff.mp hf.owns
  have hget := h.get?_of_writes hy hw hy' hi
  have heq : y'.domain.lb t = y'.domain.ub t := (fixed_iff (m := m.tell t e) hy').mp hf
  rw [Domain.lb_congr hget, Domain.ub_congr hget] at heq
  exact (fixed_iff hy').mpr heq

/-- A domain that lost values narrows the model, if the event says that the variable is fixed when it is. -/
theorem narrows_tell (hd : y.domain.WellFormed t) (hsub : ∀ v, y.domain.Has t v → y.domain.Has m.store v)
    (hlost : ∃ v, y.domain.Has m.store v ∧ ¬y.domain.Has t v) {kind : EventKind}
    (hkind : y.domain.lb t = y.domain.ub t → kind = .instantiate) (cause : Cause) :
    Narrows (· = cause) m (m.tell t ⟨x, kind, cause⟩) := by
  have hself : ∀ v, (m.tell t ⟨x, kind, cause⟩).Has x v ↔ y.domain.Has t v := fun v =>
    has_iff (m := m.tell t ⟨x, kind, cause⟩) hy
  have hhas : ∀ z v, (m.tell t ⟨x, kind, cause⟩).Has z v → m.Has z v := by
    intro z v hv
    by_cases hz : z = x
    · subst hz
      exact (has_iff hy).mpr (hsub v ((hself v).mp hv))
    · exact (has_tell_of_ne h hy hw _ hz v).mp hv
  refine ⟨rfl, hw.mono fun c hc => ⟨_, y, hy, hc⟩, wellFormed_tell h hy hw _ hd, hhas, fun z => ?_, [_],
    Array.toList_push, by simp, fun z hf hn => ⟨_, List.mem_singleton_self _, ?_⟩⟩
  · have hle := count_le (hhas z)
    simp only [changes, tell, Array.toList_push, List.countP_append, List.countP_singleton, decide_eq_true_eq]
    split
    · rename_i hxz
      subst hxz
      obtain ⟨v, hv, hn⟩ := hlost
      have hlt := count_lt (hhas x) ((has_iff hy).mpr hv) fun hc => hn ((hself v).mp hc)
      simp only [tell] at hlt
      omega
    · simp only [tell] at hle
      omega
  · by_cases hz : z = x
    · subst hz
      exact ⟨rfl, hkind ((fixed_iff (m := m.tell t _) hy).mp hf)⟩
    · exact absurd (fixed_of_fixed_tell h hy hw _ hz hf) hn

end Tell

/-- **A narrowing of a well-formed model never faults, and leaves its target.** -/
theorem apply_spec {m : Model} (h : m.WellFormed) {x : VarId} (hx : m.owns x = true) (μ : Mutation)
    (cause : Cause) :
    (m.apply x μ cause = .ok (.error ⟨.emptyDomain x, cause⟩, m) ∧ ∀ v, ¬m.Target x μ v) ∨
      ∃ changed m', m.apply x μ cause = .ok (.ok changed, m') ∧ Narrowed x μ cause m changed m' := by
  obtain ⟨y, hy⟩ := owns_iff.mp hx
  obtain ⟨⟨update, t⟩, hrun, ho⟩ := (h.domains _ y hy).apply_spec μ
  rw [apply_eq hy μ cause hrun]
  cases ho with
  | emptied hn => exact .inl ⟨rfl, fun v hv => hn v ((target_iff hy).mp hv)⟩
  | unchanged ha =>
    refine .inr ⟨false, _, rfl, .refl h, fun v => ?_, fun _ _ _ => Iff.rfl, fun _ => rfl, fun hc => by cases hc⟩
    rw [target_iff hy, has_iff hy]
    exact ⟨ha v, fun ht => ht.1⟩
  | changed hw hwf hhas hlost =>
    obtain ⟨v, hv, hn⟩ := hlost
    refine .inr ⟨true, _, rfl, ?_, fun v => ?_, fun z => has_tell_of_ne h hy hw _, fun hc => (by cases hc), fun _ => ?_⟩
    · exact narrows_tell h hy hw hwf (fun v hv => ((hhas v).mp hv).1) ⟨v, hv, fun hc => hn ((hhas v).mp hc)⟩
        (fun heq => if_pos heq) cause
    · rw [target_iff hy, ← hhas]
      exact has_iff (m := m.tell t _) hy
    · exact ⟨v, (has_iff hy).mpr hv, fun hc => hn ((target_iff hy).mp hc)⟩

namespace Narrowed

variable {x : VarId} {μ : Mutation} {cause : Cause} {m m' : Model} {changed : Bool}

/-- A mutation that changed a domain left nothing but what it keeps. -/
theorem keeps_of_changed (h : Narrowed x μ cause m changed m') (hc : changed = true) {v : Int}
    (hv : m'.Has x v) : μ.Keeps v := by
  obtain ⟨y, hy, -, hk | hs⟩ := (h.has_iff v).mp hv
  · exact hk
  · obtain ⟨w, hw, hn⟩ := h.changed hc
    exact absurd ((target_iff hy).mpr ⟨(Model.has_iff hy).mp hw, .inr hs⟩) hn

/-- So did one after which the domain is fixed. -/
theorem keeps_of_fixed (h : Narrowed x μ cause m changed m') (hm : m.WellFormed) (hf : m'.Fixed x) {v : Int}
    (hv : m'.Has x v) : μ.Keeps v := by
  cases changed with
  | true => exact h.keeps_of_changed rfl hv
  | false =>
    have hmm := h.unchanged rfl
    obtain ⟨y, hy, -, hk | hs⟩ := (h.has_iff v).mp hv
    · exact hk
    · rw [hmm] at hf hv
      rw [hm.eq_of_fixed hf hv ((Model.has_iff hy).mpr (hm.domains _ y hy).has_lb)]
      exact hs.2.2.1

/-- A change takes a value away from its variable. -/
theorem spare_lt (h : Narrowed x μ cause m changed m') {l : List VarId} (hx : x ∈ l) (hc : changed = true) :
    m'.spare l < m.spare l := by
  obtain ⟨v, hv, hn⟩ := h.changed hc
  have hx' : m'.owns x = true := (h.narrows.owns_eq x).trans hv.owns
  exact Model.spare_lt (fun z => count_le (h.narrows.has z)) hx (h.narrows.wellFormed.count_pos hx')
    (count_lt (h.narrows.has x) hv fun hv' => hn ((h.has_iff v).mp hv'))

theorem allows (h : Narrowed x μ cause m changed m') {a : Assignment} (ha : m.Allows a) (hk : μ.Keeps (a x)) :
    m'.Allows a := by
  intro z hz
  rw [h.narrows.owns_eq] at hz
  by_cases hzx : z = x
  · subst hzx
    exact (h.has_iff _).mpr (target_of_keeps (ha z hz) hk)
  · exact (h.other z hzx _).mpr (ha z hz)

end Narrowed

end Model

end FiniteDomain
