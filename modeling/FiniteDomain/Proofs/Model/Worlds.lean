import FiniteDomain.Proofs.Constraint.Basic
import FiniteDomain.Proofs.Store.Steps

/-!
# The same domains in another store

Opening a world, letting go of events, adding cells and merging a world all leave the domains as they are:
the new store *agrees* with the old one on the cells of the domains.
-/

namespace FiniteDomain

namespace Model

/-- The second model has the same variables, and its store agrees on their cells. -/
structure Agrees (m m' : Model) : Prop where
  vars : m'.vars = m.vars
  linked : m'.store.Linked
  size : m.store.slots.size ≤ m'.store.slots.size
  get : ∀ c, m.Owns c → m'.store.get? c = m.store.get? c

variable {m m' : Model}

theorem Owns.lt {c : Nat} (h : m.Owns c) (hw : m.WellFormed) : c < m.store.slots.size := by
  obtain ⟨i, y, hy, hc⟩ := h
  exact (hw.domains i y hy).housed c hc

namespace Agrees

theorem owns_eq (h : Agrees m m') (x : VarId) : m'.owns x = m.owns x := by rw [owns, owns, h.vars]

theorem owns_iff (h : Agrees m m') (c : Nat) : m'.Owns c ↔ m.Owns c := by rw [Owns, Owns, h.vars]

theorem get_of (h : Agrees m m') {i : Nat} {y : Variable} (hy : m.vars[i]? = some y) :
    ∀ c, y.domain.Owns c → m'.store.get? c = m.store.get? c := fun c hc => h.get c ⟨i, y, hy, hc⟩

theorem has_iff (h : Agrees m m') (x : VarId) (v : Int) : m'.Has x v ↔ m.Has x v := by
  constructor
  · intro hv
    obtain ⟨y, hy⟩ := Model.owns_iff.mp hv.owns
    have hy' : m.vars[x.index]? = some y := h.vars ▸ hy
    rw [Model.has_iff hy] at hv
    exact (Model.has_iff hy').mpr ((Domain.has_congr (h.get_of hy') v).mp hv)
  · intro hv
    obtain ⟨y, hy⟩ := Model.owns_iff.mp hv.owns
    have hy' : m'.vars[x.index]? = some y := h.vars ▸ hy
    rw [Model.has_iff hy] at hv
    exact (Model.has_iff hy').mpr ((Domain.has_congr (h.get_of hy) v).mpr hv)

theorem count_eq (h : Agrees m m') (x : VarId) : m'.count x = m.count x := by
  rw [count, count]
  exact congrArg Set.ncard (Set.ext (h.has_iff x))

theorem fixed_iff (h : Agrees m m') (x : VarId) : m'.Fixed x ↔ m.Fixed x := by
  constructor
  · intro hf
    obtain ⟨y, hy⟩ := Model.owns_iff.mp hf.owns
    have hy' : m.vars[x.index]? = some y := h.vars ▸ hy
    rw [Model.fixed_iff hy, Domain.lb_congr (h.get_of hy'), Domain.ub_congr (h.get_of hy')] at hf
    exact (Model.fixed_iff hy').mpr hf
  · intro hf
    obtain ⟨y, hy⟩ := Model.owns_iff.mp hf.owns
    have hy' : m'.vars[x.index]? = some y := h.vars ▸ hy
    rw [Model.fixed_iff hy', Domain.lb_congr (h.get_of hy), Domain.ub_congr (h.get_of hy)]
    exact (Model.fixed_iff hy).mp hf

theorem allows_iff (h : Agrees m m') (a : Assignment) : m'.Allows a ↔ m.Allows a := by
  simp only [Allows, h.owns_eq, h.has_iff]

theorem wellFormed (h : Agrees m m') (hw : m.WellFormed) : m'.WellFormed := by
  refine ⟨h.linked, ?_, ?_⟩
  · intro i y hy
    rw [h.vars] at hy
    exact (hw.domains i y hy).congr (h.get_of hy) h.size
  · rw [h.vars]
    exact hw.apart

/-- Letting go of the events leaves the domains as they are. -/
theorem clearEvents (h : m.WellFormed) : Agrees m m.clearEvents :=
  ⟨rfl, h.linked, Nat.le_refl _, fun _ _ => rfl⟩

/-- So does a write to a cell that belongs to no domain. -/
theorem setCell (h : m.WellFormed) {cell : Nat} (hc : ¬m.Owns cell) (value : Datum) :
    Agrees m (m.setCell cell value) := by
  refine ⟨rfl, h.linked.set cell _, Nat.le_of_eq (Store.size_slots_set _ _ _).symm, fun c hown => ?_⟩
  exact Store.get?_set_of_ne _ (fun heq : cell = c => hc (heq ▸ hown)) _

/-- So do new cells. -/
theorem grow (h : m.WellFormed) (values : List Datum) : Agrees m { m with store := m.store.grow values } := by
  refine ⟨rfl, h.linked.grow values, ?_, fun c hc => Store.get?_grow_of_lt (hc.lt h) values⟩
  rw [Store.size_slots_grow]
  exact Nat.le_add_right _ _

theorem suits [Tolerance] (h : Agrees m m') {c : Constraint} (hc : c.Suits m) : c.Suits m' :=
  hc.of_narrower (fun x hx => (h.owns_eq x).trans hx) fun x v => (h.has_iff x v).mp

theorem decided (h : Agrees m m') {c : Constraint} (hc : c.Decided m) : c.Decided m' := by
  intro hf a ha
  exact hc (fun x hx => (h.fixed_iff x).mp (hf x hx)) a ((h.allows_iff a).mp ha)

theorem target_iff (h : Agrees m m') (x : VarId) (μ : Mutation) (v : Int) : m'.Target x μ v ↔ m.Target x μ v := by
  constructor
  · rintro ⟨y, hy, ht⟩
    rw [h.vars] at hy
    exact ⟨y, hy, (Domain.target_congr (h.get_of hy)).mp ht⟩
  · rintro ⟨y, hy, ht⟩
    exact ⟨y, h.vars ▸ hy, (Domain.target_congr (h.get_of hy)).mpr ht⟩

end Agrees

end Model

end FiniteDomain
