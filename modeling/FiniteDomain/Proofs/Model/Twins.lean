import FiniteDomain.Proofs.Model.Narrowing
import FiniteDomain.Proofs.Model.Recounting

/-!
# Models with the same values

The queries of well-formed domains answer for the sets of values. Where these sets are the same, whatever the stores
look like, the answers are.

* `Copies.contains_eq`, `Copies.values_eq`: of some variables;
* `Twins`: of all variables, and `Twins.extent_eq`: bounds and sizes too.
-/

namespace FiniteDomain

namespace Model

variable {m m' m'' : Model} {l : List VarId} {x : VarId}

/-- There is no asking for the domain of a variable that is not of the model. -/
theorem domain_bind_eq_error {α : Type} (hx : ¬m.owns x = true) (f : Domain → Except Fault α) :
    m.domain x >>= f = .error .missing := by
  cases hd : m.domain x with
  | ok d => exact absurd (owns_of_domain_eq_ok hd) hx
  | error fault =>
    cases hy : m.vars[x.index]? with
    | some y =>
      rw [domain_eq_ok hy] at hd
      cases hd
    | none =>
      simp only [domain, variableOf, hy] at hd
      cases hd
      rfl

namespace Copies

variable (h : Copies l m m') (hx : x ∈ l) (hw : m.WellFormed)

include h hx

theorem has_iff (v : Int) : m'.Has x v ↔ m.Has x v := ⟨h.has x v, h.kept x hx v⟩

include hw

theorem contains_eq (v : Int) : m'.contains x v = m.contains x v := by
  have howns := h.owns_eq x
  by_cases hm : m.owns x = true
  · obtain ⟨b, hb, hiff⟩ := hw.contains_spec hm v
    obtain ⟨b', hb', hiff'⟩ := h.wellFormed.contains_spec (howns.trans hm) v
    rw [h.has_iff hx] at hiff'
    rw [hb, hb', Bool.eq_iff_iff.mpr (hiff'.trans hiff.symm)]
  · rw [contains, contains, domain_bind_eq_error hm, domain_bind_eq_error (howns ▸ hm)]

theorem values_eq : m'.values x = m.values x := by
  have howns := h.owns_eq x
  by_cases hm : m.owns x = true
  · obtain ⟨vs, hvs, hsorted, hmem⟩ := hw.values_spec hm
    obtain ⟨vs', hvs', hsorted', hmem'⟩ := h.wellFormed.values_spec (howns.trans hm)
    rw [hvs, hvs']
    refine congrArg Except.ok (Array.toList_inj.mp (hsorted'.eq_of_mem_iff hsorted fun v => ?_))
    rw [Array.mem_toList_iff, Array.mem_toList_iff, hmem, hmem', h.has_iff hx]
  · rw [values, values, domain_bind_eq_error hm, domain_bind_eq_error (howns ▸ hm)]

end Copies

/-! ### Twins -/

/-- The models have the same variables with the same values. -/
structure Twins (m m' : Model) : Prop extends Within m m' where
  source : m.WellFormed
  kept : ∀ x v, m.Has x v → m'.Has x v

namespace Twins

theorem refl (h : m.WellFormed) : Twins m m := ⟨.refl h, h, fun _ _ hv => hv⟩

theorem symm (h : Twins m m') : Twins m' m := ⟨⟨h.vars.symm, h.source, h.kept⟩, h.wellFormed, h.has⟩

theorem trans (h1 : Twins m m') (h2 : Twins m' m'') : Twins m m'' :=
  ⟨h1.toWithin.trans h2.toWithin, h1.source, fun x v hv => h2.kept x v (h1.kept x v hv)⟩

variable (h : Twins m m')

include h

theorem copies (l : List VarId) : Copies l m m' :=
  ⟨⟨h.toWithin, fun x _ => (h.bounds_eq h.source (h.kept x)).1, fun x _ => (h.bounds_eq h.source (h.kept x)).2⟩,
    fun x _ => h.kept x⟩

theorem lb_eq (x : VarId) : m'.lb x = m.lb x := (h.copies [x]).lb_eq x List.mem_cons_self

theorem ub_eq (x : VarId) : m'.ub x = m.ub x := (h.copies [x]).ub_eq x List.mem_cons_self

theorem values_eq (x : VarId) : m'.values x = m.values x := (h.copies [x]).values_eq List.mem_cons_self h.source

theorem size_eq (x : VarId) : m'.size x = m.size x := by
  by_cases hx : m.owns x = true
  · obtain ⟨y, hy⟩ := owns_iff.mp hx
    obtain ⟨vs, hvs, -, -, e, he, hsize⟩ := (answers_of_wellFormed hy (h.source.domains _ y hy)).values
    have hy' : m'.vars[x.index]? = some y := h.vars ▸ hy
    obtain ⟨vs', hvs', -, -, e', he', hsize'⟩ := (answers_of_wellFormed hy' (h.wellFormed.domains _ y hy')).values
    rw [h.values_eq, hvs] at hvs'
    rw [h.isEnumerated_eq, he] at he'
    cases hvs'
    cases he'
    rw [hsize, hsize']
  · rw [size, size, domain_bind_eq_error hx, domain_bind_eq_error (h.owns_eq x ▸ hx)]

/-- Twins cannot be told apart by what they are asked about a variable. -/
theorem extent_eq (x : VarId) : m'.extent x = m.extent x ∧ ∀ v, m'.contains x v = m.contains x v := by
  refine ⟨?_, (h.copies [x]).contains_eq List.mem_cons_self h.source⟩
  by_cases hx : m.owns x = true
  · obtain ⟨y, hy⟩ := owns_iff.mp hx
    have hy' : m'.vars[x.index]? = some y := h.vars ▸ hy
    have hlb := h.lb_eq x
    have hub := h.ub_eq x
    have hsize := h.size_eq x
    rw [Model.lb_eq hy, Model.lb_eq hy', Except.ok.injEq] at hlb
    rw [Model.ub_eq hy, Model.ub_eq hy', Except.ok.injEq] at hub
    rw [Model.size_eq hy, Model.size_eq hy', Except.ok.injEq] at hsize
    simp only [extent, domain_eq_ok hy, domain_eq_ok hy', ok_bind, Domain.extent, hlb, hub, hsize]
  · rw [extent, extent, domain_bind_eq_error hx, domain_bind_eq_error (h.owns_eq x ▸ hx)]

end Twins

end Model

end FiniteDomain
