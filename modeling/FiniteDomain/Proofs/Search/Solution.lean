import FiniteDomain.Proofs.Search.Staging

/-!
# Nodes at which all variables are fixed

There the one assignment that is left is captured as a solution, no constraint counts as violated, and the
blocking nogood holds of every other assignment.
-/

namespace FiniteDomain

namespace Model

variable {m m' : Model} {a b : Assignment}

/-- The values of an assignment, of the variables in the order of creation. -/
def valuesOf (m : Model) (a : Assignment) : Array Int := m.allVars.map a

@[simp] theorem size_valuesOf (m : Model) (a : Assignment) : (m.valuesOf a).size = m.vars.size := by
  simp [valuesOf, allVars]

theorem valuesOf_congr (h : m'.vars = m.vars) (a : Assignment) : m'.valuesOf a = m.valuesOf a := by
  rw [valuesOf, valuesOf, allVars, allVars, h]

theorem mem_allVars {x : VarId} : x ∈ m.allVars ↔ m.owns x = true := by
  obtain ⟨i⟩ := x
  simp [allVars, owns]

theorem getElem_valuesOf {i : Nat} (h : i < (m.valuesOf a).size) : (m.valuesOf a)[i] = a ⟨i⟩ := by
  simp [valuesOf, allVars]

/-- Only the values of the model's variables matter. -/
theorem valuesOf_eq_iff : m.valuesOf a = m.valuesOf b ↔ ∀ x, m.owns x = true → a x = b x := by
  rw [valuesOf, valuesOf, Array.map_inj_left]
  simp only [mem_allVars]

end Model

variable {m : Model} {a b : Assignment}

/-- Where all variables are fixed one assignment is left. -/
theorem Model.WellFormed.valuesOf_eq (hw : m.WellFormed) (hf : ∀ x, m.owns x = true → m.Fixed x) (ha : m.Allows a)
    (hb : m.Allows b) : m.valuesOf a = m.valuesOf b :=
  Model.valuesOf_eq_iff.mpr fun x hx => hw.eq_of_fixed (hf x hx) (ha x hx) (hb x hx)

theorem Solution.capture_eq_ok (hw : m.WellFormed) (hf : ∀ x, m.owns x = true → m.Fixed x) (ha : m.Allows a)
    (objective : Option Int) : Solution.capture m objective = .ok ⟨m.valuesOf a, objective⟩ := by
  have hvalue : ∀ (i : Nat) (y : Variable), m.vars[i]? = some y →
      y.domain.value? m.store = some (a ⟨i⟩) ∧ y.domain.lb m.store = a ⟨i⟩ := by
    intro i y hy
    have hx : m.owns ⟨i⟩ = true := Model.owns_iff.mpr ⟨y, hy⟩
    have hd := hw.domains i y hy
    have heq : y.domain.lb m.store = y.domain.ub m.store := (Model.fixed_iff (x := ⟨i⟩) hy).mp (hf _ hx)
    have ha : a ⟨i⟩ = y.domain.lb m.store := (hd.has_iff_of_fixed heq).mp ((Model.has_iff hy).mp (ha _ hx))
    rw [ha, Domain.value?, Domain.isInstantiated, if_pos (by simpa using heq)]
    exact ⟨rfl, rfl⟩
  have hlist : ∀ v ∈ m.vars.toList, v.domain.value? m.store = some (v.domain.lb m.store) := by
    intro v hv
    obtain ⟨i, hi⟩ := List.getElem?_of_mem hv
    obtain ⟨h1, h2⟩ := hvalue i v (by rw [← Array.getElem?_toList]; exact hi)
    rw [h1, h2]
  have harray : m.vars.map (fun v => v.domain.lb m.store) = m.valuesOf a := by
    apply Array.ext
    · simp
    · intro i h1 h2
      rw [Model.getElem_valuesOf, Array.getElem_map]
      exact (hvalue i _ (Array.getElem?_eq_getElem (by simpa using h1))).2
  rw [capture, Array.mapM_eq_mapM_toList, mapM_eq_ok (g := fun v => v.domain.lb m.store) ?_, ← harray]
  · simp [Functor.map, Except.map, ← Array.toList_map]
  · intro v hv
    rw [hlist v hv]
    rfl

namespace SearchState

theorem objectiveValue_eq_ok {task : SearchTask} (hw : m.WellFormed) (hf : ∀ x, m.owns x = true → m.Fixed x)
    (ha : m.Allows a) (ho : ∀ o, task.objective = some o → m.owns o.var = true) :
    objectiveValue task m = .ok (task.objective.map fun o => a o.var) := by
  rw [objectiveValue]
  cases hobj : task.objective with
  | none => rfl
  | some o =>
    have hx := ho o hobj
    obtain ⟨v, hv, hsome, hnone⟩ := hw.value?_spec hx
    cases v with
    | none => exact absurd (hf _ hx) (hnone rfl)
    | some v =>
      simp only [hv, Option.map_some]
      rw [((hsome v rfl).2 _).mp (ha _ hx)]

/-- The blocking nogood rules out one assignment. -/
theorem blocking_holds_iff (objective : Option Int) :
    (blocking m ⟨m.valuesOf a, objective⟩).Holds b ↔ m.valuesOf b ≠ m.valuesOf a := by
  have hzip : (m.allVars.zip (m.valuesOf a)).toList = m.allVars.toList.map fun x => (x, a x) := by
    rw [Model.valuesOf, Array.toList_zip, Array.toList_map, List.zip_map_right]
    simp [List.zip_eq_zipWith]
  rw [Nogood.Holds, blocking, hzip, Ne, Model.valuesOf_eq_iff]
  refine not_congr ?_
  simp [Literal.Holds, Model.mem_allVars]

theorem owns_of_blocking {solution : Solution} {l : Literal} (hl : l ∈ (blocking m solution).literals) :
    m.owns l.var = true := by
  obtain ⟨e, he, rfl⟩ := List.mem_map.mp hl
  exact Model.mem_allVars.mp (Array.of_mem_zip (Array.mem_toList_iff.mp he)).1

theorem mem_blocking_scope {solution : Solution} (hs : solution.values.size = m.vars.size) {x : VarId}
    (hx : m.owns x = true) : x ∈ (Constraint.nogood (blocking m solution)).propagator.scope := by
  have hscope : ((blocking m solution).literals.map Literal.var) = m.allVars.toList := by
    rw [blocking, List.map_map, Array.toList_zip]
    have hmap : (Literal.var ∘ fun e : VarId × Int => (⟨e.1, e.2, true⟩ : Literal)) = Prod.fst := rfl
    rw [hmap, List.map_fst_zip]
    simp [Model.allVars, hs]
  show x ∈ ((blocking m solution).literals.map Literal.var).toArray
  rw [hscope, List.mem_toArray, Array.mem_toList_iff]
  exact Model.mem_allVars.mpr hx

end SearchState

/-- None counts as violated if each that is active knows of a choice that is not. -/
theorem Network.firstViolated_eq_none {n : Network} {l : List Post} {next : Nat} : n.firstViolated next l = .ok none ↔
    ∀ p ∈ l, n.isActive p = true → ∃ t, p.propagator.entailed n.model = .ok t ∧ t ≠ .never := by
  induction l generalizing next with
  | nil => exact ⟨fun _ p hp => absurd hp List.not_mem_nil, fun _ => rfl⟩
  | cons p rest ih =>
    rw [firstViolated, List.forall_mem_cons]
    by_cases hactive : n.isActive p = true
    · rw [if_pos hactive]
      cases ht : p.propagator.entailed n.model with
      | error fault => exact ⟨nofun, fun hall => by obtain ⟨t, ht, -⟩ := hall.1 hactive; cases ht⟩
      | ok t =>
        by_cases hnever : t = .never
        · simp [hnever, ok_bind, hactive]
        · simp [hnever, ok_bind, ih, hactive]
    · rw [if_neg hactive]
      exact ih.trans ⟨fun hrest => ⟨fun h => absurd h hactive, hrest⟩, And.right⟩

/-- **No constraint of a settled network counts as violated** once all variables are fixed. -/
theorem Network.findViolated_eq_none [Tolerance] {r : Roster} {n : Network} (h : n.Wired r) (hs : r.Settles n.model)
    (hf : ∀ x, n.model.owns x = true → n.model.Fixed x) : n.findViolated = .ok none := by
  refine firstViolated_eq_none.mpr fun p hp hactive => ?_
  obtain ⟨hstate, -⟩ := (Bool.and_eq_true _ _).mp hactive
  have hstate : p.state ≠ .removed := of_decide_eq_true hstate
  obtain ⟨i, hi⟩ := List.getElem?_of_mem hp
  rw [Array.getElem?_toList] at hi
  cases he : r ⟨i⟩ with
  | none => exact absurd (h.removed ⟨i⟩ p he hi) hstate
  | some e =>
    obtain ⟨q, hq, hprop, -⟩ := h.member ⟨i⟩ e he
    cases hi.symm.trans hq
    have hsuits := hs.suits _ e he
    obtain ⟨t, ht, hnever⟩ := Constraint.entailed_spec hs.wellFormed hsuits
    rw [hprop]
    refine ⟨t, ht, fun hc => ?_⟩
    obtain ⟨a, ha⟩ := hs.wellFormed.exists_allows
    exact hnever hc a ha (hs.decided _ e he (fun x hx => hf x (hsuits.scope x hx)) a ha)

end FiniteDomain
