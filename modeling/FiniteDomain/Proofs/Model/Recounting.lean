import FiniteDomain.Proofs.Model.Chain
import FiniteDomain.Proofs.Model.Worlds

/-!
# What events tell of a narrowing

What no event tells of did not happen: a variable without an event has the values it had, one without an event of a
moved bound has its bounds, and one that no event says is fixed is not.

* `Recounts`: some events tell the way from a model to a narrower one;
* `apply_recounts`, `Chain.recounts`: narrowings leave such events behind;
* `Trims`, `Copies`: what is left where the events are silent;
* `Inert`: a mutation that would change nothing.
-/

namespace FiniteDomain

/-! ### Silence -/

/-- No event on the variable meets one of the conditions. -/
def Silent (told : List Event) (x : VarId) (mask : EventMask) : Prop :=
  ∀ e ∈ told, e.var = x → e.kind.mask.intersects mask = false

namespace Silent

variable {told told' : List Event} {x : VarId} {mask : EventMask}

theorem append_iff : Silent (told ++ told') x mask ↔ Silent told x mask ∧ Silent told' x mask :=
  List.forall_mem_append

/-- An instantiation moves a bound. -/
theorem instantiation (h : Silent told x .boundAndInst) : Silent told x .instantiation := by
  have hmask : ∀ kind : EventKind, kind.mask.intersects .boundAndInst = false →
      kind.mask.intersects .instantiation = false := by
    intro kind
    cases kind <;> decide
  exact fun e he hx => hmask _ (h e he hx)

/-- Every change meets some condition. -/
theorem ne_of_all (h : Silent told x .all) : ∀ e ∈ told, e.var ≠ x := by
  have hmask : ∀ kind : EventKind, kind.mask.intersects .all = true := by
    intro kind
    cases kind <;> decide
  intro e he hx
  have := h e he hx
  rw [hmask] at this
  cases this

theorem boundAndInst (h : Silent told x .all) : Silent told x .boundAndInst :=
  fun e he hx => absurd hx (h.ne_of_all e he)

end Silent

namespace EventKind

variable {lb ub lb' ub' : Int}

/-- A change of a kind that no moved bound has left the bounds where they were. -/
theorem bounds_eq_of_ofBounds (h : (ofBounds lb ub lb' ub').mask.intersects .boundAndInst = false) :
    lb' = lb ∧ ub' = ub := by
  rw [ofBounds] at h
  split at h
  · exact absurd h (by decide)
  · split at h
    · split at h
      · rename_i hl hu
        exact ⟨hl.symm, hu.symm⟩
      · exact absurd h (by decide)
    · split at h <;> exact absurd h (by decide)

theorem ne_of_ofBounds (h : (ofBounds lb ub lb' ub').mask.intersects .instantiation = false) : lb' ≠ ub' := by
  intro heq
  rw [ofBounds, if_pos heq] at h
  exact absurd h (by decide)

end EventKind

namespace Model

variable {m m' m'' : Model} {x : VarId} {μ : Mutation}

/-! ### Bounds -/

/-- A model is as narrow as the other or narrower, and has the same variables. -/
structure Within (m m' : Model) : Prop where
  vars : m'.vars = m.vars
  wellFormed : m'.WellFormed
  has : ∀ x v, m'.Has x v → m.Has x v

namespace Within

theorem refl (h : m.WellFormed) : Within m m := ⟨rfl, h, fun _ _ hv => hv⟩

theorem trans (h1 : Within m m') (h2 : Within m' m'') : Within m m'' :=
  ⟨h2.vars.trans h1.vars, h2.wellFormed, fun x v hv => h1.has x v (h2.has x v hv)⟩

theorem owns_eq (h : Within m m') (x : VarId) : m'.owns x = m.owns x := by rw [owns, owns, h.vars]

theorem isEnumerated_eq (h : Within m m') (x : VarId) : m'.isEnumerated x = m.isEnumerated x :=
  isEnumerated_congr h.vars x

/-- What was fixed stays fixed. -/
theorem fixed (h : Within m m') (hm : m.WellFormed) (hf : m.Fixed x) : m'.Fixed x := by
  have hx : m'.owns x = true := (h.owns_eq x).trans hf.owns
  obtain ⟨v, hv⟩ := h.wellFormed.exists_has hx
  exact h.wellFormed.fixed_of_unique hx fun w hw => hm.eq_of_fixed hf (h.has x w hw) (h.has x v hv)

/-- A variable with the same bounds is fixed to the same value, or not at all. -/
theorem value?_eq (h : Within m m') (hlb : m'.lb x = m.lb x) (hub : m'.ub x = m.ub x) :
    m'.value? x = m.value? x ∧ m'.isInstantiated x = m.isInstantiated x := by
  cases hy : m.vars[x.index]? with
  | none =>
    simp only [value?, isInstantiated, domain, variableOf, h.vars, hy]
    exact ⟨rfl, rfl⟩
  | some y =>
    have hy' : m'.vars[x.index]? = some y := h.vars ▸ hy
    rw [lb_eq hy, lb_eq hy', Except.ok.injEq] at hlb
    rw [ub_eq hy, ub_eq hy', Except.ok.injEq] at hub
    simp only [Model.value?_eq hy, Model.value?_eq hy', isInstantiated_eq hy, isInstantiated_eq hy', Domain.value?,
      Domain.isInstantiated, hlb, hub]
    exact ⟨rfl, trivial⟩

/-- A variable that has the same values has the same bounds. -/
theorem bounds_eq (h : Within m m') (hm : m.WellFormed) (hkept : ∀ v, m.Has x v → m'.Has x v) :
    m'.lb x = m.lb x ∧ m'.ub x = m.ub x := by
  by_cases hx : m.owns x = true
  · have hx' : m'.owns x = true := (h.owns_eq x).trans hx
    obtain ⟨l, hl, hl1, hl2⟩ := hm.lb_spec hx
    obtain ⟨u, hu, hu1, hu2⟩ := hm.ub_spec hx
    obtain ⟨l', hl', hl1', hl2'⟩ := h.wellFormed.lb_spec hx'
    obtain ⟨u', hu', hu1', hu2'⟩ := h.wellFormed.ub_spec hx'
    rw [hl, hl', hu, hu', Int.le_antisymm (hl2' l (hkept l hl1)) (hl2 l' (h.has x l' hl1')),
      Int.le_antisymm (hu2 u' (h.has x u' hu1')) (hu2' u (hkept u hu1))]
    exact ⟨rfl, rfl⟩
  · have hnone : m.vars[x.index]? = none := by
      rw [owns_iff, ← Option.ne_none_iff_exists'] at hx
      exact Classical.not_not.mp hx
    simp only [lb, ub, domain, variableOf, h.vars, hnone]
    exact ⟨rfl, rfl⟩

/-- A variable without holes that has the same bounds has the same values. -/
theorem kept_of_bounded (h : Within m m') (hlb : m'.lb x = m.lb x) (hub : m'.ub x = m.ub x)
    (hbounded : m.isEnumerated x = .ok false) {v : Int} (hm : m.WellFormed) (hv : m.Has x v) : m'.Has x v := by
  obtain ⟨y, hy⟩ := owns_iff.mp hv.owns
  have hy' : m'.vars[x.index]? = some y := h.vars ▸ hy
  rw [lb_eq hy, lb_eq hy', Except.ok.injEq] at hlb
  rw [ub_eq hy, ub_eq hy', Except.ok.injEq] at hub
  rw [Model.isEnumerated_eq hy, Except.ok.injEq, Domain.isEnumerated, Option.isSome_eq_false_iff, Option.isNone_iff_eq_none]
    at hbounded
  rw [has_iff hy] at hv
  rw [has_iff hy']
  have hd := hm.domains _ y hy
  refine (h.wellFormed.domains _ y hy').has_of_bounded hbounded ?_ ?_
  · rw [hlb]
    exact hd.lb_le hv
  · rw [hub]
    exact hd.le_ub hv

end Within

theorem Narrows.within {p : Cause → Prop} (h : Narrows p m m') : Within m m' := ⟨h.vars_eq, h.wellFormed, h.has⟩

/-! ### Mutations that change nothing -/

/-- All values of the variable are in the target of the mutation. -/
def Inert (m : Model) (x : VarId) (μ : Mutation) : Prop := ∀ v, m.Has x v → m.Target x μ v

namespace Inert

/-- A mutation that would change nothing does not. -/
theorem apply_eq (h : m.Inert x μ) (hw : m.WellFormed) (hx : m.owns x = true) (cause : Cause) :
    m.apply x μ cause = .ok (.ok false, m) := by
  obtain ⟨v, hv⟩ := hw.exists_has hx
  rcases apply_spec hw hx μ cause with ⟨-, hnone⟩ | ⟨changed, m', hrun, hn⟩
  · exact absurd (h v hv) (hnone v)
  · cases changed with
    | false => rw [hrun, hn.unchanged rfl]
    | true =>
      obtain ⟨w, hw, hout⟩ := hn.changed rfl
      exact absurd (h w hw) hout

/-- What changed nothing would not. -/
theorem of_narrowed {cause : Cause} {changed : Bool} (h : Narrowed x μ cause m changed m') (hc : changed = false) :
    m.Inert x μ := fun v hv => (h.has_iff v).mp (h.unchanged hc ▸ hv)

/-- It would change nothing of fewer values between the same bounds either. -/
theorem within (h : m.Inert x μ) (hn : Within m m') (hlb : m'.lb x = m.lb x) (hub : m'.ub x = m.ub x) :
    m'.Inert x μ := by
  intro v hv
  obtain ⟨y, hy, -, hkeeps⟩ := h v (hn.has x v hv)
  have hy' : m'.vars[x.index]? = some y := hn.vars ▸ hy
  rw [lb_eq hy, lb_eq hy', Except.ok.injEq] at hlb
  rw [ub_eq hy, ub_eq hy', Except.ok.injEq] at hub
  refine (target_iff hy').mpr ⟨(has_iff hy').mp hv, hkeeps.imp_right ?_⟩
  rw [Domain.Spares, Domain.Spares, hlb, hub]
  exact id

/-- Nor would it change anything of fewer values of a variable that admits holes. -/
theorem of_enumerated (h : m.Inert x μ) (hn : Within m m') (henum : m.isEnumerated x = .ok true) :
    m'.Inert x μ := by
  intro v hv
  obtain ⟨y, hy, -, hkeeps⟩ := h v (hn.has x v hv)
  have hy' : m'.vars[x.index]? = some y := hn.vars ▸ hy
  refine (target_iff hy').mpr ⟨(has_iff hy').mp hv, hkeeps.imp_right fun hs => ?_⟩
  rw [isEnumerated_eq hy, Domain.isEnumerated, hs.1] at henum
  cases henum

end Inert

/-! ### What is told -/

/-- The events tell the way from the model to the narrower one. -/
structure Recounts (told : List Event) (m m' : Model) : Prop extends Within m m' where
  kept : ∀ x, (∀ e ∈ told, e.var ≠ x) → ∀ v, m.Has x v → m'.Has x v
  bounds : ∀ x, Silent told x .boundAndInst → m'.lb x = m.lb x ∧ m'.ub x = m.ub x
  unfixed : ∀ x, Silent told x .instantiation → m'.Fixed x → m.Fixed x

namespace Recounts

variable {told told' : List Event}

theorem refl (h : m.WellFormed) : Recounts [] m m :=
  ⟨.refl h, fun _ _ _ hv => hv, fun _ _ => ⟨rfl, rfl⟩, fun _ _ hf => hf⟩

theorem trans (h1 : Recounts told m m') (h2 : Recounts told' m' m'') : Recounts (told ++ told') m m'' := by
  refine ⟨h1.toWithin.trans h2.toWithin, fun x hx v hv => ?_, fun x hx => ?_, fun x hx hf => ?_⟩
  · rw [List.forall_mem_append] at hx
    exact h2.kept x hx.2 v (h1.kept x hx.1 v hv)
  · rw [Silent.append_iff] at hx
    obtain ⟨hl1, hu1⟩ := h1.bounds x hx.1
    obtain ⟨hl2, hu2⟩ := h2.bounds x hx.2
    exact ⟨hl2.trans hl1, hu2.trans hu1⟩
  · rw [Silent.append_iff] at hx
    exact h1.unfixed x hx.1 (h2.unfixed x hx.2 hf)

/-- While no bound moves a variable is fixed to the same value, or not at all. -/
theorem value?_eq (h : Recounts told m m') (hs : Silent told x .boundAndInst) : m'.value? x = m.value? x :=
  (h.toWithin.value?_eq (h.bounds x hs).1 (h.bounds x hs).2).1

/-- Where the domains are the same there is nothing to tell. -/
theorem of_agrees (h : m.WellFormed) (ha : m.Agrees m') : Recounts [] m m' := by
  have hin : Within m m' := ⟨ha.vars, ha.wellFormed h, fun x v => (ha.has_iff x v).mp⟩
  have hkept : ∀ x v, m.Has x v → m'.Has x v := fun x v => (ha.has_iff x v).mpr
  exact ⟨hin, fun x _ => hkept x, fun x _ => hin.bounds_eq h (hkept x), fun x _ => (ha.fixed_iff x).mp⟩

end Recounts

/-- **A narrowing leaves events behind that tell of it.** -/
theorem apply_recounts (h : m.WellFormed) {cause : Cause} {result : Except Contradiction Bool}
    (ha : m.apply x μ cause = .ok (result, m')) :
    ∃ told, m'.events.toList = m.events.toList ++ told ∧ (∀ e ∈ told, e.cause = cause) ∧ Recounts told m m' := by
  have hnothing : m' = m → ∃ told, m'.events.toList = m.events.toList ++ told ∧ (∀ e ∈ told, e.cause = cause) ∧
      Recounts told m m' := by
    rintro rfl
    exact ⟨[], by simp, by simp, .refl h⟩
  obtain ⟨y, u, t, events, hy, ht, -⟩ := exists_of_apply ha
  have hx : m.owns x = true := owns_iff.mpr ⟨y, hy⟩
  rcases apply_spec h hx μ cause with ⟨hrun, -⟩ | ⟨changed, m1, hrun, hn⟩
  · rw [hrun] at ha
    cases ha
    exact hnothing rfl
  obtain ⟨rfl, rfl⟩ : Except.ok changed = result ∧ m1 = m' := by
    rw [hrun] at ha
    cases ha
    exact ⟨rfl, rfl⟩
  cases changed with
  | false => exact hnothing (hn.unchanged rfl)
  | true =>
    obtain ⟨⟨update, t⟩, hdomain, houtcome⟩ := (h.domains _ y hy).apply_spec μ
    rw [apply_eq hy μ cause hdomain] at hrun
    cases houtcome with
    | emptied => cases hrun
    | unchanged => cases hrun
    | changed =>
      cases hrun
      refine ⟨[_], Array.toList_push, by simp, hn.narrows.within, ?_, ?_, ?_⟩
      · intro z hz v hv
        exact (hn.other z (fun heq => hz _ (List.mem_singleton_self _) heq.symm) v).mpr hv
      · intro z hz
        by_cases hzx : z = x
        · subst hzx
          obtain ⟨hl, hu⟩ := EventKind.bounds_eq_of_ofBounds (hz _ (List.mem_singleton_self _) rfl)
          exact ⟨(lb_eq (m := m.tell t _) hy).trans (hl ▸ (lb_eq hy).symm),
            (ub_eq (m := m.tell t _) hy).trans (hu ▸ (ub_eq hy).symm)⟩
        · exact hn.narrows.within.bounds_eq h fun v => (hn.other z hzx v).mpr
      · intro z hz hf
        by_cases hzx : z = x
        · subst hzx
          refine absurd ((fixed_iff (m := m.tell t _) hy).mp hf) ?_
          exact EventKind.ne_of_ofBounds (hz _ (List.mem_singleton_self _) rfl)
        · have hz' := hf.owns
          rw [hn.narrows.owns_eq] at hz'
          obtain ⟨v, hv⟩ := h.exists_has hz'
          exact h.fixed_of_unique hz' fun w hw => hn.narrows.wellFormed.eq_of_fixed hf ((hn.other z hzx w).mpr hw)
            ((hn.other z hzx v).mpr hv)

/-- So does a chain of narrowings. -/
theorem Chain.recounts {cause : Cause} (h : m.WellFormed) (hc : Chain cause m m') :
    ∃ told, m'.events.toList = m.events.toList ++ told ∧ (∀ e ∈ told, e.cause = cause) ∧ Recounts told m m' := by
  induction hc with
  | refl => exact ⟨[], by simp, by simp, .refl h⟩
  | step _ ha ih =>
    obtain ⟨told, hevents, hcause, hr⟩ := ih
    obtain ⟨told', hevents', hcause', hr'⟩ := apply_recounts hr.wellFormed ha
    refine ⟨told ++ told', ?_, ?_, hr.trans hr'⟩
    · rw [hevents', hevents, List.append_assoc]
    · exact List.forall_mem_append.mpr ⟨hcause, hcause'⟩

/-- Narrowings after which every value is left changed nothing at all. -/
theorem Chain.eq_of_kept {cause : Cause} (hc : Chain cause m m') (h : m.WellFormed)
    (hkept : ∀ x v, m.Has x v → m'.Has x v) : m' = m := by
  induction hc with
  | refl => rfl
  | @step m₁ m₂ x μ result hc ha ih =>
    obtain ⟨_, -, -, hr⟩ := hc.recounts h
    obtain ⟨_, -, -, hr'⟩ := apply_recounts hr.wellFormed ha
    obtain rfl := ih fun z v hv => hr'.has z v (hkept z v hv)
    obtain ⟨y, -, -, -, hy, -⟩ := exists_of_apply ha
    rcases apply_spec h (owns_iff.mpr ⟨y, hy⟩) μ cause with ⟨hrun, -⟩ | ⟨changed, m', hrun, hn⟩
    · rw [hrun] at ha
      cases ha
      rfl
    · rw [hrun] at ha
      cases ha
      cases changed with
      | false => exact hn.unchanged rfl
      | true =>
        obtain ⟨v, hv, hout⟩ := hn.changed rfl
        exact absurd ((hn.has_iff v).mp (hkept x v hv)) hout

/-! ### Where the events are silent -/

/-- The bounds of the variables are those of the wider model. -/
structure Trims (l : List VarId) (m m' : Model) : Prop extends Within m m' where
  lb_eq : ∀ x ∈ l, m'.lb x = m.lb x
  ub_eq : ∀ x ∈ l, m'.ub x = m.ub x

/-- The values of the variables are those of the wider model. -/
structure Copies (l : List VarId) (m m' : Model) : Prop extends Trims l m m' where
  kept : ∀ x ∈ l, ∀ v, m.Has x v → m'.Has x v

section Kept

variable {l : List VarId} {told : List Event}

theorem Trims.refl (h : m.WellFormed) : Trims l m m := ⟨.refl h, fun _ _ => rfl, fun _ _ => rfl⟩

theorem Copies.refl (h : m.WellFormed) : Copies l m m := ⟨.refl h, fun _ _ _ hv => hv⟩

theorem Recounts.trims (h : Recounts told m m') (hs : ∀ x ∈ l, Silent told x .boundAndInst) : Trims l m m' :=
  ⟨h.toWithin, fun x hx => (h.bounds x (hs x hx)).1, fun x hx => (h.bounds x (hs x hx)).2⟩

/-- A variable keeps its values if it has no event, or if it admits no holes and no bound of it moved. -/
theorem Recounts.copies (h : Recounts told m m') (hm : m.WellFormed)
    (hs : ∀ x ∈ l, Silent told x .all ∨ m.isEnumerated x = .ok false ∧ Silent told x .boundAndInst) :
    Copies l m m' := by
  refine ⟨h.trims fun x hx => (hs x hx).elim Silent.boundAndInst And.right, fun x hx v hv => ?_⟩
  rcases hs x hx with hnone | ⟨hbounded, hbounds⟩
  · exact h.kept x hnone.ne_of_all v hv
  · obtain ⟨hl, hu⟩ := h.bounds x hbounds
    exact h.toWithin.kept_of_bounded hl hu hbounded hm hv

theorem Trims.inert (h : Trims l m m') (hx : x ∈ l) (hi : m.Inert x μ) : m'.Inert x μ :=
  hi.within h.toWithin (h.lb_eq x hx) (h.ub_eq x hx)

end Kept

end Model

end FiniteDomain
