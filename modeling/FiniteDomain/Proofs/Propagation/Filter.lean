import FiniteDomain.Propagation.Filter
import FiniteDomain.Proofs.Activity
import FiniteDomain.Proofs.Model.WellFormed

/-!
# Reasoning about filters

A filter that works for a set `H` of assignments *leads* from a scene to what is claimed of its results if it
keeps every assignment of `H` that was allowed when it began, and ends in a contradiction only if there is
none. The rules follow the ways in which filters are put together.
-/

namespace FiniteDomain

/-- The notices of a mutation are not for the observers. -/
theorem Notice.moment?_ofMutation? {name : String} {cause : Cause} {result : Except Contradiction Bool}
    {events : Array Event} {notice : Notice} (h : ofMutation? name cause result events = some notice) :
    notice.moment? = none := by
  cases result with
  | error c =>
    cases h
    rfl
  | ok changed =>
    cases changed with
    | false => cases h
    | true =>
      obtain ⟨e, -, rfl⟩ := Option.map_eq_some_iff.mp h
      rfl

/-- A narrowing that is reported. -/
theorem Model.narrow_spec [Tolerance] {m : Model} (h : m.WellFormed) {x : VarId} (hx : m.owns x = true) (μ : Mutation)
    (cause : Cause) : (m.narrow x μ cause).Quiet fun r =>
      (r = (.error ⟨.emptyDomain x, cause⟩, m) ∧ ∀ v, ¬m.Target x μ v) ∨
        ∃ changed m', r = (.ok changed, m') ∧ Narrowed x μ cause m changed m' := by
  obtain ⟨r, hrun, hr, hx'⟩ : ∃ r, m.apply x μ cause = .ok r ∧
      ((r = (.error ⟨.emptyDomain x, cause⟩, m) ∧ ∀ v, ¬m.Target x μ v) ∨
        ∃ changed m', r = (.ok changed, m') ∧ Narrowed x μ cause m changed m') ∧ r.2.owns x = true := by
    rcases apply_spec h hx μ cause with ⟨hrun, hnone⟩ | ⟨changed, m', hrun, hnarrowed⟩
    · exact ⟨_, hrun, .inl ⟨rfl, hnone⟩, hx⟩
    · exact ⟨_, hrun, .inr ⟨changed, m', rfl, hnarrowed⟩, (hnarrowed.narrows.owns_eq x).trans hx⟩
  obtain ⟨y, hy⟩ := owns_iff.mp hx'
  rw [Model.narrow]
  refine Activity.Quiet.bind (.answer hrun rfl) ?_
  rintro _ rfl
  refine Activity.Quiet.bind (.answer (varName_eq hy) rfl) ?_
  rintro name rfl
  cases hn : Notice.ofMutation? y.name cause r.1 r.2.events with
  | none => exact .pure hr
  | some notice => exact .bind (.report (Notice.moment?_ofMutation? hn)) fun _ _ => .pure hr

/-- What is reported of a condition is so for all assignments that the model allows. -/
structure Entailment.Tells (e : Entailment) (m : Model) (H : Assignment → Prop) : Prop where
  always : e = .always → ∀ a, m.Allows a → H a
  never : e = .never → ∀ a, m.Allows a → ¬H a

namespace Entailment.Tells

variable {m : Model} {H : Assignment → Prop}

theorem of_always (h : ∀ a, m.Allows a → H a) : Entailment.always.Tells m H := ⟨fun _ => h, nofun⟩

theorem of_never (h : ∀ a, m.Allows a → ¬H a) : Entailment.never.Tells m H := ⟨nofun, fun _ => h⟩

theorem of_undecided : Entailment.undecided.Tells m H := ⟨nofun, nofun⟩

theorem of_ite {p q : Prop} [Decidable p] [Decidable q] (hp : p → ∀ a, m.Allows a → H a)
    (hq : q → ∀ a, m.Allows a → ¬H a) :
    Entailment.Tells (if p then .always else if q then .never else .undecided) m H := by
  split
  · exact of_always (hp ‹_›)
  · split
    · exact of_never (hq ‹_›)
    · exact of_undecided

end Entailment.Tells

namespace Filter

/-- What a filter that works for `H` has come to, from the scene where it began. -/
structure Within (H : Assignment → Prop) (start s : Scene) : Prop where
  self : s.self = start.self
  narrows : Model.Narrows (· = .propagator start.self) start.model s.model
  keeps : ∀ a, H a → start.model.Allows a → s.model.Allows a

/-- What the end of a filter amounts to. -/
def Ends {α : Type} (H : Assignment → Prop) (start : Scene) (Q : α → Scene → Prop) :
    Except Contradiction α × Scene → Prop
  | (.ok x, s) => Within H start s ∧ Q x s
  | (.error _, s) => Model.Narrows (· = .propagator start.self) start.model s.model ∧
      ∀ a, H a → ¬start.model.Allows a

/-- From a scene the filter leads to `Q`, or to a contradiction for good reason. -/
def Leads [Tolerance] {α : Type} (H : Assignment → Prop) (start : Scene) (f : Filter α) (s : Scene)
    (Q : α → Scene → Prop) : Prop := (f.run s).Quiet (Ends H start Q)

section Within

variable {H : Assignment → Prop} {start s : Scene}

theorem Within.refl (h : start.model.WellFormed) : Within H start start :=
  ⟨rfl, .refl h, fun _ _ ha => ha⟩

theorem Within.wellFormed (h : Within H start s) : s.model.WellFormed := h.narrows.wellFormed

theorem Within.owns (h : Within H start s) {x : VarId} (hx : start.model.owns x = true) :
    s.model.owns x = true := by
  rw [h.narrows.owns_eq]
  exact hx

end Within

section Rules

variable [Tolerance] {α β : Type} {H : Assignment → Prop} {start s : Scene}

theorem Leads.pure {x : α} {Q : α → Scene → Prop} (h : Within H start s) (hQ : Q x s) :
    Leads H start (Pure.pure x) s Q := Activity.Quiet.pure ⟨h, hQ⟩

theorem Leads.bind {f : Filter α} {g : α → Filter β} {R : α → Scene → Prop} {Q : β → Scene → Prop}
    (hf : Leads H start f s R) (hg : ∀ x s', Within H start s' → R x s' → Leads H start (g x) s' Q) :
    Leads H start (f >>= g) s Q := by
  refine Activity.Quiet.bind hf ?_
  rintro ⟨r, s'⟩ hr
  cases r with
  | ok x => exact hg x s' hr.1 hr.2
  | error c => exact Activity.Quiet.pure hr

theorem Leads.mono {f : Filter α} {Q R : α → Scene → Prop} (hf : Leads H start f s R)
    (h : ∀ x s', Within H start s' → R x s' → Q x s') : Leads H start f s Q := by
  refine Activity.Quiet.mono hf ?_
  rintro ⟨r, s'⟩ hr
  cases r with
  | ok x => exact ⟨hr.1, h x s' hr.1 hr.2⟩
  | error c => exact hr

/-- A question about the model. -/
theorem Leads.ask {question : Model → Except Fault α} {x : α} {Q : α → Scene → Prop} (h : Within H start s)
    (hx : question s.model = .ok x) (hQ : Q x s) : Leads H start (Filter.ask question) s Q :=
  Activity.Quiet.bind (.answer hx rfl) fun _ hy => .pure ⟨h, hy ▸ hQ⟩

theorem Leads.fail {conflict : Conflict} {Q : α → Scene → Prop} (h : Within H start s)
    (hn : ∀ a, H a → ¬start.model.Allows a) : Leads H start (Filter.fail conflict) s Q :=
  Activity.Quiet.pure ⟨h.narrows, hn⟩

theorem Leads.abort {fault : Fault} {Q : α → Scene → Prop} (h : fault.Tolerated) :
    Leads H start (Filter.abort fault) s Q := Activity.Quiet.throw h

theorem Leads.setPassive {Q : Unit → Scene → Prop} (h : Within H start s)
    (hQ : Q () { s with passive := true }) : Leads H start Filter.setPassive s Q :=
  Activity.Quiet.pure ⟨⟨h.self, h.narrows, h.keeps⟩, hQ⟩

/-- A narrowing that every assignment of `H` survives. -/
theorem Leads.narrow {x : VarId} {μ : Mutation} {Q : Bool → Scene → Prop} (h : Within H start s)
    (hx : start.model.owns x = true) (hk : ∀ a, H a → start.model.Allows a → μ.Keeps (a x))
    (hQ : ∀ changed m', Model.Narrowed x μ (.propagator start.self) s.model changed m' →
      Q changed { s with model := m' }) : Leads H start (Filter.narrow x μ) s Q := by
  have hx' := h.owns hx
  refine Activity.Quiet.bind (Model.narrow_spec h.wellFormed hx' μ (.propagator s.self)) ?_
  rintro r (⟨rfl, hnone⟩ | ⟨changed, m', rfl, hn⟩)
  · refine .pure ⟨h.narrows, ?_⟩
    intro a ha hallows
    have hin := h.keeps a ha hallows x hx'
    exact hnone _ (Model.target_of_keeps hin (hk a ha hallows))
  · rw [h.self] at hn
    refine .pure ⟨⟨h.self, h.narrows.trans hn.narrows, ?_⟩, hQ changed m' hn⟩
    exact fun a ha hallows => hn.allows (h.keeps a ha hallows) (hk a ha hallows)

/-! ### What follows a question or a narrowing -/

theorem Leads.ask_bind {question : Model → Except Fault α} {g : α → Filter β} {x : α} {Q : β → Scene → Prop}
    (h : Within H start s) (hx : question s.model = .ok x) (hg : Leads H start (g x) s Q) :
    Leads H start (Filter.ask question >>= g) s Q := by
  refine Leads.bind (R := fun y s' => y = x ∧ s' = s) (.ask h hx ⟨rfl, rfl⟩) ?_
  rintro y s' - ⟨rfl, rfl⟩
  exact hg

theorem Leads.narrow_bind {x : VarId} {μ : Mutation} {g : Bool → Filter β} {Q : β → Scene → Prop}
    (h : Within H start s) (hx : start.model.owns x = true)
    (hk : ∀ a, H a → start.model.Allows a → μ.Keeps (a x))
    (hg : ∀ changed m', Model.Narrowed x μ (.propagator start.self) s.model changed m' →
      Within H start { s with model := m' } → Leads H start (g changed) { s with model := m' } Q) :
    Leads H start (Filter.narrow x μ >>= g) s Q := by
  refine Leads.bind (R := fun changed s' => ∃ m', s' = { s with model := m' } ∧
    Model.Narrowed x μ (.propagator start.self) s.model changed m') ?_ ?_
  · exact .narrow h hx hk fun changed m' hn => ⟨m', rfl, hn⟩
  · rintro changed s' hs' ⟨m', rfl, hn⟩
    exact hg changed m' hn hs'

end Rules

/-! ### Passes -/

/-- Between two scenes it was noted whether a domain of some variables changed. Where one did, some value is gone
for good. -/
structure Tallies (l : List VarId) (s : Scene) (changed : Bool) (s' : Scene) : Prop where
  passive : s'.passive = s.passive
  same : changed = false → s'.model = s.model
  fewer : changed = true → s'.model.spare l < s.model.spare l

namespace Tallies

variable {l : List VarId} {s s' s'' : Scene} {c d : Bool}

theorem refl (l : List VarId) (s : Scene) : Tallies l s false s := ⟨rfl, fun _ => rfl, fun hc => by cases hc⟩

theorem spare_le (h : Tallies l s c s') : s'.model.spare l ≤ s.model.spare l := by
  cases c with
  | false => rw [h.same rfl]
  | true => exact Nat.le_of_lt (h.fewer rfl)

theorem trans (h1 : Tallies l s c s') (h2 : Tallies l s' d s'') : Tallies l s (c || d) s'' := by
  refine ⟨h2.passive.trans h1.passive, fun hc => ?_, fun hc => ?_⟩
  · rw [Bool.or_eq_false_iff] at hc
    exact (h2.same hc.2).trans (h1.same hc.1)
  · rcases (Bool.or_eq_true _ _).mp hc with hc | hc
    · exact Nat.lt_of_le_of_lt h2.spare_le (h1.fewer hc)
    · exact Nat.lt_of_lt_of_le (h2.fewer hc) h1.spare_le

theorem narrowed {x : VarId} {μ : Mutation} {cause : Cause} {m' : Model} (hx : x ∈ l)
    (hn : Model.Narrowed x μ cause s.model c m') : Tallies l s c { s with model := m' } :=
  ⟨rfl, hn.unchanged, hn.spare_lt hx⟩

end Tallies

/-- A pass over some variables that tells whether it changed a domain, and if it did not then `P` holds of the
model. -/
def Passes (l : List VarId) (P : Model → Prop) (s : Scene) (changed : Bool) (s' : Scene) : Prop :=
  Tallies l s changed s' ∧ (changed = false → P s.model)

/-- Two passes, one after the other. -/
theorem Leads.both [Tolerance] {H : Assignment → Prop} {start s : Scene} {f g : Filter Bool} {l : List VarId}
    {P Q : Model → Prop} (h : Within H start s) (hf : ∀ s, Within H start s → Leads H start f s (Passes l P s))
    (hg : ∀ s, Within H start s → Leads H start g s (Passes l Q s)) :
    Leads H start (do let first ← f; let second ← g; return first || second) s
      (Passes l (fun m => P m ∧ Q m) s) := by
  refine Leads.bind (hf s h) ?_
  rintro first s1 hin1 ⟨ht1, hP⟩
  refine Leads.bind (hg s1 hin1) ?_
  rintro second s2 hin2 ⟨ht2, hQ⟩
  refine Leads.pure hin2 ⟨ht1.trans ht2, fun hc => ?_⟩
  rw [Bool.or_eq_false_iff] at hc
  exact ⟨hP hc.1, ht1.same hc.1 ▸ hQ hc.2⟩

/-! ### What a filter has to decide -/

/-- Where all variables of the scope are fixed the constraint holds, and where the filter need not be woken
again every choice of the values left satisfies it. -/
structure Decided (H : Assignment → Prop) (scope : Array VarId) (s : Scene) : Prop where
  ground : (∀ x ∈ scope, s.model.Fixed x) → ∀ a, s.model.Allows a → H a
  passive : s.passive = true → ∀ a, s.model.Allows a → H a

theorem Decided.of_entailed {H : Assignment → Prop} {scope : Array VarId} {s : Scene}
    (h : ∀ a, s.model.Allows a → H a) : Decided H scope s := ⟨fun _ => h, fun _ => h⟩

end Filter

end FiniteDomain
