import FiniteDomain.Proofs.Propagation.Built
import FiniteDomain.Proofs.Propagation.Filter

/-!
# Filters that change nothing

A filter is *steady* under a relation between models if, wherever it changed nothing, it would change nothing of a
model that is related, and would come to the same result. So are all filters that are built over variables whose bounds
the relation keeps: what they ask has the same answer, and a mutation without effect has none.

* `Answers`, `Leaves`: filters that change nothing of a model;
* `Built.steady`: such filters are steady;
* `Leads.answers`: a pass that changed nothing would change nothing again.
-/

namespace FiniteDomain

namespace Filter

variable {α β : Type}

/-! ### What a filter does -/

/-- On the model the filter comes to this result and changes nothing, whatever was noticed before. -/
def Answers (f : Filter α) (m : Model) (x : α) : Prop :=
  ∀ s : Scene, s.model = m → ∀ before, ∃ after, f.run s before = .ok (.ok x, s) after

/-- On the model the filter changes nothing and ends in no contradiction, though it may ask not to be woken. -/
def Leaves (f : Filter Unit) (m : Model) : Prop :=
  ∀ s : Scene, s.model = m → ∀ before, ∃ passive after, f.run s before = .ok (.ok (), { s with passive }) after

/-- A run on the model ends, and in no contradiction. -/
def Succeeds (f : Filter Unit) (m : Model) : Prop :=
  ∀ id before, ∃ s after, f.run { self := id, model := m } before = .ok (.ok (), s) after

/-- A run on the model ends, in no contradiction, and prunes nothing. -/
def Spares (f : Filter Unit) (m : Model) : Prop :=
  ∀ id before, ∃ s after, f.run { self := id, model := m } before = .ok (.ok (), s) after ∧ s.model = m

section Rules

variable {m : Model} {x : VarId} {μ : Mutation}

theorem Answers.pure (m : Model) (x : α) : Answers (Pure.pure x) m x := fun _ _ before => ⟨before, rfl⟩

theorem Answers.bind {f : Filter α} {g : α → Filter β} {x : α} {y : β} (hf : f.Answers m x)
    (hg : (g x).Answers m y) : (f >>= g).Answers m y := by
  intro s hs before
  obtain ⟨middle, hf⟩ := hf s hs before
  obtain ⟨after, hg⟩ := hg s hs middle
  exact ⟨after, Activity.run_bind_eq_ok.mpr ⟨_, middle, hf, hg⟩⟩

theorem Answers.ask {question : Model → Except Fault α} {x : α} (h : question m = .ok x) :
    (Filter.ask question).Answers m x := by
  rintro s rfl before
  refine ⟨before, Activity.run_bind_eq_ok.mpr ⟨x, before, ?_, rfl⟩⟩
  rw [h]
  rfl

/-- A mutation that would change nothing does not. -/
theorem Answers.narrow (hw : m.WellFormed) (hx : m.owns x = true) (h : m.Inert x μ) :
    (Filter.narrow x μ).Answers m false := by
  rintro ⟨self, m, passive⟩ rfl before
  obtain ⟨y, hy⟩ := Model.owns_iff.mp hx
  refine ⟨before, Activity.run_bind_eq_ok.mpr ⟨(.ok false, m), before, ?_, rfl⟩⟩
  refine Activity.run_bind_eq_ok.mpr ⟨(.ok false, m), before, ?_, ?_⟩
  · rw [h.apply_eq hw hx]
    rfl
  · refine Activity.run_bind_eq_ok.mpr ⟨y.name, before, ?_, rfl⟩
    rw [Model.varName_eq hy]
    rfl

theorem Leaves.pure (m : Model) : Leaves (Pure.pure ()) m := fun s _ before => ⟨s.passive, before, rfl⟩

theorem Leaves.setPassive (m : Model) : Leaves Filter.setPassive m := fun _ _ before => ⟨true, before, rfl⟩

theorem Leaves.bind {f : Filter α} {g : α → Filter Unit} {x : α} (hf : f.Answers m x) (hg : (g x).Leaves m) :
    (f >>= g).Leaves m := by
  intro s hs before
  obtain ⟨middle, hf⟩ := hf s hs before
  obtain ⟨passive, after, hg⟩ := hg s hs middle
  exact ⟨passive, after, Activity.run_bind_eq_ok.mpr ⟨_, middle, hf, hg⟩⟩

theorem Leaves.spares {f : Filter Unit} (h : f.Leaves m) : f.Spares m := by
  intro id before
  obtain ⟨passive, after, hrun⟩ := h { self := id, model := m } rfl before
  exact ⟨_, after, hrun, rfl⟩

theorem Leaves.succeeds {f : Filter Unit} (h : f.Leaves m) : f.Succeeds m := by
  intro id before
  obtain ⟨s, after, hrun, -⟩ := h.spares id before
  exact ⟨s, after, hrun⟩

/-- A sound filter ends in no contradiction where there is an assignment that it works for. -/
theorem Succeeds.of_leads {H : Assignment → Prop} {f : Filter Unit} {Q : PropId → Unit → Scene → Prop}
    (h : ∀ id, @Leads .strict _ H { self := id, model := m } f { self := id, model := m } (Q id)) {a : Assignment}
    (ha : H a) (hallows : m.Allows a) : f.Succeeds m := by
  intro id before
  obtain ⟨⟨r, s⟩, after, hrun, hends⟩ := (h id).returns before
  cases r with
  | error c => exact absurd hallows (hends.2 a ha)
  | ok u => exact ⟨s, after, hrun⟩

end Rules

/-- What is said of all ends of a filter is said of the one that it came to. -/
theorem Leads.of_run [Tolerance] {H : Assignment → Prop} {start s t : Scene} {f : Filter α} {Q : α → Scene → Prop}
    (h : Leads H start f s Q) {x : α} {before after : Array Notice} (hrun : f.run s before = .ok (.ok x, t) after) :
    Q x t := by
  have h := h before
  rw [hrun] at h
  obtain ⟨-, -, -, -, hQ⟩ := h
  exact hQ

/-! ### Steady filters -/

/-- Either the filter changes nothing, and comes to the same result on all models that are related; or it leaves an
event behind. -/
def Steady (R : Model → Model → Prop) (f : Filter α) : Prop :=
  ∀ s x t before after, s.model.WellFormed → f.run s before = .ok (.ok x, t) after →
    (t.model = s.model ∧ ∀ m', R s.model m' → f.Answers m' x) ∨
      (t.model.WellFormed ∧ s.model.events.size < t.model.events.size)

namespace Steady

variable {R : Model → Model → Prop}

theorem pure (x : α) : Steady R (Pure.pure x) := by
  rintro s _ _ before _ - ⟨⟩
  exact .inl ⟨rfl, fun m' _ => .pure m' x⟩

theorem bind {f : Filter α} {g : α → Filter β} (hf : Steady R f) (hg : ∀ x, f.Produces x → Steady R (g x)) :
    Steady R (f >>= g) := by
  intro s y u before after hw hrun
  obtain ⟨⟨r, t⟩, middle, hrun, hrest⟩ := Activity.run_bind_eq_ok.mp hrun
  cases r with
  | error c => cases hrest
  | ok x =>
    have hg := hg x ⟨s, t, before, middle, hrun⟩
    rcases hf s x t before middle hw hrun with ⟨heq, hgo⟩ | ⟨hwt, hlt⟩
    · rcases hg t y u middle after (heq ▸ hw) hrest with ⟨heq', hgo'⟩ | hgrown
      · exact .inl ⟨heq'.trans heq, fun m' hm' => (hgo m' hm').bind (hgo' m' (heq ▸ hm'))⟩
      · exact .inr (heq ▸ hgrown)
    · rcases hg t y u middle after hwt hrest with ⟨heq', -⟩ | ⟨hwu, hlt'⟩
      · exact .inr (heq' ▸ ⟨hwt, hlt⟩)
      · exact .inr ⟨hwu, Nat.lt_trans hlt hlt'⟩

/-- A question whose answer the relation keeps. -/
theorem ask {question : Model → Except Fault α} (h : Concerns R question) : Steady R (Filter.ask question) := by
  intro s x t before after hw hrun
  obtain ⟨y, middle, hanswer, hrest⟩ := Activity.run_bind_eq_ok.mp hrun
  cases hrest
  refine .inl ⟨rfl, fun m' hm' => .ask ?_⟩
  rw [h s.model m' hm']
  cases hq : question s.model with
  | error fault =>
    rw [hq] at hanswer
    cases hanswer
  | ok z =>
    rw [hq] at hanswer
    cases hanswer
    rfl

/-- A narrowing of a variable whose bounds the relation keeps. -/
theorem narrow {l : List VarId} {x : VarId} (hx : x ∈ l) (hR : ∀ m m', R m m' → m.Trims l m') (μ : Mutation) :
    Steady R (Filter.narrow x μ) := by
  rintro ⟨self, m, passive⟩ b t before after hw hrun
  obtain ⟨⟨result, m1⟩, middle, hmodel, hrest⟩ := Activity.run_bind_eq_ok.mp hrun
  cases hrest
  have happly : m.apply x μ (.propagator self) = .ok (.ok b, m1) :=
    @Activity.Gives.yields _ .worldly _ _ (m.narrow_gives x μ (.propagator self)) _ _ _ hmodel
  have howns : m.owns x = true := by
    obtain ⟨y, -, -, -, hy, -⟩ := Model.exists_of_apply happly
    exact Model.owns_iff.mpr ⟨y, hy⟩
  rcases Model.apply_spec hw howns μ (.propagator self) with ⟨hfailed, -⟩ | ⟨changed, m2, hdone, hn⟩
  · rw [hfailed] at happly
    cases happly
  rw [hdone] at happly
  cases happly
  cases b with
  | false =>
    refine .inl ⟨hn.unchanged rfl, fun m' hm' => ?_⟩
    have htrims := hR _ _ hm'
    exact .narrow htrims.wellFormed ((htrims.owns_eq x).trans howns) (htrims.inert hx (.of_narrowed hn rfl))
  | true =>
    -- where a value went there is an event
    obtain ⟨told, hevents, -, htold⟩ := Model.apply_recounts hw hdone
    have hne : told ≠ [] := by
      rintro rfl
      obtain ⟨v, hv, hout⟩ := hn.changed rfl
      exact hout ((hn.has_iff v).mp (htold.kept x (by simp) v hv))
    have hpos := List.length_pos_of_ne_nil hne
    refine .inr ⟨hn.narrows.wellFormed, ?_⟩
    rw [← Array.length_toList, ← Array.length_toList, hevents, List.length_append]
    omega

/-- Only well-formed models are looked at. -/
theorem of_wellFormed {f : Filter α} (h : Steady (fun m m' => m.WellFormed ∧ R m m') f) : Steady R f := by
  intro s x t before after hw hrun
  exact (h s x t before after hw hrun).imp_left fun ⟨heq, hgo⟩ => ⟨heq, fun m' hm' => hgo m' ⟨hw, hm'⟩⟩

theorem fail (conflict : Conflict) : Steady R (Filter.fail conflict : Filter α) := by
  rintro s x t before after - ⟨⟩

theorem abort (fault : Fault) : Steady R (Filter.abort fault : Filter α) := by
  rintro s x t before after - ⟨⟩

end Steady

/-- **Filters over variables whose bounds the relation keeps are steady.** -/
theorem Built.steady {R : Model → Model → Prop} {l : List VarId} {f : Filter α} (h : Built R l f)
    (hR : ∀ m m', R m m' → m.Trims l m') : Steady R f := by
  induction h with
  | pure x => exact .pure x
  | ask hq => exact .ask hq
  | narrow hx μ => exact .narrow hx hR μ
  | fail conflict => exact .fail conflict
  | abort fault => exact .abort fault
  | sequel _ _ ihf ihg => exact .bind ihf ihg

/-- What a steady filter answers without a change it answers on all models that are related. -/
theorem Answers.related {R : Model → Model → Prop} {f : Filter α} {m m' : Model} {x : α} (h : f.Answers m x)
    (hsteady : Steady R f) (hw : m.WellFormed) (hR : R m m') : f.Answers m' x := by
  obtain ⟨after, hrun⟩ := h { self := ⟨0⟩, model := m } rfl #[]
  rcases hsteady _ _ _ _ _ hw hrun with ⟨-, hgo⟩ | ⟨-, hlt⟩
  · exact hgo m' hR
  · exact absurd hlt (Nat.lt_irrefl _)

/-- A steady pass that changed nothing would change nothing again. -/
theorem Leads.answers [Tolerance] {H : Assignment → Prop} {start s : Scene} {l : List VarId} {P : Model → Prop}
    {R : Model → Model → Prop} {f : Filter Bool} (h : Leads H start f s (Passes l P s)) (hin : Within H start s)
    (hsteady : Steady R f) (hR : ∀ m, m.WellFormed → R m m) :
    Leads H start f s (Passes l (fun m => f.Answers m false) s) := by
  intro before
  have h := h before
  cases hrun : f.run s before with
  | error fault after =>
    rw [hrun] at h
    exact h
  | ok r after =>
    obtain ⟨r, t⟩ := r
    rw [hrun] at h
    cases r with
    | error c => exact h
    | ok changed =>
      obtain ⟨new, hnew, hfits, hin', htally, -⟩ := h
      refine ⟨new, hnew, hfits, hin', htally, ?_⟩
      rintro rfl
      rcases hsteady s false t before after hin.wellFormed hrun with ⟨-, hgo⟩ | ⟨-, hlt⟩
      · exact hgo s.model (hR _ hin.wellFormed)
      · rw [htally.same rfl] at hlt
        exact absurd hlt (Nat.lt_irrefl _)

end Filter

end FiniteDomain
