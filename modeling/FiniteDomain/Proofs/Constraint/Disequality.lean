import FiniteDomain.Constraint.Disequality
import FiniteDomain.Proofs.Propagation.Filter

/-!
# Disequalities filter soundly

* `Unequal.filter_spec`, `UnequalSum.filter_spec`: a run keeps all solutions, and decides the disequality where
  its variables are fixed;
* `Unequal.entailed_spec`, `UnequalSum.entailed_spec`: what is reported as violated is.
-/

namespace FiniteDomain

open FiniteDomain.Filter

namespace Unequal

variable {c : Unequal}

theorem filter_spec [Tolerance] {start : Scene} (hw : start.model.WellFormed) (hx : start.model.owns c.var = true)
    (hp : start.passive = false) :
    Leads c.Holds start c.filter start fun _ s => Decided c.Holds #[c.var] s := by
  refine Leads.narrow_bind (.refl hw) hx (fun a ha _ => ha) ?_
  intro changed m' hn hin
  cases changed with
  | true =>
    refine Leads.setPassive hin (.of_entailed ?_)
    exact fun a ha => hn.keeps_of_changed rfl (ha _ (hin.owns hx))
  | false =>
    obtain ⟨b, hb, hbi⟩ := hin.wellFormed.contains_spec (hin.owns hx) c.constant
    refine Leads.ask_bind hin hb ?_
    cases b with
    | false =>
      refine Leads.setPassive hin (.of_entailed ?_)
      intro a ha heq
      exact Bool.false_ne_true (hbi.mpr (heq ▸ ha _ (hin.owns hx)))
    | true =>
      refine Leads.pure hin ⟨?_, fun hp' => by rw [hp] at hp'; cases hp'⟩
      intro hf a ha
      exact hn.keeps_of_fixed hw (hf _ (by simp)) (ha _ (hin.owns hx))

theorem entailed_spec {m : Model} (hw : m.WellFormed) (hx : m.owns c.var = true) :
    ∃ r, c.entailed m = .ok r ∧ (r = .never → ∀ a, m.Allows a → ¬c.Holds a) := by
  obtain ⟨b, hb, hbi⟩ := hw.contains_spec hx c.constant
  obtain ⟨f, hf, hfi⟩ := Model.isInstantiated_spec hx
  simp only [entailed, hb, hf, ok_bind]
  cases b with
  | false => exact ⟨.always, rfl, fun h => by cases h⟩
  | true =>
    cases f with
    | false => exact ⟨.undecided, rfl, fun h => by cases h⟩
    | true => exact ⟨.never, rfl, fun _ a ha hne => hne (hw.eq_of_fixed (hfi.mp rfl) (ha _ hx) (hbi.mp rfl))⟩

end Unequal

namespace UnequalSum

variable {c : UnequalSum}

/-- The bounds rule out a sum that they leave on one side. -/
theorem excluded_spec {m : Model} (hw : m.WellFormed) (hx : m.owns c.x = true) (hy : m.owns c.y = true) :
    ∃ b, c.excluded m = .ok b ∧ (b = true → ∀ a, m.Allows a → c.Holds a) := by
  obtain ⟨lx, hlx, -, hlx'⟩ := hw.lb_spec hx
  obtain ⟨ly, hly, -, hly'⟩ := hw.lb_spec hy
  obtain ⟨ux, hux, -, hux'⟩ := hw.ub_spec hx
  obtain ⟨uy, huy, -, huy'⟩ := hw.ub_spec hy
  simp only [excluded, hlx, hly, hux, huy, ok_bind]
  by_cases hlow : c.constant < lx + ly
  · refine ⟨true, by simp [hlow], ?_⟩
    intro _ a ha
    have := hlx' _ (ha _ hx)
    have := hly' _ (ha _ hy)
    simp only [Holds]
    omega
  · refine ⟨decide (ux + uy < c.constant), by simp [hlow], ?_⟩
    intro hb a ha
    have := of_decide_eq_true hb
    have := hux' _ (ha _ hx)
    have := huy' _ (ha _ hy)
    simp only [Holds]
    omega

/-- The variables of the sum, one of which is fixed. -/
theorem removeSupport_spec [Tolerance] {start s : Scene} (hin : Within c.Holds start s) {fixed other : VarId}
    (hf : start.model.owns fixed = true) (ho : start.model.owns other = true) (hfix : s.model.Fixed fixed)
    (hp : s.passive = false) (hH : ∀ a, c.Holds a ↔ a fixed + a other ≠ c.constant) {scope : Array VarId}
    (hscope : other ∈ scope) :
    Leads c.Holds start (c.removeSupport fixed other) s fun _ s' => Decided c.Holds scope s' := by
  obtain ⟨r, hr, hsome, hnone⟩ := hin.wellFormed.value?_spec (hin.owns hf)
  refine Leads.ask_bind hin hr ?_
  cases r with
  | none => exact absurd hfix (hnone rfl)
  | some v =>
    have hv : ∀ a, s.model.Allows a → a fixed = v := fun a ha => ((hsome v rfl).2 _).mp (ha _ (hin.owns hf))
    by_cases hfits : ¬Value.Fits (c.constant - v)
    · simp only [Value.ofInt?, if_neg hfits]
      refine Leads.setPassive hin (.of_entailed ?_)
      intro a ha
      rw [hH, hv a ha]
      intro heq
      have := hin.wellFormed.fits (ha _ (hin.owns ho))
      rw [show a other = c.constant - v by omega] at this
      exact hfits this
    have hfits := Classical.not_not.mp hfits
    simp only [Value.ofInt?, if_pos hfits]
    refine Leads.narrow_bind hin ho ?_ ?_
    · intro a ha hallows heq
      have := hv a (hin.keeps a ha hallows)
      exact (hH a).mp ha (by omega)
    · intro changed m' hn hin'
      have hforbidden : ∀ a, m'.Allows a → a other ≠ c.constant - v → c.Holds a := by
        intro a ha hne
        rw [hH, hv a (hn.narrows.allows ha)]
        omega
      cases changed with
      | true =>
        refine Leads.setPassive hin' (.of_entailed ?_)
        exact fun a ha => hforbidden a ha (hn.keeps_of_changed rfl (ha _ (hin'.owns ho)))
      | false =>
        obtain ⟨b, hb, hbi⟩ := hin'.wellFormed.contains_spec (hin'.owns ho) (c.constant - v)
        refine Leads.ask_bind hin' hb ?_
        cases b with
        | false =>
          refine Leads.setPassive hin' (.of_entailed ?_)
          intro a ha
          refine hforbidden a ha fun heq => ?_
          exact Bool.false_ne_true (hbi.mpr (heq ▸ ha _ (hin'.owns ho)))
        | true =>
          refine Leads.pure hin' ⟨?_, fun hp' => by rw [hp] at hp'; cases hp'⟩
          intro hfixed a ha
          exact hforbidden a ha (hn.keeps_of_fixed hin.wellFormed (hfixed _ hscope) (ha _ (hin'.owns ho)))

theorem filter_spec [Tolerance] {start : Scene} (hw : start.model.WellFormed) (hx : start.model.owns c.x = true)
    (hy : start.model.owns c.y = true) (hp : start.passive = false) :
    Leads c.Holds start c.filter start fun _ s => Decided c.Holds #[c.x, c.y] s := by
  have hin : Within c.Holds start start := .refl hw
  obtain ⟨bx, hbx, hbxi⟩ := Model.isInstantiated_spec hx
  refine Leads.ask_bind hin hbx ?_
  cases bx with
  | true => exact removeSupport_spec hin hx hy (hbxi.mp rfl) hp (fun a => Iff.rfl) (by simp)
  | false =>
    obtain ⟨bY, hby, hbyi⟩ := Model.isInstantiated_spec hy
    refine Leads.ask_bind hin hby ?_
    cases bY with
    | true =>
      refine removeSupport_spec hin hy hx (hbyi.mp rfl) hp (fun a => ?_) (by simp)
      simp only [Holds, Int.add_comm]
    | false =>
      obtain ⟨b, hb, hentailed⟩ := excluded_spec hw hx hy
      refine Leads.ask_bind hin hb ?_
      cases b with
      | true => exact Leads.setPassive hin (.of_entailed (hentailed rfl))
      | false =>
        refine Leads.pure hin ⟨?_, fun hp' => by rw [hp] at hp'; cases hp'⟩
        intro hf
        exact absurd (hbxi.mpr (hf c.x (by simp))) Bool.false_ne_true

theorem entailed_spec {m : Model} (hw : m.WellFormed) (hx : m.owns c.x = true) (hy : m.owns c.y = true) :
    ∃ r, c.entailed m = .ok r ∧ (r = .never → ∀ a, m.Allows a → ¬c.Holds a) := by
  obtain ⟨b, hb, -⟩ := excluded_spec hw hx hy
  obtain ⟨rx, hrx, hsx, -⟩ := hw.value?_spec hx
  obtain ⟨ry, hry, hsy, -⟩ := hw.value?_spec hy
  simp only [entailed, hb, hrx, hry, ok_bind]
  cases b with
  | true => exact ⟨.always, rfl, fun h => by cases h⟩
  | false =>
    cases rx with
    | none => exact ⟨.undecided, rfl, fun h => by cases h⟩
    | some v =>
      cases ry with
      | none => exact ⟨.undecided, rfl, fun h => by cases h⟩
      | some w =>
        refine ⟨if v + w = c.constant then .never else .always, rfl, ?_⟩
        intro h a ha hne
        by_cases heq : v + w = c.constant
        · have h1 := ((hsx v rfl).2 _).mp (ha _ hx)
          have h2 := ((hsy w rfl).2 _).mp (ha _ hy)
          exact hne (by rw [h1, h2, heq])
        · rw [if_neg heq] at h
          cases h

end UnequalSum

end FiniteDomain
