import FiniteDomain.Proofs.Constraint.Soundness
import FiniteDomain.Proofs.Constraint.Still
import FiniteDomain.Proofs.Propagation.Lawful

/-!
# Runs on larger domains

A choice of values from the domains is *left alone* by a propagator if a run on these values removes none and ends in no
contradiction. Where all variables admit holes, the values are then kept by a run on the larger domains as well, and
that ends in no contradiction either. So the propagators cannot take from each other what all of them leave alone, in
whatever order they run.

A constraint that leaves the smaller domains alone either admits all that is left there or is still. For a still
disequality or nogood nothing is to be done on the larger domains. For a still distance or sum the partners that the
values have on the smaller domains are partners on the larger ones.

* `Constraint.Safe`: no sum leaves its range;
* `Constraint.run_keeps`: a run on the larger domains;
* `Constraint.spares_of_holds`: what is satisfied by all that is left is left alone.
-/

namespace FiniteDomain

open FiniteDomain.Filter

namespace Model

/-- All variables admit holes. -/
def Enumerated (m : Model) : Prop := ∀ x, m.owns x = true → m.isEnumerated x = .ok true

variable {m m' : Model}

theorem Enumerated.within (h : m.Enumerated) (hn : m.Within m') : m'.Enumerated := by
  intro x hx
  rw [hn.isEnumerated_eq]
  exact h x ((hn.owns_eq x).symm.trans hx)

/-- A value that cannot be removed is not there. -/
theorem Inert.not_has {x : VarId} {v : Int} (h : m.Inert x (.remove v)) (henum : m.Enumerated) : ¬m.Has x v :=
  fun hv => not_target_remove (henum x hv.owns) (h v hv)

theorem Within.allows (h : m.Within m') {a : Assignment} (ha : m'.Allows a) : m.Allows a :=
  fun x hx => h.has x _ (ha x ((h.owns_eq x).trans hx))

theorem Within.unfixed (h : m.Within m') (hw : m.WellFormed) {x : VarId} (hx : ¬m'.Fixed x) : ¬m.Fixed x :=
  fun hf => hx (h.fixed hw hf)

/-- The partners of the values of a variable, taken for assignments. -/
theorem Within.exists_partner (h : m.Within m') {a b : VarId} (ha : m.owns a = true) {R : Int → Int → Prop}
    (hR : ∀ v, m'.Has a v → ∃ w, m'.Has b w ∧ R v w) :
    ∀ f, m'.Allows f → m.Allows f → ∃ g, m'.Allows g ∧ m.Allows g ∧ R (f a) (g b) := by
  intro f hf _
  obtain ⟨w, hw, hfw⟩ := hR _ (hf a ((h.owns_eq a).trans ha))
  obtain ⟨g, hg, rfl⟩ := h.wellFormed.exists_allows_eq hw
  exact ⟨g, hg, h.allows hg, hfw⟩

end Model

namespace Filter

/-- What leads somewhere for some assignments does so for fewer. -/
theorem Leads.fewer [Tolerance] {α : Type} {H H' : Assignment → Prop} {start s : Scene} {f : Filter α}
    {Q : α → Scene → Prop} (h : Leads H start f s Q) (hsub : ∀ a, H' a → H a) : Leads H' start f s Q := by
  refine Activity.Quiet.mono h ?_
  intro r hr
  obtain ⟨r, t⟩ := r
  cases r with
  | ok x =>
    obtain ⟨⟨hself, hnarrows, hkeeps⟩, hQ⟩ := hr
    exact ⟨⟨hself, hnarrows, fun a ha => hkeeps a (hsub a ha)⟩, hQ⟩
  | error c => exact ⟨hr.1, fun a ha => hr.2 a (hsub a ha)⟩

/-- Smaller domains that were kept are in the domains that are left. -/
theorem Within.encloses {start s : Scene} {inner : Model} (h : Within inner.Allows start s)
    (hn : start.model.Within inner) : s.model.Within inner := by
  refine ⟨hn.vars.trans h.narrows.vars_eq.symm, hn.wellFormed, fun x v hv => ?_⟩
  obtain ⟨a, ha, rfl⟩ := hn.wellFormed.exists_allows_eq hv
  exact h.keeps a ha (hn.allows ha) x (h.owns ((hn.owns_eq x).symm.trans hv.owns))

/-- What is said of a pass that changes nothing holds of a model that it leaves. -/
theorem Answers.passed [Tolerance] {H : Assignment → Prop} {f : Filter Bool} {m : Model} {l : List VarId}
    {P : Model → Prop} (h : f.Answers m false)
    (hf : Leads H { self := ⟨0⟩, model := m } f { self := ⟨0⟩, model := m }
      (Passes l P { self := ⟨0⟩, model := m })) : P m := by
  obtain ⟨after, hrun⟩ := h { self := ⟨0⟩, model := m } rfl #[]
  exact (Leads.of_run hf hrun).2 rfl

end Filter

/-! ### Disequalities -/

namespace UnequalSum

variable {c : UnequalSum}

/-- Either all that is left satisfies the disequality, or neither variable is fixed. -/
theorem Still.holds_or_free {m : Model} (h : c.Still m) (henum : m.Enumerated) (hx : m.owns c.x = true)
    (hy : m.owns c.y = true) : (∀ a, m.Allows a → c.Holds a) ∨ ¬m.Fixed c.x ∧ ¬m.Fixed c.y := by
  by_cases hfx : m.Fixed c.x
  · refine .inl fun a ha heq => (h.1 hfx _ (ha _ hx)).not_has henum ?_
    rw [show c.constant - a c.x = a c.y by omega]
    exact ha _ hy
  · by_cases hfy : m.Fixed c.y
    · refine .inl fun a ha heq => (h.2 hfx hfy _ (ha _ hy)).not_has henum ?_
      rw [show c.constant - a c.y = a c.x by omega]
      exact ha _ hx
    · exact .inr ⟨hfx, hfy⟩

/-- Where neither variable is fixed a run changes nothing. -/
theorem filter_of_free [Tolerance] {H : Assignment → Prop} {start : Scene} (hw : start.model.WellFormed)
    (hx : start.model.owns c.x = true) (hy : start.model.owns c.y = true) (hfx : ¬start.model.Fixed c.x)
    (hfy : ¬start.model.Fixed c.y) : Leads H start c.filter start fun _ _ => True := by
  have hin : Within H start start := .refl hw
  obtain ⟨bx, hbx, hbxi⟩ := Model.isInstantiated_spec hx
  obtain ⟨bY, hby, hbyi⟩ := Model.isInstantiated_spec hy
  obtain rfl : bx = false := Bool.eq_false_iff.mpr fun h => hfx (hbxi.mp h)
  obtain rfl : bY = false := Bool.eq_false_iff.mpr fun h => hfy (hbyi.mp h)
  refine Leads.ask_bind hin hbx (Leads.ask_bind hin hby ?_)
  obtain ⟨b, hb, -⟩ := excluded_spec hw hx hy
  refine Leads.ask_bind hin hb ?_
  cases b with
  | true => exact Leads.setPassive hin trivial
  | false => exact Leads.pure hin trivial

end UnequalSum

/-! ### Distances -/

namespace Distance

variable {c : Distance} {inner : Model}

/-- Where neither variable is fixed a run for a disequality changes nothing. -/
theorem runNe_of_free [Tolerance] {H : Assignment → Prop} {start : Scene} (hw : start.model.WellFormed)
    (hx : start.model.owns c.x = true) (hy : start.model.owns c.y = true) (hfx : ¬start.model.Fixed c.x)
    (hfy : ¬start.model.Fixed c.y) : Leads H start c.runNe start fun _ _ => True := by
  have hin : Within H start start := .refl hw
  rw [runNe]
  split
  · exact Leads.setPassive hin trivial
  obtain ⟨rx, hrx, hsx, -⟩ := hw.value?_spec hx
  obtain ⟨ry, hry, hsy, -⟩ := hw.value?_spec hy
  cases rx with
  | some v => exact absurd (hsx v rfl).1 hfx
  | none =>
    refine Leads.ask_bind hin hrx ?_
    cases ry with
    | some v => exact absurd (hsy v rfl).1 hfy
    | none => exact Leads.ask_bind hin hry (Leads.pure hin trivial)

theorem setPassiveIfEntailed_leads [Tolerance] {H : Assignment → Prop} {start s : Scene} (hin : Within H start s)
    (hx : start.model.owns c.x = true) (hy : start.model.owns c.y = true) :
    Leads H start c.setPassiveIfEntailed s fun _ _ => True :=
  (setPassiveIfEntailed_stills (P := fun _ => True) hin hx hy trivial).mono fun _ _ _ _ => trivial

theorem admitsHoles_of_enumerated (henum : inner.Enumerated) (hx : inner.owns c.x = true) (hy : inner.owns c.y = true)
    (hex : inner.isEnumerated c.x = .ok c.enumerated.1) (hey : inner.isEnumerated c.y = .ok c.enumerated.2)
    (a : VarId) : c.admitsHoles a = true := by
  rw [henum _ hx, Except.ok.injEq] at hex
  rw [henum _ hy, Except.ok.injEq] at hey
  rw [admitsHoles, ← hex, ← hey, ite_self]

theorem Still.keeps_eq [Tolerance] (hr : c.relation = .eq) {start : Scene} (h : c.Still inner)
    (hw : start.model.WellFormed) (hn : start.model.Within inner) (henum : inner.Enumerated)
    (hx : start.model.owns c.x = true) (hy : start.model.owns c.y = true)
    (hex : inner.isEnumerated c.x = .ok c.enumerated.1) (hey : inner.isEnumerated c.y = .ok c.enumerated.2) :
    Leads inner.Allows start c.runEq start fun _ _ => True := by
  have hin : Within inner.Allows start start := .refl hw
  have hx' : inner.owns c.x = true := (hn.owns_eq _).trans hx
  have hy' : inner.owns c.y = true := (hn.owns_eq _).trans hy
  simp only [Still, hr] at h
  obtain ⟨hk, hstill⟩ := h
  have hholes := admitsHoles_of_enumerated henum hx' hy' hex hey
  obtain ⟨⟨-, hpx⟩, -, hpy⟩ := hstill.passed (l := [c.x, c.y]) (Leads.both (H := Nowhere) (.refl hn.wellFormed)
      (fun s hs => filterEq_spec hs hx' hy' mem_both_left hk fun _ h _ => h.elim)
      (fun s hs => filterEq_spec hs hy' hx' mem_both_right hk fun _ h _ => h.elim))
  simp only [runEq, if_neg (show ¬c.constant < 0 by omega)]
  refine repeatPass_leads hin hx hy
    (fun s hs => filterEq_spec hs hx hy mem_both_left hk
      (hn.exists_partner hx (hpx (hholes _) (henum _ hx'))))
    (fun s hs => filterEq_spec hs hy hx mem_both_right hk
      (hn.exists_partner hy (hpy (hholes _) (henum _ hy')))) fun s hs _ _ _ => ?_
  obtain ⟨fx, hfx, -⟩ := Model.isInstantiated_spec (hs.owns hx)
  obtain ⟨fy, hfy, -⟩ := Model.isInstantiated_spec (hs.owns hy)
  refine Leads.ask_bind hs hfx (Leads.ask_bind hs hfy ?_)
  split
  · exact Leads.setPassive hs trivial
  · exact Leads.pure hs trivial

theorem Still.keeps_lt [Tolerance] (hr : c.relation = .lt) {start : Scene} (h : c.Still inner)
    (hw : start.model.WellFormed) (hn : start.model.Within inner) (hx : start.model.owns c.x = true)
    (hy : start.model.owns c.y = true) : Leads inner.Allows start c.runLt start fun _ _ => True := by
  have hin : Within inner.Allows start start := .refl hw
  have hx' : inner.owns c.x = true := (hn.owns_eq _).trans hx
  have hy' : inner.owns c.y = true := (hn.owns_eq _).trans hy
  simp only [Still, hr] at h
  obtain ⟨hk, hstill⟩ := h
  obtain ⟨hpx, hpy⟩ := hstill.passed (l := [c.x, c.y]) (Leads.both (H := Nowhere) (.refl hn.wellFormed)
      (fun s hs => filterLt_spec hs hx' hy' mem_both_left hk fun _ h _ => h.elim)
      (fun s hs => filterLt_spec hs hy' hx' mem_both_right hk fun _ h _ => h.elim))
  simp only [runLt, if_neg (show ¬c.constant ≤ 0 by omega)]
  refine repeatPass_leads hin hx hy
    (fun s hs => filterLt_spec hs hx hy mem_both_left hk fun f hf ha =>
      ⟨hn.exists_partner hx (fun v hv => (hpx v hv).1) f hf ha, hn.exists_partner hx (fun v hv => (hpx v hv).2) f hf ha⟩)
    (fun s hs => filterLt_spec hs hy hx mem_both_right hk fun f hf ha =>
      ⟨hn.exists_partner hy (fun v hv => (hpy v hv).1) f hf ha, hn.exists_partner hy (fun v hv => (hpy v hv).2) f hf ha⟩)
    fun s hs _ _ _ => setPassiveIfEntailed_leads hs hx hy

theorem Still.keeps_gt [Tolerance] (hr : c.relation = .gt) {start : Scene} (h : c.Still inner)
    (hw : start.model.WellFormed) (hn : start.model.Within inner) (henum : inner.Enumerated)
    (hx : start.model.owns c.x = true) (hy : start.model.owns c.y = true) :
    Leads inner.Allows start c.runGt start fun _ _ => True := by
  have hin : Within inner.Allows start start := .refl hw
  have hx' : inner.owns c.x = true := (hn.owns_eq _).trans hx
  have hy' : inner.owns c.y = true := (hn.owns_eq _).trans hy
  simp only [Still, hr] at h
  obtain ⟨hk, hstill⟩ := h
  obtain ⟨hpx, hpy⟩ := hstill.passed (l := [c.x, c.y]) (Leads.both (H := Nowhere) (.refl hn.wellFormed)
      (fun s hs => filterGt_spec hs hx' hy' mem_both_left hk fun _ h _ => h.elim)
      (fun s hs => filterGt_spec hs hy' hx' mem_both_right hk fun _ h _ => h.elim))
  simp only [runGt, if_neg (show ¬c.constant < 0 by omega)]
  exact repeatPass_leads hin hx hy
    (fun s hs => filterGt_spec hs hx hy mem_both_left hk (hn.exists_partner hx fun v hv => hpx v ⟨hv, .inl (henum _ hx')⟩))
    (fun s hs => filterGt_spec hs hy hx mem_both_right hk (hn.exists_partner hy fun v hv => hpy v ⟨hv, .inl (henum _ hy')⟩))
    fun s hs _ _ _ => setPassiveIfEntailed_leads hs hx hy

/-- A still distance is kept on larger domains by the partners that the values have. -/
theorem Still.keeps [Tolerance] {start : Scene} (h : c.Still inner) (hw : start.model.WellFormed)
    (hn : start.model.Within inner) (henum : inner.Enumerated) (hx : start.model.owns c.x = true)
    (hy : start.model.owns c.y = true) (hex : inner.isEnumerated c.x = .ok c.enumerated.1)
    (hey : inner.isEnumerated c.y = .ok c.enumerated.2) :
    Leads inner.Allows start c.filter start fun _ _ => True := by
  rw [filter]
  cases hr : c.relation with
  | eq => exact h.keeps_eq hr hw hn henum hx hy hex hey
  | ne =>
    have hx' : inner.owns c.x = true := (hn.owns_eq _).trans hx
    have hy' : inner.owns c.y = true := (hn.owns_eq _).trans hy
    simp only [Still, hr, henum _ hx', henum _ hy', Except.ok.injEq, Bool.true_eq_false, and_false, imp_false] at h
    exact runNe_of_free hw hx hy (hn.unfixed hw h.1) (hn.unfixed hw h.2)
  | lt => exact h.keeps_lt hr hw hn hx hy
  | gt => exact h.keeps_gt hr hw hn henum hx hy

end Distance

/-! ### Sums -/

namespace Linear

variable {c : Linear} {inner : Model}

/-- On larger domains the least sum is less, and so is what it leaves when a term is taken out. -/
theorem boundsFrom_le {m m' : Model} (hw : m.WellFormed) (hn : m.Within m')
    {sign low high least greatest low' high' least' greatest' : Int} {terms : List Term}
    (howns : ∀ t ∈ terms, m.owns t.var = true) (h : boundsFrom m sign low high terms = .ok (some (least, greatest)))
    (h' : boundsFrom m' sign low' high' terms = .ok (some (least', greatest'))) :
    least + low' ≤ least' + low ∧ ∀ t ∈ terms, ∃ u, m'.Has t.var u ∧ ∀ v, m.Has t.var v →
      least + low' + sign * t.coefficient * u ≤ least' + low + sign * t.coefficient * v := by
  induction terms generalizing low high low' high' with
  | nil =>
    cases h
    cases h'
    exact ⟨Int.le_of_eq (Int.add_comm _ _), by simp⟩
  | cons t rest ih =>
    obtain ⟨hx, howns⟩ := List.forall_mem_cons.mp howns
    obtain ⟨l, g, hr, hbetween, -⟩ := rangeIn_spec hw hx (sign * t.coefficient)
    obtain ⟨l', g', hr', -, ⟨u, hu, hlu⟩, -⟩ :=
      rangeIn_spec hn.wellFormed ((hn.owns_eq _).trans hx) (sign * t.coefficient)
    rw [boundsFrom, hr, ok_bind] at h
    rw [boundsFrom, hr', ok_bind] at h'
    simp only at h h'
    split at h
    · rename_i hlow _
      obtain ⟨-, rfl⟩ := Sum.ofInt?_eq_some_iff.mp hlow
      split at h'
      · rename_i hlow' _
        obtain ⟨-, rfl⟩ := Sum.ofInt?_eq_some_iff.mp hlow'
        obtain ⟨hle, hrest⟩ := ih howns h h'
        have hlu' := (hbetween u (hn.has _ u hu)).1
        refine ⟨by omega, List.forall_mem_cons.mpr ⟨⟨u, hu, fun v hv => ?_⟩, fun t' ht' => ?_⟩⟩
        · have := (hbetween v hv).1
          omega
        · obtain ⟨u', hu', hvalues⟩ := hrest t' ht'
          refine ⟨u', hu', fun v hv => ?_⟩
          have := hvalues v hv
          omega
      · cases h'
    · cases h

/-- A still sum is kept on larger domains, as the room above the least sum is greater there. -/
theorem Still.keeps [Tolerance] {start : Scene} (h : c.Still inner) (hw : start.model.WellFormed)
    (hn : start.model.Within inner) (hne : ∀ t ∈ c.terms, t.coefficient ≠ 0)
    (hfit : ∀ t ∈ c.terms, Value.Fits t.coefficient) (howns : ∀ t ∈ c.terms, start.model.owns t.var = true)
    (hrange : c.InRange start.model) (hroom : Fault.overflow.Tolerated ∨ c.HasRoom start.model) :
    Leads inner.Allows start c.filter start fun _ _ => True := by
  have howns' : ∀ t ∈ c.terms, inner.owns t.var = true := fun t ht => (hn.owns_eq _).trans (howns t ht)
  have htight := h.passed (pass_spec (.refl hn.wellFormed) hne howns' (hroom.imp_right fun h => h.of_narrower hn.has))
  refine filter_leads hw howns (P := fun m => ∀ side ∈ c.sides, c.Tight side m)
    (fun s hs => pass_leads hs fun side hside s hs => ?_) fun s r hs _ _ _ => ?_
  · refine filterSide_leads hs hside hne howns (hroom.imp_right fun h => h.of_narrower hs.narrows.has) ?_
    intro least greatest hb a ha hallows
    obtain ⟨least', greatest', hb'⟩ := hrange.of_narrower hw hn.wellFormed hn.has howns howns' side hside
    obtain ⟨hle, hfits⟩ := htight side hside least' greatest' hb'
    obtain ⟨hless, hrest⟩ := boundsFrom_le hs.wellFormed (hs.encloses hn) (fun t ht => hs.owns (howns t ht)) hb hb'
    refine ⟨by omega, fun t ht v hv => ?_⟩
    obtain ⟨u, hu, hvalues⟩ := hrest t ht
    have h1 := hfits (termsFit hn.wellFormed hfit side) t ht (a t.var) u (ha _ (howns' t ht)) hu
    have h2 := hvalues v hv
    omega
  · split
    · exact Leads.setPassive hs trivial
    · exact Leads.pure hs trivial

end Linear

/-! ### Nogoods -/

/-- A literal is open where its variable has its value among others. -/
theorem Literal.truth_eq_none_iff {l : Literal} {m : Model} (hw : m.WellFormed) (hx : m.owns l.var = true) :
    l.truth m = .ok none ↔ m.Has l.var l.value ∧ ¬m.Fixed l.var := by
  obtain ⟨r, hr, hsome, hnone⟩ := hw.value?_spec hx
  obtain ⟨b, hb, hbi⟩ := hw.contains_spec hx l.value
  rw [truth_eq_of hr hb]
  constructor
  · intro h
    by_cases hv : r = some l.value
    · rw [if_pos hv] at h
      cases h
    rw [if_neg hv] at h
    cases b with
    | false => cases h
    | true =>
      have hhas := hbi.mp rfl
      refine ⟨hhas, hnone (Option.eq_none_iff_forall_ne_some.mpr fun v hr => hv ?_)⟩
      rw [hr, ((hsome v hr).2 _).mp hhas]
  · rintro ⟨hhas, hfree⟩
    rw [if_neg fun hv => hfree (hsome _ hv).1, if_pos (hbi.mpr hhas)]

namespace Nogood

variable {c : Nogood} {m inner : Model}

/-- The literals that are waited for are open. -/
theorem truth_of_waiting {literals : List Literal} {unsettled : List Literal}
    (h : standing m literals = .ok (.waiting unsettled)) : ∀ l ∈ unsettled, l.truth m = .ok none := by
  induction literals generalizing unsettled with
  | nil =>
    cases h
    simp
  | cons l rest ih =>
    obtain ⟨t, ht, h⟩ := bind_eq_ok.mp h
    match t, h with
    | some true, h => exact ih h
    | none, h =>
      obtain ⟨st, hst, h⟩ := bind_eq_ok.mp h
      match st, h with
      | .waiting unsettled', h =>
        cases h
        exact List.forall_mem_cons.mpr ⟨ht, ih hst⟩

/-- Literals that are waited for on smaller domains are waited for on larger ones. -/
theorem waiting_of_within (hw : m.WellFormed) (hn : m.Within inner) {literals unsettled : List Literal}
    (hx : ∀ l ∈ literals, m.owns l.var = true) (h : standing inner literals = .ok (.waiting unsettled))
    {st : Standing} (hst : standing m literals = .ok st) :
    st = .satisfied ∨ ∃ more, st = .waiting more ∧ unsettled.length ≤ more.length := by
  induction literals generalizing unsettled st with
  | nil =>
    cases h
    cases hst
    exact .inr ⟨[], rfl, Nat.le_refl _⟩
  | cons l rest ih =>
    obtain ⟨hl, hx⟩ := List.forall_mem_cons.mp hx
    obtain ⟨t, ht, h⟩ := bind_eq_ok.mp h
    obtain ⟨t₀, ht₀, hst⟩ := bind_eq_ok.mp hst
    -- what is open on the smaller domains is open
    have hopen : t = none → t₀ = none := by
      rintro rfl
      obtain ⟨hhas, hfree⟩ := (Literal.truth_eq_none_iff hn.wellFormed ((hn.owns_eq _).trans hl)).mp ht
      have := (Literal.truth_eq_none_iff hw hl).mpr ⟨hn.has _ _ hhas, hn.unfixed hw hfree⟩
      exact Except.ok.inj (ht₀.symm.trans this)
    match t₀, hst with
    | some false, hst =>
      cases hst
      exact .inl rfl
    | some true, hst =>
      match t, h with
      | some true, h => exact ih hx h hst
      | none, _ => cases hopen rfl
    | none, hst =>
      obtain ⟨st₀, hst₀, hst⟩ := bind_eq_ok.mp hst
      obtain ⟨unsettled', h', hle⟩ : ∃ unsettled', standing inner rest = .ok (.waiting unsettled') ∧
          unsettled.length ≤ unsettled'.length + 1 := by
        match t, h with
        | some true, h => exact ⟨unsettled, h, Nat.le_succ _⟩
        | none, h =>
          obtain ⟨st', h', h⟩ := bind_eq_ok.mp h
          match st', h with
          | .waiting unsettled', h =>
            cases h
            exact ⟨unsettled', h', Nat.le_refl _⟩
      rcases ih hx h' hst₀ with rfl | ⟨more, rfl, hmore⟩
      · cases hst
        exact .inl rfl
      · cases hst
        exact .inr ⟨l :: more, rfl, by simp only [List.length_cons]; omega⟩

/-- Either all that is left satisfies the nogood, or two literals at least are waited for. -/
theorem Still.holds_or_waits (h : c.Still m) (hw : m.WellFormed) (henum : m.Enumerated)
    (hx : ∀ l ∈ c.literals, m.owns l.var = true) : (∀ a, m.Allows a → c.Holds a) ∨
      ∃ unsettled, standing m c.literals = .ok (.waiting unsettled) ∧ 2 ≤ unsettled.length := by
  obtain ⟨st, hst, hne, hinert⟩ := h
  obtain ⟨st', hst', htells⟩ := standing_spec hw hx
  cases hst.symm.trans hst'
  match st, hst, hne, hinert, htells with
  | .satisfied, _, _, _, htells =>
    obtain ⟨l, hl, hnone⟩ := htells
    exact .inl fun a ha hall => hnone a ha (hall l hl)
  | .waiting [], _, hne, _, _ => exact absurd rfl hne
  | .waiting [l], hst, _, hinert, htells =>
    have hl := hx l (htells.1 l List.mem_cons_self).1
    have hopen := (Literal.truth_eq_none_iff hw hl).mp (truth_of_waiting hst l List.mem_cons_self)
    have hstuck := hinert l rfl
    cases hequal : l.equal with
    | true =>
      simp only [Literal.falsify, hequal, if_true] at hstuck
      exact absurd hopen.1 (hstuck.not_has henum)
    | false =>
      simp only [Literal.falsify, hequal, Bool.false_eq_true, if_false] at hstuck
      refine absurd (hw.fixed_of_unique hl (v := l.value) fun w hw' => ?_) hopen.2
      exact (hstuck w hw').keeps_of_enumerated (henum _ hl)
  | .waiting (l :: l' :: rest), hst, _, _, _ => exact .inr ⟨_, hst, by simp⟩

/-- Where two literals are waited for a run changes nothing. -/
theorem filter_of_waiting [Tolerance] {H : Assignment → Prop} {start : Scene} (hw : start.model.WellFormed)
    (hx : ∀ l ∈ c.literals, start.model.owns l.var = true) (h : ∀ st, standing start.model c.literals = .ok st →
      st = .satisfied ∨ ∃ more, st = .waiting more ∧ 2 ≤ more.length) :
    Leads H start c.filter start fun _ _ => True := by
  have hin : Within H start start := .refl hw
  obtain ⟨st, hst, -⟩ := standing_spec hw hx
  refine Leads.ask_bind hin hst ?_
  match st, h st hst with
  | .satisfied, _ => exact Leads.setPassive hin trivial
  | .waiting [], h => simp at h
  | .waiting [l], h => simp at h
  | .waiting (l :: l' :: rest), _ => exact Leads.pure hin trivial

end Nogood

/-! ### All constraints -/

namespace Constraint

/-- No sum of a linear constraint leaves the range of sums, and neither does what the constant leaves above it; the
coefficients are values. -/
structure Safe (c : Constraint) (m : Model) : Prop where
  inRange : c.InRange m
  hasRoom : c.HasRoom m
  coefficients : ∀ l, c = linear l → ∀ t ∈ l.terms, Value.Fits t.coefficient

variable {c : Constraint} {m inner : Model}

theorem Safe.of_narrower (h : c.Safe m) (hs : c.Seated m) (hw : m.WellFormed) (hn : m.Within inner) : c.Safe inner := by
  refine ⟨h.inRange.of_narrower hs.scope hw hn.wellFormed (fun x hx => (hn.owns_eq x).trans hx) hn.has, ?_,
    h.coefficients⟩
  match c, h with
  | unequal _, _ | unequalSum _, _ | distance _, _ | nogood _, _ => exact trivial
  | linear c, h => exact Linear.HasRoom.of_narrower h.hasRoom hn.has

theorem suits_of_safe [Tolerance] (hs : c.Seated m) (h : c.Safe m) (hw : m.WellFormed) : c.Suits m :=
  ⟨hs.scope, hs.proper, h.inRange.mirrored hs.scope hw, .inr h.hasRoom⟩

/-- Where all variables admit holes nothing is out of reach of a disequality. -/
theorem clear_of_enumerated (henum : m.Enumerated) : c.Clear m := by
  have hnone : ∀ x v, ¬m.Edge x v := by
    intro x v h
    have := henum x (Model.owns_of_isEnumerated h.1)
    rw [h.1] at this
    cases this
  match c with
  | unequal c => exact hnone _ _
  | distance c => exact fun _ => ⟨fun v w _ h => (hnone _ _ h).elim, fun v w _ h => (hnone _ _ h).elim⟩
  | unequalSum _ | linear _ | nogood _ => exact trivial

/-- What leaves smaller domains alone is still there, or satisfied by all that is left there. -/
theorem still_or_holds (hw : m.WellFormed) (hs : c.Seated m) (h : c.Safe m) (hspares : c.propagator.run.Spares m) :
    c.Still m ∨ ∀ a, m.Allows a → c.Admits a := by
  obtain ⟨s, after, hrun, hsame⟩ := hspares ⟨0⟩ #[]
  cases hp : s.passive with
  | false => exact .inl (hsame ▸ run_stills hw hs hrun hp)
  | true =>
    let := Tolerance.strict
    have hdecided := Leads.of_run (filter_spec { self := ⟨0⟩, model := m } hw (suits_of_safe hs h hw) rfl) hrun
    exact .inr (hsame ▸ hdecided.passive hp)

/-- **What a propagator leaves alone it keeps on larger domains**, if all variables admit holes. -/
theorem run_keeps [Tolerance] {start : Scene} (hw : start.model.WellFormed) (hn : start.model.Within inner)
    (henum : start.model.Enumerated) (hs : c.Seated start.model) (h : c.Safe start.model) (hp : start.passive = false)
    (hspares : c.propagator.run.Spares inner) : Leads inner.Allows start c.propagator.run start fun _ _ => True := by
  have hs' := hs.within hn
  have hadmits : (∀ a, inner.Allows a → c.Admits a) →
      Leads inner.Allows start c.propagator.run start fun _ _ => True := fun hall =>
    ((filter_spec start hw (suits_of_safe hs h hw) hp).fewer hall).mono fun _ _ _ _ => trivial
  rcases still_or_holds hn.wellFormed hs' (h.of_narrower hs hw hn) hspares with hstill | hall
  · have henum' := henum.within hn
    match c, hs, hs', h, hstill, hadmits with
    | unequal c, _, hs', _, hstill, _ =>
      have := henum' c.var (hs'.scope c.var (by simp [propagator, Unequal.propagator]))
      rw [hstill.2] at this
      cases this
    | unequalSum c, hs, hs', _, hstill, hadmits =>
      have hx : c.x ∈ (unequalSum c).propagator.scope := by simp [propagator, UnequalSum.propagator]
      have hy : c.y ∈ (unequalSum c).propagator.scope := by simp [propagator, UnequalSum.propagator]
      rcases UnequalSum.Still.holds_or_free hstill henum' (hs'.scope _ hx) (hs'.scope _ hy) with hall | ⟨hfx, hfy⟩
      · exact hadmits hall
      · exact UnequalSum.filter_of_free hw (hs.scope _ hx) (hs.scope _ hy) (hn.unfixed hw hfx) (hn.unfixed hw hfy)
    | distance c, hs, hs', _, hstill, _ =>
      exact Distance.Still.keeps hstill hw hn henum' (hs.scope c.x (by simp [propagator, Distance.propagator]))
        (hs.scope c.y (by simp [propagator, Distance.propagator])) hs'.informed.1 hs'.informed.2
    | linear c, hs, _, h, hstill, _ =>
      exact Linear.Still.keeps hstill hw hn hs.proper (h.coefficients c rfl) (fun t ht => hs.scope _ (mem_linear_scope ht))
        h.inRange (.inr h.hasRoom)
    | nogood c, hs, hs', _, hstill, hadmits =>
      have hx : ∀ l ∈ c.literals, start.model.owns l.var = true := fun l hl => hs.scope _ (Nogood.mem_scope hl)
      have hx' : ∀ l ∈ c.literals, inner.owns l.var = true := fun l hl => hs'.scope _ (Nogood.mem_scope hl)
      rcases Nogood.Still.holds_or_waits hstill hn.wellFormed henum' hx' with hall | ⟨unsettled, hwaits, htwo⟩
      · exact hadmits hall
      · refine Nogood.filter_of_waiting hw hx fun st hst => ?_
        refine (Nogood.waiting_of_within hw hn hx hwaits hst).imp_right ?_
        rintro ⟨more, rfl, hmore⟩
        exact ⟨more, rfl, Nat.le_trans htwo hmore⟩
  · exact hadmits hall

/-- What is satisfied by all that is left is left alone. -/
theorem spares_of_holds (hw : m.WellFormed) (hs : c.Seated m) (hroom : c.HasRoom m)
    (hall : ∀ a, m.Allows a → c.Holds a) : c.propagator.run.Spares m := by
  intro id before
  obtain ⟨⟨r, s⟩, after, hrun, hsound⟩ := (c.run_sound hw hs.scope hs.proper id before).resolve_right
    fun h => h.1 hroom
  have hchain : Model.Chain (.propagator id) m s.model :=
    (@Activity.Gives.yields _ .worldly _ _ (c.lawful.run _) _ _ _ hrun).2
  have hkept : s.model = m := by
    refine hchain.eq_of_kept hw fun x v hv => ?_
    obtain ⟨a, ha, rfl⟩ := hw.exists_allows_eq hv
    exact hsound.keeps a ha (hall a ha) x ((hsound.within.owns_eq x).trans hv.owns)
  cases r with
  | ok u => exact ⟨s, after, hrun, hkept⟩
  | error e =>
    obtain ⟨a, ha⟩ := hw.exists_allows
    exact absurd (hall a ha) (hsound.refutes e rfl a ha)

end Constraint

end FiniteDomain
