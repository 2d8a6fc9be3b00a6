import FiniteDomain.Proofs.Constraint.Intervals
import FiniteDomain.Proofs.Constraint.Monotone

/-!
# What is reported of a constraint

A propagator may be asked whether its constraint is known to be satisfied or violated, whatever values the variables
take. For each kind of constraint it is told here on which domains that is *open*. This is so of a model if it is so of
a narrower one, and never where all variables are fixed, unless a sum leaves its range. So a report that has been made
once is made ever after.

* `Open`: the domains on which nothing is reported;
* `entailed_reports`: what is reported is so, and something is reported where nothing is open;
* `entailed_settles`: reports are right, are made at the latest when all variables are fixed, and stay.
-/

namespace FiniteDomain

/-- What is reported of an assertion about the assignments of a model is so, and nothing is reported just if the
condition holds. -/
structure Entailment.Reports (e : Entailment) (m : Model) (H : Assignment → Prop) (P : Prop) : Prop where
  always : e = .always → ∀ a, m.Allows a → H a
  never : e = .never → ∀ a, m.Allows a → ¬H a
  undecided : e = .undecided ↔ P

namespace Entailment.Reports

variable {m : Model} {H : Assignment → Prop} {P : Prop}

theorem of_always (h : ∀ a, m.Allows a → H a) (hP : ¬P) : Reports .always m H P :=
  ⟨fun _ => h, by simp, by simpa using hP⟩

theorem of_never (h : ∀ a, m.Allows a → ¬H a) (hP : ¬P) : Reports .never m H P :=
  ⟨by simp, fun _ => h, by simpa using hP⟩

theorem of_undecided (hP : P) : Reports .undecided m H P := ⟨by simp, by simp, by simpa using hP⟩

end Entailment.Reports

namespace Model

/-- A model comes about from another by narrowings that succeed, whatever their causes. -/
inductive Reduced (m : Model) : Model → Prop
  | refl : Reduced m m
  | step {m' m'' : Model} {x : VarId} {μ : Mutation} {cause : Cause} {changed : Bool} (h : Reduced m m')
      (ha : m'.apply x μ cause = .ok (.ok changed, m'')) : Reduced m m''

theorem Reduced.within {m m' : Model} (h : m.Reduced m') (hw : m.WellFormed) : m.Within m' := by
  induction h with
  | refl => exact .refl hw
  | step _ ha ih =>
    obtain ⟨_, -, -, hrecounts⟩ := apply_recounts ih.wellFormed ha
    exact ih.trans hrecounts.toWithin

/-- Some two values of two variables are related. -/
def Meet (m : Model) (x y : VarId) (R : Int → Int → Prop) : Prop := ∃ v w, m.Has x v ∧ m.Has y w ∧ R v w

variable {m m' : Model} {x y : VarId}

theorem Meet.of_within {R : Int → Int → Prop} (h : m'.Meet x y R) (hn : m.Within m') : m.Meet x y R := by
  obtain ⟨v, w, hv, hw, hR⟩ := h
  exact ⟨v, w, hn.has x v hv, hn.has y w hw, hR⟩

/-- Two fixed variables have one pair of values. -/
theorem WellFormed.exists_pair (hw : m.WellFormed) (hx : m.Fixed x) (hy : m.Fixed y) :
    ∃ v w, ∀ R, m.Meet x y R → R v w := by
  obtain ⟨v, hv⟩ := hw.exists_has hx.owns
  obtain ⟨w, hv'⟩ := hw.exists_has hy.owns
  refine ⟨v, w, ?_⟩
  rintro R ⟨v', w', h1, h2, hR⟩
  rwa [hw.eq_of_fixed hx hv h1, hw.eq_of_fixed hy hv' h2]

end Model

/-! ### Disequalities -/

/-- The constant is one of several values. -/
def Unequal.Open (c : Unequal) (m : Model) : Prop := m.Has c.var c.constant ∧ ¬m.Fixed c.var

theorem Unequal.entailed_reports {c : Unequal} {m : Model} (hw : m.WellFormed) (hx : m.owns c.var = true) :
    ∃ e, c.entailed m = .ok e ∧ e.Reports m c.Holds (c.Open m) := by
  obtain ⟨b, hb, hbi⟩ := hw.contains_spec hx c.constant
  obtain ⟨f, hf, hfi⟩ := Model.isInstantiated_spec hx
  simp only [entailed, hb, hf, ok_bind, Open, ← hbi, ← hfi]
  cases b with
  | false =>
    refine ⟨.always, rfl, .of_always (fun a ha heq => ?_) (by simp)⟩
    exact Bool.false_ne_true (hbi.mpr (heq ▸ ha _ hx))
  | true =>
    cases f with
    | false => exact ⟨.undecided, rfl, .of_undecided (by simp)⟩
    | true =>
      refine ⟨.never, rfl, .of_never (fun a ha hne => hne ?_) (by simp)⟩
      exact hw.eq_of_fixed (hfi.mp rfl) (ha _ hx) (hbi.mp rfl)

namespace UnequalSum

variable {c : UnequalSum} {m : Model}

/-- The constant is between the least and the greatest sum, and not both variables are fixed. -/
def Open (c : UnequalSum) (m : Model) : Prop :=
  ¬(m.Fixed c.x ∧ m.Fixed c.y) ∧ m.Meet c.x c.y (fun v w => v + w ≤ c.constant) ∧
    m.Meet c.x c.y fun v w => c.constant ≤ v + w

theorem excluded_iff (hw : m.WellFormed) (hx : m.owns c.x = true) (hy : m.owns c.y = true) :
    ∃ b, c.excluded m = .ok b ∧ (b = false ↔ m.Meet c.x c.y (fun v w => v + w ≤ c.constant) ∧
      m.Meet c.x c.y fun v w => c.constant ≤ v + w) := by
  obtain ⟨lx, hlx, hlx1, hlx2⟩ := hw.lb_spec hx
  obtain ⟨ly, hly, hly1, hly2⟩ := hw.lb_spec hy
  obtain ⟨ux, hux, hux1, hux2⟩ := hw.ub_spec hx
  obtain ⟨uy, huy, huy1, huy2⟩ := hw.ub_spec hy
  have hlow : m.Meet c.x c.y (fun v w => v + w ≤ c.constant) ↔ lx + ly ≤ c.constant := by
    refine ⟨?_, fun h => ⟨lx, ly, hlx1, hly1, h⟩⟩
    rintro ⟨v, w, hv, hw, hle⟩
    have := hlx2 v hv
    have := hly2 w hw
    omega
  have hhigh : m.Meet c.x c.y (fun v w => c.constant ≤ v + w) ↔ c.constant ≤ ux + uy := by
    refine ⟨?_, fun h => ⟨ux, uy, hux1, huy1, h⟩⟩
    rintro ⟨v, w, hv, hw, hle⟩
    have := hux2 v hv
    have := huy2 w hw
    omega
  rw [hlow, hhigh]
  simp only [excluded, hlx, hly, hux, huy, ok_bind]
  by_cases h : c.constant < lx + ly
  · rw [if_pos h]
    exact ⟨true, rfl, by simp; omega⟩
  · rw [if_neg h]
    exact ⟨_, rfl, by simp; omega⟩

theorem entailed_reports (hw : m.WellFormed) (hx : m.owns c.x = true) (hy : m.owns c.y = true) :
    ∃ e, c.entailed m = .ok e ∧ e.Reports m c.Holds (c.Open m) := by
  obtain ⟨b, hb, hbi⟩ := excluded_iff hw hx hy
  obtain ⟨b', hb', hholds⟩ := excluded_spec hw hx hy
  cases hb.symm.trans hb'
  obtain ⟨rx, hrx, hsx, hnx⟩ := hw.value?_spec hx
  obtain ⟨ry, hry, hsy, hny⟩ := hw.value?_spec hy
  simp only [entailed, hb, hrx, hry, ok_bind, Open, ← hbi]
  cases b with
  | true => exact ⟨.always, rfl, .of_always (hholds rfl) (by simp)⟩
  | false =>
    cases rx with
    | none => exact ⟨.undecided, rfl, .of_undecided (by simp [hnx rfl])⟩
    | some v =>
      cases ry with
      | none => exact ⟨.undecided, rfl, .of_undecided (by simp [hny rfl])⟩
      | some w =>
        obtain ⟨hfx, hvx⟩ := hsx v rfl
        obtain ⟨hfy, hvy⟩ := hsy w rfl
        have hsum : ∀ a, m.Allows a → a c.x + a c.y = v + w := fun a ha => by
          rw [(hvx _).mp (ha _ hx), (hvy _).mp (ha _ hy)]
        by_cases heq : v + w = c.constant
        · exact ⟨.never, by simp [heq], .of_never (fun a ha hne => hne ((hsum a ha).trans heq)) (by simp [hfx, hfy])⟩
        · refine ⟨.always, by simp [heq], .of_always (fun a ha hsum' => heq ?_) (by simp [hfx, hfy])⟩
          exact (hsum a ha).symm.trans hsum'

end UnequalSum

/-! ### Distances -/

namespace Distance

variable {c : Distance} {m m' : Model}

/-- The least distance between the bounds of the two variables is at most this. -/
def Near (c : Distance) (m : Model) (k : Int) : Prop :=
  0 ≤ k ∧ m.Meet c.x c.y (fun v w => v - w ≤ k) ∧ m.Meet c.x c.y fun v w => w - v ≤ k

/-- The greatest distance between the bounds is at least this. -/
def Far (c : Distance) (m : Model) (k : Int) : Prop := m.Meet c.x c.y fun v w => k ≤ (v - w).natAbs

/-- The constant is among the distances between the bounds, and so is one that compares with it in the other way. Of
equalities values are looked at only where both variables are fixed. -/
def Open (c : Distance) (m : Model) : Prop :=
  match c.relation with
  | .eq => ¬(m.Fixed c.x ∧ m.Fixed c.y) ∧ c.Near m c.constant ∧ c.Far m c.constant
  | .ne => ¬(m.Fixed c.x ∧ m.Fixed c.y) ∧ c.Near m c.constant ∧ c.Far m c.constant
  | .lt => c.Near m (c.constant - 1) ∧ c.Far m c.constant
  | .gt => c.Near m c.constant ∧ c.Far m (c.constant + 1)

theorem Near.of_within {k : Int} (h : c.Near m' k) (hn : m.Within m') : c.Near m k :=
  ⟨h.1, h.2.1.of_within hn, h.2.2.of_within hn⟩

theorem Far.of_within {k : Int} (h : c.Far m' k) (hn : m.Within m') : c.Far m k := Model.Meet.of_within h hn

theorem range_iff (hw : m.WellFormed) (hx : m.owns c.x = true) (hy : m.owns c.y = true) :
    ∃ least greatest, c.range m = .ok (least, greatest) ∧ (∀ k, least ≤ k ↔ c.Near m k) ∧
      ∀ k, k ≤ greatest ↔ c.Far m k := by
  obtain ⟨lx, hlx, hlx1, hlx2⟩ := hw.lb_spec hx
  obtain ⟨ly, hly, hly1, hly2⟩ := hw.lb_spec hy
  obtain ⟨ux, hux, hux1, hux2⟩ := hw.ub_spec hx
  obtain ⟨uy, huy, huy1, huy2⟩ := hw.ub_spec hy
  simp only [range, hlx, hly, hux, huy, ok_bind]
  have hleft : ∀ k, m.Meet c.x c.y (fun v w => v - w ≤ k) ↔ lx - uy ≤ k := by
    refine fun k => ⟨?_, fun h => ⟨lx, uy, hlx1, huy1, h⟩⟩
    rintro ⟨v, w, hv, hw, hle⟩
    have := hlx2 v hv
    have := huy2 w hw
    omega
  have hright : ∀ k, m.Meet c.x c.y (fun v w => w - v ≤ k) ↔ ly - ux ≤ k := by
    refine fun k => ⟨?_, fun h => ⟨ux, ly, hux1, hly1, h⟩⟩
    rintro ⟨v, w, hv, hw, hle⟩
    have := hux2 v hv
    have := hly2 w hw
    omega
  refine ⟨_, _, rfl, fun k => ?_, fun k => ⟨fun h => ?_, ?_⟩⟩
  · rw [Near, hleft, hright]
    have := hlx2 ux hux1
    have := hly2 uy huy1
    split
    · omega
    · split <;> omega
  · rcases Int.le_total (uy - lx) (ux - ly) with hle | hle
    · exact ⟨ux, ly, hux1, hly1, by omega⟩
    · exact ⟨lx, uy, hlx1, huy1, by omega⟩
  · rintro ⟨v, w, hv, hw, hle⟩
    have := hlx2 v hv
    have := hly2 w hw
    have := hux2 v hv
    have := huy2 w hw
    omega

theorem fixed?_eq_none_iff (hw : m.WellFormed) (hx : m.owns c.x = true) (hy : m.owns c.y = true) :
    c.fixed? m = .ok none ↔ ¬(m.Fixed c.x ∧ m.Fixed c.y) := by
  obtain ⟨rx, hrx, hsx, hnx⟩ := hw.value?_spec hx
  obtain ⟨ry, hry, hsy, hny⟩ := hw.value?_spec hy
  simp only [fixed?, hrx, hry, ok_bind]
  cases rx with
  | none => simp [hnx rfl, pure_eq_ok]
  | some v =>
    cases ry with
    | none => simp [hny rfl, pure_eq_ok]
    | some w => simp [(hsx v rfl).1, (hsy w rfl).1, pure_eq_ok]

theorem entailed_reports (hw : m.WellFormed) (hx : m.owns c.x = true) (hy : m.owns c.y = true) :
    ∃ e, c.entailed m = .ok e ∧ e.Reports m c.Holds (c.Open m) := by
  obtain ⟨e, he, halways, hnever⟩ := entailed_spec hw hx hy
  refine ⟨e, he, halways, hnever, ?_⟩
  obtain ⟨least, greatest, hrange, hnear, hfar⟩ := range_iff hw hx hy
  obtain ⟨r, hr, -⟩ := fixed?_spec hw hx hy
  have hfixed := fixed?_eq_none_iff hw hx hy
  rw [hr, Except.ok.injEq] at hfixed
  simp only [entailed, hrange, hr, ok_bind] at he
  rw [Open]
  cases hrel : c.relation with
  | eq | ne =>
    simp only [hrel, ← hfixed, ← hnear, ← hfar] at he ⊢
    cases r with
    | some d =>
      simp only [pure_eq_ok, Except.ok.injEq] at he
      subst he
      split <;> simp
    | none =>
      simp only [pure_eq_ok, Except.ok.injEq, Bool.or_eq_true, decide_eq_true_eq] at he
      subst he
      split <;> simp <;> omega
  | lt | gt =>
    simp only [hrel, pure_eq_ok, Except.ok.injEq, ← hnear, ← hfar] at he ⊢
    subst he
    split
    · simp
      omega
    · split <;> simp <;> omega

theorem Open.of_within (h : c.Open m') (hn : m.Within m') (hw : m.WellFormed) : c.Open m := by
  have hfixed : ¬(m'.Fixed c.x ∧ m'.Fixed c.y) → ¬(m.Fixed c.x ∧ m.Fixed c.y) :=
    mt fun hf => ⟨hn.fixed hw hf.1, hn.fixed hw hf.2⟩
  rw [Open] at *
  cases hr : c.relation with
  | eq | ne =>
    rw [hr] at h
    exact ⟨hfixed h.1, h.2.1.of_within hn, h.2.2.of_within hn⟩
  | lt | gt =>
    rw [hr] at h
    exact ⟨h.1.of_within hn, h.2.of_within hn⟩

theorem Open.not_fixed (h : c.Open m) (hw : m.WellFormed) : ¬(m.Fixed c.x ∧ m.Fixed c.y) := by
  rintro ⟨hx, hy⟩
  obtain ⟨v, w, hpair⟩ := hw.exists_pair hx hy
  have hnear : ∀ k, c.Near m k → v - w ≤ k ∧ w - v ≤ k := fun k h => ⟨hpair _ h.2.1, hpair _ h.2.2⟩
  have hfar : ∀ k, c.Far m k → k ≤ (v - w).natAbs := fun k h => hpair _ h
  rw [Open] at h
  cases hr : c.relation with
  | eq | ne =>
    rw [hr] at h
    exact h.1 ⟨hx, hy⟩
  | lt | gt =>
    rw [hr] at h
    have h1 := hnear _ h.1
    have h2 := hfar _ h.2
    omega

end Distance

/-! ### Linear sums -/

namespace Linear

variable {c : Linear} {m m' : Model}

/-- The constant is between the least and the greatest sum, and there is a sum that compares with it in the other way.
Nothing is known of sums that leave their range. -/
def Open (c : Linear) (m : Model) : Prop :=
  ∀ least greatest, c.bounds m 1 = .ok (some (least, greatest)) →
    match c.relation with
    | .le => least ≤ c.constant ∧ c.constant < greatest
    | .ge => least < c.constant ∧ c.constant ≤ greatest
    | .eq => (least ≤ c.constant ∧ c.constant ≤ greatest) ∧ ¬(least = c.constant ∧ greatest = c.constant)

theorem entailed_reports (hw : m.WellFormed) (howns : ∀ t ∈ c.terms, m.owns t.var = true) :
    ∃ e, c.entailed m = .ok e ∧ e.Reports m c.Holds (c.Open m) := by
  obtain ⟨e, he, -, halways, hnever⟩ := entailed_holds (c := c) hw howns
  refine ⟨e, he, halways, hnever, ?_⟩
  obtain ⟨r, hb⟩ : ∃ r, c.bounds m 1 = .ok r := boundsFrom_total hw howns 1 0 0
  simp only [entailed, hb, ok_bind] at he
  cases r with
  | none =>
    cases he
    refine ⟨fun _ least greatest hb' => ?_, fun _ => rfl⟩
    cases hb.symm.trans hb'
  | some p =>
    have hopen : c.Open m ↔ match c.relation with
        | .le => p.1 ≤ c.constant ∧ c.constant < p.2
        | .ge => p.1 < c.constant ∧ c.constant ≤ p.2
        | .eq => (p.1 ≤ c.constant ∧ c.constant ≤ p.2) ∧ ¬(p.1 = c.constant ∧ p.2 = c.constant) := by
      refine ⟨fun h => h p.1 p.2 hb, fun h least greatest hb' => ?_⟩
      cases hb.symm.trans hb'
      exact h
    rw [hopen]
    cases hrel : c.relation <;> simp only [hrel, pure_eq_ok, Except.ok.injEq] at he ⊢ <;> subst he <;> split
    all_goals try split
    all_goals simp
    all_goals omega

theorem Open.of_within (h : c.Open m') (hn : m.Within m') (hw : m.WellFormed)
    (howns : ∀ t ∈ c.terms, m.owns t.var = true) : c.Open m := by
  intro least greatest hb
  obtain ⟨least', greatest', hb', h1, h2, h3⟩ := boundsFrom_of_narrower hw hn.wellFormed hn.has howns
    (fun t ht => (hn.owns_eq _).trans (howns t ht)) (Int.le_refl 0) (Int.le_refl 0) (Int.le_refl 0) hb
  have h := h least' greatest' hb'
  cases hr : c.relation <;> simp only [hr] at h ⊢ <;> omega

theorem lows_self (terms : List Term) (a : Assignment) : lows terms a a = total terms a := by
  simp only [lows, total_eq_sum, Int.min_self]

theorem highs_self (terms : List Term) (a : Assignment) : highs terms a a = total terms a := by
  simp only [highs, total_eq_sum, Int.max_self]

theorem Open.not_fixed (h : c.Open m) (hw : m.WellFormed) (hfits : ∀ a, m.Allows a → SumsFit .upper c.terms a) :
    ¬∀ t ∈ c.terms, m.Fixed t.var := by
  intro hfixed
  obtain ⟨a, ha⟩ := hw.exists_allows
  have hb : ∀ t ∈ c.terms, m.Ranges t.var (a t.var) (a t.var) := fun t ht =>
    have hf := hfixed t ht
    ⟨hw.lb_of_fixed hf (ha _ hf.owns), hw.ub_of_fixed hf (ha _ hf.owns)⟩
  have hsums := hfits a ha
  simp only [SumsFit, Side.sign, Int.one_mul] at hsums
  have hbounds : c.bounds m 1 = .ok (some (total c.terms a, total c.terms a)) := by
    refine (boundsFrom_eq_some_iff hw hb .upper (by decide) (by decide)).mpr ?_
    simp only [Side.least, Side.greatest, lows_self, highs_self, Int.zero_add, and_self, and_true]
    exact hsums
  have h := h _ _ hbounds
  cases hr : c.relation <;> simp only [hr] at h <;> omega

end Linear

/-! ### Nogoods -/

namespace Literal

variable {l : Literal} {m : Model}

/-- An open literal holds of some of the values that are left, and not of others. -/
theorem exists_of_open (hw : m.WellFormed) (hx : m.owns l.var = true) (h : l.truth m = .ok none) :
    (∃ a, m.Allows a ∧ l.Holds a) ∧ ∃ a, m.Allows a ∧ ¬l.Holds a := by
  obtain ⟨hhas, hfree⟩ := (truth_eq_none_iff hw hx).mp h
  obtain ⟨v, hv, hne⟩ : ∃ v, m.Has l.var v ∧ v ≠ l.value := by
    by_contra hall
    push Not at hall
    exact hfree (hw.fixed_of_unique hx hall)
  obtain ⟨a, ha, hav⟩ := hw.exists_allows_eq hhas
  obtain ⟨b, hb, hbv⟩ := hw.exists_allows_eq hv
  cases he : l.equal with
  | true => exact ⟨⟨a, ha, by simp [Holds, he, hav]⟩, b, hb, by simp [Holds, he, hbv, hne]⟩
  | false => exact ⟨⟨b, hb, by simp [Holds, he, hbv, hne]⟩, a, ha, by simp [Holds, he, hav]⟩

/-- **The truth of a literal is exact**: it is known just if all values that are left agree on it. -/
theorem truth_iff (hw : m.WellFormed) (hx : m.owns l.var = true) : ∃ r, l.truth m = .ok r ∧
    (r = some true ↔ ∀ a, m.Allows a → l.Holds a) ∧ (r = some false ↔ ∀ a, m.Allows a → ¬l.Holds a) := by
  obtain ⟨r, hr, hsome, -⟩ := truth_spec hw hx
  obtain ⟨a, ha⟩ := hw.exists_allows
  refine ⟨r, hr, ?_⟩
  cases r with
  | none =>
    obtain ⟨⟨b, hb, hbl⟩, b', hb', hbl'⟩ := exists_of_open hw hx hr
    exact ⟨⟨nofun, fun h => absurd (h b' hb') hbl'⟩, nofun, fun h => absurd hbl (h b hb)⟩
  | some t =>
    have h := hsome t rfl
    cases t with
    | true => exact ⟨⟨fun _ b hb => (h b hb).mpr rfl, fun _ => rfl⟩, nofun, fun hn => absurd ((h a ha).mpr rfl) (hn a ha)⟩
    | false =>
      have hnot : ∀ b, m.Allows b → ¬l.Holds b := fun b hb hl => absurd ((h b hb).mp hl) (by decide)
      exact ⟨⟨nofun, fun hall => absurd (hall a ha) (hnot a ha)⟩, fun _ => hnot, fun _ => rfl⟩

end Literal

namespace Nogood

variable {c : Nogood} {m m' : Model}

/-- No literal is false, and not all are true. -/
def Open (c : Nogood) (m : Model) : Prop :=
  (∀ l ∈ c.literals, ∃ a, m.Allows a ∧ l.Holds a) ∧ ∃ l ∈ c.literals, ∃ a, m.Allows a ∧ ¬l.Holds a

theorem entailed_reports (hw : m.WellFormed) (hx : ∀ l ∈ c.literals, m.owns l.var = true) :
    ∃ e, c.entailed m = .ok e ∧ e.Reports m c.Holds (c.Open m) := by
  obtain ⟨st, hst, htells⟩ := standing_spec hw hx
  obtain ⟨b, hb⟩ := hw.exists_allows
  simp only [entailed, hst, ok_bind]
  cases st with
  | satisfied =>
    obtain ⟨l, hl, hnone⟩ := htells
    refine ⟨.always, rfl, .of_always (fun a ha hall => hnone a ha (hall l hl)) fun hopen => ?_⟩
    obtain ⟨a, ha, hholds⟩ := hopen.1 l hl
    exact absurd hholds (hnone a ha)
  | waiting unsettled =>
    obtain ⟨hopen, hclosed⟩ := htells
    cases unsettled with
    | nil =>
      have hall : ∀ l ∈ c.literals, ∀ a, m.Allows a → l.Holds a :=
        fun l hl => (hclosed l hl).resolve_left List.not_mem_nil
      refine ⟨.never, rfl, .of_never (fun a ha hn => hn fun l hl => hall l hl a ha) fun hopen => ?_⟩
      obtain ⟨l, hl, a, ha, hnot⟩ := hopen.2
      exact absurd (hall l hl a ha) hnot
    | cons u rest =>
      have hboth : ∀ l ∈ u :: rest, (∃ a, m.Allows a ∧ l.Holds a) ∧ ∃ a, m.Allows a ∧ ¬l.Holds a := fun l hl =>
        Literal.exists_of_open hw (hx l (hopen l hl).1) (truth_of_waiting hst l hl)
      refine ⟨.undecided, rfl, .of_undecided ⟨fun l hl => ?_, u, (hopen u List.mem_cons_self).1, ?_⟩⟩
      · exact (hclosed l hl).elim (fun hl => (hboth l hl).1) fun hall => ⟨b, hb, hall b hb⟩
      · exact (hboth u List.mem_cons_self).2

theorem Open.of_within (h : c.Open m') (hn : m.Within m') : c.Open m := by
  obtain ⟨hpossible, l, hl, a, ha, hnot⟩ := h
  refine ⟨fun l hl => ?_, l, hl, a, hn.allows ha, hnot⟩
  obtain ⟨a, ha, hholds⟩ := hpossible l hl
  exact ⟨a, hn.allows ha, hholds⟩

theorem Open.not_fixed (h : c.Open m) (hw : m.WellFormed) : ¬∀ l ∈ c.literals, m.Fixed l.var := by
  intro hfixed
  obtain ⟨hpossible, l, hl, a, ha, hnot⟩ := h
  obtain ⟨b, hb, hholds⟩ := hpossible l hl
  have hf := hfixed l hl
  refine hnot ?_
  rwa [Literal.Holds, hw.eq_of_fixed hf (ha _ hf.owns) (hb _ hf.owns)]

end Nogood

/-! ### All kinds -/

namespace Constraint

variable {c : Constraint} {m m' : Model}

/-- Nothing is reported of the constraint on these domains. -/
def Open : Constraint → Model → Prop
  | unequal c => c.Open
  | unequalSum c => c.Open
  | distance c => c.Open
  | linear c => c.Open
  | nogood c => c.Open

/-- The partial sums of a linear constraint over the values that are left keep to the range of sums. -/
def SumsFit (m : Model) : Constraint → Prop
  | linear c => ∀ a, m.Allows a → Linear.SumsFit .upper c.terms a
  | _ => True

/-- What is reported is so, and something is reported where the constraint is not open. -/
theorem entailed_reports (hw : m.WellFormed) (hscope : ∀ x ∈ c.propagator.scope, m.owns x = true) :
    ∃ e, c.propagator.entailed m = .ok e ∧ e.Reports m c.Holds (c.Open m) := by
  match c, hscope with
  | unequal c, hscope => exact Unequal.entailed_reports hw (hscope c.var (by simp [propagator, Unequal.propagator]))
  | unequalSum c, hscope =>
    exact UnequalSum.entailed_reports hw (hscope c.x (by simp [propagator, UnequalSum.propagator]))
      (hscope c.y (by simp [propagator, UnequalSum.propagator]))
  | distance c, hscope =>
    exact Distance.entailed_reports hw (hscope c.x (by simp [propagator, Distance.propagator]))
      (hscope c.y (by simp [propagator, Distance.propagator]))
  | linear c, hscope => exact Linear.entailed_reports hw fun t ht => hscope _ (mem_linear_scope ht)
  | nogood c, hscope => exact Nogood.entailed_reports hw fun l hl => hscope _ (Nogood.mem_scope hl)

/-- What is open on narrower domains is so on wider ones. -/
theorem Open.of_within (h : c.Open m') (hn : m.Within m') (hw : m.WellFormed)
    (hscope : ∀ x ∈ c.propagator.scope, m.owns x = true) : c.Open m := by
  match c, h, hscope with
  | unequal c, h, _ => exact ⟨hn.has _ _ h.1, hn.unfixed hw h.2⟩
  | unequalSum c, h, _ =>
    refine ⟨fun hf => h.1 ⟨hn.fixed hw hf.1, hn.fixed hw hf.2⟩, h.2.1.of_within hn, h.2.2.of_within hn⟩
  | distance c, h, _ => exact Distance.Open.of_within h hn hw
  | linear c, h, hscope => exact Linear.Open.of_within h hn hw fun t ht => hscope _ (mem_linear_scope ht)
  | nogood c, h, _ => exact Nogood.Open.of_within h hn

/-- Where all variables are fixed nothing is open, unless a sum leaves its range. -/
theorem Open.not_fixed (h : c.Open m) (hw : m.WellFormed) (hfits : c.SumsFit m) :
    ¬∀ x ∈ c.propagator.scope, m.Fixed x := by
  match c, h, hfits with
  | unequal c, h, _ => exact fun hf => h.2 (hf c.var (by simp [propagator, Unequal.propagator]))
  | unequalSum c, h, _ =>
    exact fun hf => h.1 ⟨hf c.x (by simp [propagator, UnequalSum.propagator]),
      hf c.y (by simp [propagator, UnequalSum.propagator])⟩
  | distance c, h, _ =>
    exact fun hf => Distance.Open.not_fixed h hw ⟨hf c.x (by simp [propagator, Distance.propagator]),
      hf c.y (by simp [propagator, Distance.propagator])⟩
  | linear c, h, hfits =>
    exact fun hf => Linear.Open.not_fixed h hw hfits fun t ht => hf _ (mem_linear_scope ht)
  | nogood c, h, _ => exact fun hf => Nogood.Open.not_fixed h hw fun l hl => hf _ (Nogood.mem_scope hl)

/-- **Reports are right, decide fixed variables, and stay**: a constraint that is reported as satisfied is so by every
choice of the values left, one that is reported as violated by none, one of them is reported where all variables are
fixed, and what has been reported is reported again after any narrowings. -/
theorem entailed_settles (hw : m.WellFormed) (hscope : ∀ x ∈ c.propagator.scope, m.owns x = true) :
    ∃ e, c.propagator.entailed m = .ok e ∧
      (e = .always → ∀ a, m.Allows a → c.Holds a) ∧ (e = .never → ∀ a, m.Allows a → ¬c.Holds a) ∧
      ((∀ x ∈ c.propagator.scope, m.Fixed x) → c.SumsFit m → e ≠ .undecided) ∧
      (e ≠ .undecided → ∀ m', m.Reduced m' → c.propagator.entailed m' = .ok e) := by
  obtain ⟨e, he, hreports⟩ := entailed_reports hw hscope
  refine ⟨e, he, hreports.always, hreports.never, fun hfixed hfits hopen => ?_, fun hknown m' hreduced => ?_⟩
  · exact (hreports.undecided.mp hopen).not_fixed hw hfits hfixed
  · have hn := hreduced.within hw
    obtain ⟨e', he', hreports'⟩ := entailed_reports hn.wellFormed fun x hx => (hn.owns_eq x).trans (hscope x hx)
    have hknown' : e' ≠ .undecided := fun hopen =>
      hknown (hreports.undecided.mpr ((hreports'.undecided.mp hopen).of_within hn hw hscope))
    -- the two reports speak of an assignment that is left
    obtain ⟨a, ha⟩ := hn.wellFormed.exists_allows
    rw [he']
    match e, e', hknown, hknown', hreports, hreports' with
    | .always, .always, _, _, _, _ | .never, .never, _, _, _, _ => rfl
    | .always, .never, _, _, h, h' => exact absurd (h.always rfl a (hn.allows ha)) (h'.never rfl a ha)
    | .never, .always, _, _, h, h' => exact absurd (h'.always rfl a ha) (h.never rfl a (hn.allows ha))
    | .undecided, _, hknown, _, _, _ => exact absurd rfl hknown
    | _, .undecided, _, hknown', _, _ => exact absurd rfl hknown'

/-- Constraints of every kind, of which something is reported at an end of the range of values, and a narrowing. -/
theorem entailed_settles_of_corner : ∃ m m' : Model, m.WellFormed ∧ m.Reduced m' ∧
    m.ub ⟨0⟩ = .ok (Value.least + 2) ∧ m'.ub ⟨0⟩ = .ok (Value.least + 1) ∧
    ∀ p ∈ [(unequal ⟨⟨0⟩, 5⟩, Entailment.always), (unequalSum ⟨⟨0⟩, ⟨1⟩, 5, (false, true)⟩, .always),
      (distance ⟨⟨0⟩, ⟨1⟩, .lt, 3, (false, true)⟩, .never),
      (linear ⟨[⟨2, ⟨0⟩⟩, ⟨-3, ⟨1⟩⟩, ⟨1, ⟨0⟩⟩], .ge, 0⟩, .never),
      (nogood ⟨[⟨⟨1⟩, 1, false⟩, ⟨⟨0⟩, 7, true⟩]⟩, .always)],
      p.1.propagator.entailed m = .ok p.2 ∧ p.1.propagator.entailed m' = .ok p.2 := by
  generalize hl : [(unequal ⟨⟨0⟩, 5⟩, Entailment.always), (unequalSum ⟨⟨0⟩, ⟨1⟩, 5, (false, true)⟩, .always),
    (distance ⟨⟨0⟩, ⟨1⟩, .lt, 3, (false, true)⟩, .never),
    (linear ⟨[⟨2, ⟨0⟩⟩, ⟨-3, ⟨1⟩⟩, ⟨1, ⟨0⟩⟩], .ge, 0⟩, .never),
    (nogood ⟨[⟨⟨1⟩, 1, false⟩, ⟨⟨0⟩, 7, true⟩]⟩, .always)] = l
  have heval : ((Model.mk "corner" {} #[] #[] 0).newBounded "x" Value.least (Value.least + 2)).toOption.bind (fun r =>
      (r.2.newEnumerated "y" 0 2).toOption.bind fun r =>
        (r.2.apply ⟨0⟩ (.atMost (Value.least + 1)) .decision).toOption.map fun r' =>
          (r'.1.toOption, (r.2.ub ⟨0⟩).toOption, (r'.2.ub ⟨0⟩).toOption, l.all fun p =>
            p.1.propagator.scope.all r.2.owns && (p.1.propagator.entailed r.2).toOption == some p.2)) =
      some (some true, some (Value.least + 2), some (Value.least + 1), true) := by
    subst hl
    decide +kernel
  obtain ⟨⟨x, m₁⟩, h₁, heval⟩ := Option.bind_eq_some_iff.mp heval
  obtain ⟨⟨y, m⟩, h₂, heval⟩ := Option.bind_eq_some_iff.mp heval
  obtain ⟨⟨result, m'⟩, h₃, heval⟩ := Option.map_eq_some_iff.mp heval
  simp only [Prod.mk.injEq, toOption_eq_some, List.all_eq_true, Bool.and_eq_true, Array.all_eq_true_iff_forall_mem,
    beq_iff_eq] at h₁ h₂ h₃ heval
  obtain ⟨rfl, hub, hub', hreports⟩ := heval
  have hw : m.WellFormed := by
    refine Model.History.wellFormed (.create (.create (.start "corner") (.newBounded ?_ ?_ h₁))
      (.newEnumerated ?_ ?_ ?_ h₂)) ?_
    all_goals simp [Value.Fits, Value.least, Value.greatest]
  have hreduced : m.Reduced m' := .step .refl h₃
  refine ⟨m, m', hw, hreduced, hub, hub', fun p hp => ?_⟩
  obtain ⟨hscope, he⟩ := hreports p hp
  obtain ⟨e, he', -, -, -, hstays⟩ := entailed_settles hw hscope
  cases he.symm.trans he'
  have hknown : ∀ q ∈ l, q.2 ≠ .undecided := by
    subst hl
    decide
  exact ⟨he, hstays (hknown p hp) m' hreduced⟩

end Constraint

end FiniteDomain
