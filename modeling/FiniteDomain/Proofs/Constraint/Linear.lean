import FiniteDomain.Constraint.Linear
import FiniteDomain.Proofs.Propagation.Filter

/-!
# Linear sums filter soundly

Where the partial sums leave the range of sums nothing is concluded, so that a run keeps the assignments that
satisfy the sum and those with sums beyond the range.

* `Admits`: these assignments;
* `admits_iff`: in range they are those that satisfy the sum;
* `filter_spec`: a run keeps them, and decides the sum where its variables are fixed;
* `entailed_spec`: what is reported as known is.
-/

namespace FiniteDomain

open FiniteDomain.Filter

namespace Linear

/-- The sides that the comparison asks to look at. -/
def sides (c : Linear) : List Side :=
  match c.relation with
  | .le => [.upper]
  | .ge => [.lower]
  | .eq => [.upper, .lower]

/-- The partial sums over the domains of a model keep to the range of sums. -/
def InRange (c : Linear) (m : Model) : Prop :=
  ∀ side ∈ c.sides, ∃ least greatest, c.bounds m side.sign = .ok (some (least, greatest))

/-- The sum of a value for each term, or of its negation, on top of another, if the partial sums keep to the range
of sums. -/
def sumFrom? (w : Term → Int) (sign sum : Int) : List Term → Option Int
  | [] => some sum
  | t :: rest => (Sum.ofInt? (sum + sign * t.coefficient * w t)).bind fun sum => sumFrom? w sign sum rest

def sum? (c : Linear) (side : Side) (w : Term → Int) : Option Int := sumFrom? w side.sign 0 c.terms

/-- A value is chosen for each term. -/
def Picks (c : Linear) (m : Model) (w : Term → Int) : Prop := ∀ t ∈ c.terms, m.Has t.var (w t)

/-- What the constant leaves above a sum that keeps to the range of sums keeps to it too. -/
def HasRoom (c : Linear) (m : Model) : Prop :=
  ∀ side ∈ c.sides, ∀ w, c.Picks m w → ∀ sum, c.sum? side w = some sum → side.sign * c.constant - sum ≤ Sum.greatest

/-- A sum that keeps to the range of sums does so on every side that is looked at. -/
def Mirrored (c : Linear) (m : Model) : Prop :=
  ∀ side ∈ c.sides, ∀ w, c.Picks m w → ∀ sum, c.sum? .upper w = some sum → ∃ sum, c.sum? side w = some sum

/-- The sum keeps to the constant on one side, unless its partial sums leave the range of sums. -/
def Below (c : Linear) (side : Side) (a : Assignment) : Prop :=
  ∀ sum, c.sum? side (fun t => a t.var) = some sum → sum ≤ side.sign * c.constant

/-- What is asked of an assignment: nothing can be concluded from sums beyond the range. -/
def Admits (c : Linear) (a : Assignment) : Prop := ∀ side ∈ c.sides, c.Below side a

/-- The values of the terms are in the range of sums. -/
def TermsFit (m : Model) (sign : Int) (terms : List Term) : Prop :=
  ∀ t ∈ terms, ∀ v, m.Has t.var v → Sum.Fits (sign * t.coefficient * v)

/-- On one side there is no bound to move: the least sum keeps to the constant, and the room that is left above it
suffices for every value of every term. -/
def Tight (c : Linear) (side : Side) (m : Model) : Prop :=
  ∀ least greatest, c.bounds m side.sign = .ok (some (least, greatest)) → least ≤ side.sign * c.constant ∧
    (TermsFit m side.sign c.terms → ∀ t ∈ c.terms, ∀ v u, m.Has t.var v → m.Has t.var u →
      side.sign * t.coefficient * v ≤ side.sign * c.constant - least + side.sign * t.coefficient * u)

/-- A sum that was put together from lists has no term with coefficient zero. -/
theorem coefficient_ne_zero_of_ofLists {coefficients : List Int} {vars : List VarId} {r : Relation} {k : Int}
    {c : Linear} (h : ofLists coefficients vars r k = .ok c) : ∀ t ∈ c.terms, t.coefficient ≠ 0 := by
  rw [ofLists] at h
  split at h
  · cases h
  · split at h
    · cases h
    · cases h
      intro t ht
      simpa using (List.mem_filter.mp ht).2

/-! ### Bounds of a sum -/

section Bounds

variable {m : Model}

/-- The range of a term is attained at both ends. -/
theorem rangeIn_spec (hw : m.WellFormed) {x : VarId} (hx : m.owns x = true) (k : Int) :
    ∃ least greatest, rangeIn m k x = .ok (least, greatest) ∧
      (∀ v, m.Has x v → least ≤ k * v ∧ k * v ≤ greatest) ∧
      (∃ v, m.Has x v ∧ least = k * v) ∧ ∃ v, m.Has x v ∧ greatest = k * v := by
  obtain ⟨l, hl, hl1, hl2⟩ := hw.lb_spec hx
  obtain ⟨u, hu, hu1, hu2⟩ := hw.ub_spec hx
  simp only [rangeIn, hl, hu, ok_bind, termRange]
  by_cases hk : 0 ≤ k
  · rw [if_pos hk]
    refine ⟨_, _, rfl, fun v hv => ?_, ⟨l, hl1, rfl⟩, ⟨u, hu1, rfl⟩⟩
    exact ⟨Int.mul_le_mul_of_nonneg_left (hl2 v hv) hk, Int.mul_le_mul_of_nonneg_left (hu2 v hv) hk⟩
  · rw [if_neg hk]
    have hk : k ≤ 0 := by omega
    refine ⟨_, _, rfl, fun v hv => ?_, ⟨u, hu1, rfl⟩, ⟨l, hl1, rfl⟩⟩
    exact ⟨Int.mul_le_mul_of_nonpos_left hk (hu2 v hv), Int.mul_le_mul_of_nonpos_left hk (hl2 v hv)⟩

theorem total_cons (t : Term) (terms : List Term) (a : Assignment) :
    total (t :: terms) a = t.coefficient * a t.var + total terms a := rfl

theorem boundsFrom_total (hw : m.WellFormed) {terms : List Term}
    (howns : ∀ t ∈ terms, m.owns t.var = true) (sign low high : Int) : ∃ r, boundsFrom m sign low high terms = .ok r := by
  induction terms generalizing low high with
  | nil => exact ⟨_, rfl⟩
  | cons t rest ih =>
    obtain ⟨l, g, hr, -⟩ := rangeIn_spec hw (howns t List.mem_cons_self) (sign * t.coefficient)
    rw [boundsFrom, hr, ok_bind]
    simp only
    split
    · exact ih (fun t ht => howns t (List.mem_cons_of_mem _ ht)) _ _
    · exact ⟨_, rfl⟩

/-- The two sums found enclose the sum, also when one variable takes another of its values. -/
theorem boundsFrom_spec (hw : m.WellFormed) {sign low high least greatest : Int} {terms : List Term}
    (howns : ∀ t ∈ terms, m.owns t.var = true)
    (h : boundsFrom m sign low high terms = .ok (some (least, greatest))) {a : Assignment} (ha : m.Allows a) :
    least ≤ low + sign * total terms a ∧ high + sign * total terms a ≤ greatest ∧
      (∀ t ∈ terms, ∀ v, m.Has t.var v →
        sign * t.coefficient * a t.var + least ≤ low + sign * total terms a + sign * t.coefficient * v) ∧
      ((∀ t ∈ terms, m.Fixed t.var) → least = low + sign * total terms a) := by
  induction terms generalizing low high with
  | nil =>
    cases h
    simp [total]
  | cons t rest ih =>
    have hx := howns t List.mem_cons_self
    obtain ⟨l, g, hr, hbetween, ⟨v, hv, hlv⟩, -⟩ := rangeIn_spec hw hx (sign * t.coefficient)
    rw [boundsFrom, hr, ok_bind] at h
    simp only at h
    split at h
    · rename_i low' high' hlow hhigh
      obtain ⟨-, rfl⟩ := Sum.ofInt?_eq_some_iff.mp hlow
      obtain ⟨-, rfl⟩ := Sum.ofInt?_eq_some_iff.mp hhigh
      obtain ⟨h1, h2, h3, h4⟩ := ih (fun t ht => howns t (List.mem_cons_of_mem _ ht)) h
      have hat := hbetween _ (ha _ hx)
      have htotal : sign * total (t :: rest) a = sign * t.coefficient * a t.var + sign * total rest a := by
        rw [total_cons, Int.mul_add, Int.mul_assoc]
      rw [htotal]
      refine ⟨by omega, by omega, ?_, ?_⟩
      · intro u hu w hw'
        rcases List.mem_cons.mp hu with rfl | hu
        · have := hbetween w hw'
          omega
        · have := h3 u hu w hw'
          omega
      · intro hfixed
        have h5 := h4 fun t ht => hfixed t (List.mem_cons_of_mem _ ht)
        rw [hw.eq_of_fixed (hfixed t List.mem_cons_self) hv (ha _ hx)] at hlv
        omega
    · cases h

/-- Partial sums that keep to the range of sums do so on smaller domains, where they are between those. -/
theorem boundsFrom_of_narrower (hw : m.WellFormed) {m' : Model} (hw' : m'.WellFormed)
    (hsub : ∀ x v, m'.Has x v → m.Has x v) {sign low high low' high' least greatest : Int} {terms : List Term}
    (howns : ∀ t ∈ terms, m.owns t.var = true) (howns' : ∀ t ∈ terms, m'.owns t.var = true)
    (h1 : low ≤ low') (h2 : low' ≤ high') (h3 : high' ≤ high)
    (h : boundsFrom m sign low high terms = .ok (some (least, greatest))) :
    ∃ least' greatest', boundsFrom m' sign low' high' terms = .ok (some (least', greatest')) ∧
      least ≤ least' ∧ least' ≤ greatest' ∧ greatest' ≤ greatest := by
  induction terms generalizing low high low' high' with
  | nil =>
    cases h
    exact ⟨low', high', rfl, h1, h2, h3⟩
  | cons t rest ih =>
    obtain ⟨l, g, hr, hbetween, -⟩ := rangeIn_spec hw (howns t List.mem_cons_self) (sign * t.coefficient)
    obtain ⟨l', g', hr', hbetween', ⟨v, hv, hlv⟩, ⟨u, hu, hgu⟩⟩ :=
      rangeIn_spec hw' (howns' t List.mem_cons_self) (sign * t.coefficient)
    have hl := hbetween v (hsub _ v hv)
    have hg := hbetween u (hsub _ u hu)
    have hlg := (hbetween' v hv).2
    rw [boundsFrom, hr, ok_bind] at h
    simp only at h
    split at h
    · rename_i _ _ hlow hhigh
      obtain ⟨hf1, rfl⟩ := Sum.ofInt?_eq_some_iff.mp hlow
      obtain ⟨hf2, rfl⟩ := Sum.ofInt?_eq_some_iff.mp hhigh
      simp only [Sum.Fits] at hf1 hf2
      have hlow' : Sum.ofInt? (low' + l') = some (low' + l') :=
        Sum.ofInt?_eq_some_iff.mpr ⟨by simp only [Sum.Fits]; omega, rfl⟩
      have hhigh' : Sum.ofInt? (high' + g') = some (high' + g') :=
        Sum.ofInt?_eq_some_iff.mpr ⟨by simp only [Sum.Fits]; omega, rfl⟩
      simp only [boundsFrom, hr', ok_bind, hlow', hhigh']
      exact ih (fun t ht => howns t (List.mem_cons_of_mem _ ht)) (fun t ht => howns' t (List.mem_cons_of_mem _ ht))
        (by omega) (by omega) (by omega) h
    · cases h

theorem InRange.of_narrower {c : Linear} (h : c.InRange m) (hw : m.WellFormed) {m' : Model}
    (hw' : m'.WellFormed) (hsub : ∀ x v, m'.Has x v → m.Has x v) (howns : ∀ t ∈ c.terms, m.owns t.var = true)
    (howns' : ∀ t ∈ c.terms, m'.owns t.var = true) : c.InRange m' := by
  intro side hside
  obtain ⟨least, greatest, hb⟩ := h side hside
  obtain ⟨least', greatest', hb', -⟩ :=
    boundsFrom_of_narrower hw hw' hsub howns howns' (Int.le_refl 0) (Int.le_refl 0) (Int.le_refl 0) hb
  exact ⟨least', greatest', hb'⟩

/-- The product of a coefficient and a value is in the range of sums. -/
theorem termsFit (hw : m.WellFormed) {terms : List Term} (hfit : ∀ t ∈ terms, Value.Fits t.coefficient)
    (side : Side) : TermsFit m side.sign terms := by
  intro t ht v hv
  have hcoefficient : t.coefficient.natAbs ≤ 2 ^ 63 := by
    have := hfit t ht
    simp only [Value.Fits, Value.least, Value.greatest] at this
    omega
  have hvalue : v.natAbs ≤ 2 ^ 63 := by
    have := hw.fits hv
    simp only [Value.Fits, Value.least, Value.greatest] at this
    omega
  have hsign : side.sign.natAbs = 1 := by cases side <;> rfl
  have hproduct : (side.sign * t.coefficient * v).natAbs ≤ 2 ^ 63 * 2 ^ 63 := by
    rw [Int.natAbs_mul, Int.natAbs_mul, hsign, Nat.one_mul]
    exact Nat.mul_le_mul hcoefficient hvalue
  simp only [Sum.Fits, Sum.least, Sum.greatest]
  omega

/-! ### Sums of chosen values -/

theorem eq_of_sumFrom? {a : Assignment} {sign sum total : Int} {terms : List Term}
    (h : sumFrom? (fun t => a t.var) sign sum terms = some total) : total = sum + sign * Linear.total terms a := by
  induction terms generalizing sum with
  | nil =>
    cases h
    simp [Linear.total]
  | cons t rest ih =>
    obtain ⟨next, hnext, h⟩ := Option.bind_eq_some_iff.mp h
    obtain ⟨-, rfl⟩ := Sum.ofInt?_eq_some_iff.mp hnext
    rw [ih h, total_cons, Int.mul_add, Int.mul_assoc, Int.add_assoc]

theorem sumFrom?_congr {v w : Term → Int} {sign sum : Int} {terms : List Term} (h : ∀ t ∈ terms, v t = w t) :
    sumFrom? v sign sum terms = sumFrom? w sign sum terms := by
  induction terms generalizing sum with
  | nil => rfl
  | cons t rest ih =>
    rw [sumFrom?, sumFrom?, h t List.mem_cons_self]
    exact congrArg _ (funext fun sum => ih fun u hu => h u (List.mem_cons_of_mem t hu))

/-- Where the two sums keep to the range of sums, so does every sum between them. -/
theorem exists_sumFrom?_of_boundsFrom (hw : m.WellFormed) {sign low high sum least greatest : Int} {terms : List Term}
    (howns : ∀ t ∈ terms, m.owns t.var = true) (hlow : low ≤ sum) (hhigh : sum ≤ high)
    (h : boundsFrom m sign low high terms = .ok (some (least, greatest))) {w : Term → Int}
    (hpicks : ∀ t ∈ terms, m.Has t.var (w t)) : ∃ total, sumFrom? w sign sum terms = some total := by
  induction terms generalizing low high sum with
  | nil => exact ⟨sum, rfl⟩
  | cons t rest ih =>
    obtain ⟨l, g, hr, hbetween, -⟩ := rangeIn_spec hw (howns t List.mem_cons_self) (sign * t.coefficient)
    have hat := hbetween _ (hpicks t List.mem_cons_self)
    rw [boundsFrom, hr, ok_bind] at h
    simp only at h
    split at h
    · rename_i _ _ hl hg
      obtain ⟨hf1, rfl⟩ := Sum.ofInt?_eq_some_iff.mp hl
      obtain ⟨hf2, rfl⟩ := Sum.ofInt?_eq_some_iff.mp hg
      simp only [Sum.Fits] at hf1 hf2
      have hnext : Sum.ofInt? (sum + sign * t.coefficient * w t) = some (sum + sign * t.coefficient * w t) :=
        Sum.ofInt?_eq_some_iff.mpr ⟨by simp only [Sum.Fits]; omega, rfl⟩
      rw [sumFrom?, hnext, Option.bind_some]
      exact ih (fun t ht => howns t (List.mem_cons_of_mem _ ht)) (by omega) (by omega) h
        fun t ht => hpicks t (List.mem_cons_of_mem _ ht)
    · cases h

/-- The least sum is one of chosen values. -/
theorem exists_sumFrom?_least (hw : m.WellFormed) {sign low high least greatest : Int} {terms : List Term}
    (howns : ∀ t ∈ terms, m.owns t.var = true)
    (h : boundsFrom m sign low high terms = .ok (some (least, greatest))) :
    ∃ w, (∀ t ∈ terms, m.Has t.var (w t)) ∧ sumFrom? w sign low terms = some least := by
  have hleast : ∀ t : Term, ∃ v, m.owns t.var = true → m.Has t.var v ∧ ∃ greatest,
      rangeIn m (sign * t.coefficient) t.var = .ok (sign * t.coefficient * v, greatest) := by
    intro t
    by_cases hx : m.owns t.var = true
    · obtain ⟨l, g, hr, -, ⟨v, hv, rfl⟩, -⟩ := rangeIn_spec hw hx (sign * t.coefficient)
      exact ⟨v, fun _ => ⟨hv, g, hr⟩⟩
    · exact ⟨0, fun h => absurd h hx⟩
  obtain ⟨w, hleast⟩ := Classical.axiomOfChoice hleast
  refine ⟨w, fun t ht => (hleast t (howns t ht)).1, ?_⟩
  induction terms generalizing low high with
  | nil =>
    cases h
    rfl
  | cons t rest ih =>
    obtain ⟨-, g, hr⟩ := hleast t (howns t List.mem_cons_self)
    rw [boundsFrom, hr, ok_bind] at h
    simp only at h
    split at h
    · rename_i hlow _
      rw [sumFrom?, hlow, Option.bind_some]
      exact ih (fun t ht => howns t (List.mem_cons_of_mem _ ht)) h
    · cases h

/-- Where all variables are fixed, the two sums keep to the range of sums if the sum does. -/
theorem exists_boundsFrom_of_fixed (hw : m.WellFormed) {sign sum total : Int} {terms : List Term}
    (howns : ∀ t ∈ terms, m.owns t.var = true) (hfixed : ∀ t ∈ terms, m.Fixed t.var) {a : Assignment}
    (ha : m.Allows a) (h : sumFrom? (fun t => a t.var) sign sum terms = some total) :
    ∃ p, boundsFrom m sign sum sum terms = .ok (some p) := by
  induction terms generalizing sum with
  | nil => exact ⟨_, rfl⟩
  | cons t rest ih =>
    have hx := howns t List.mem_cons_self
    have hf := hfixed t List.mem_cons_self
    obtain ⟨l, g, hr, -, ⟨v, hv, hl⟩, ⟨u, hu, hg⟩⟩ := rangeIn_spec hw hx (sign * t.coefficient)
    rw [hw.eq_of_fixed hf hv (ha _ hx)] at hl
    rw [hw.eq_of_fixed hf hu (ha _ hx)] at hg
    obtain ⟨next, hnext, h⟩ := Option.bind_eq_some_iff.mp h
    simp only [boundsFrom, hr, ok_bind, hl, hg, hnext]
    exact ih (fun t ht => howns t (List.mem_cons_of_mem _ ht)) (fun t ht => hfixed t (List.mem_cons_of_mem _ ht)) h

end Bounds

/-! ### Passes -/

section Passes

variable [Tolerance] {H : Assignment → Prop} {start s₀ s : Scene} {l : List VarId}

omit [Tolerance] in
/-- A bound beyond the range of values is kept by all of them. -/
theorem le_of_le_ofInt? {v bound : Int} (h : v ≤ (Value.ofInt? bound).getD Value.greatest) (hb : Value.least ≤ bound) :
    v ≤ bound := by
  by_cases hf : Value.Fits bound
  · simpa [Value.ofInt?, hf] using h
  · simp only [Value.ofInt?, hf, if_false, Option.getD_none] at h
    simp only [Value.Fits] at hf
    omega

omit [Tolerance] in
theorem le_of_ofInt?_le {v bound : Int} (h : (Value.ofInt? bound).getD Value.least ≤ v) (hb : bound ≤ Value.greatest) :
    bound ≤ v := by
  by_cases hf : Value.Fits bound
  · simpa [Value.ofInt?, hf] using h
  · simp only [Value.ofInt?, hf, if_false, Option.getD_none] at h
    simp only [Value.Fits] at hf
    omega

/-- A term that keeps its bounds, and some value of which fits in the slack, fits in it with all of its values. -/
theorem filterTerm_spec (hin : Within H start s) {k slack : Int} (hk : k ≠ 0) {x : VarId}
    (hx : start.model.owns x = true) (hl : x ∈ l) (hH : ∀ a, H a → start.model.Allows a → k * a x ≤ slack) :
    Leads H start (filterTerm k x slack) s fun moved s' => Tallies l s moved s' ∧
      (∀ z v, s'.model.Has z v → s.model.Has z v) ∧
      (moved = false → (∃ u, s.model.Has x u ∧ k * u ≤ slack) → ∀ v, s.model.Has x v → k * v ≤ slack) := by
  have hfits : ∀ a, H a → start.model.Allows a → Value.Fits (a x) := fun a ha hallows =>
    hin.wellFormed.fits (hin.keeps a ha hallows x (hin.owns hx))
  -- a bound that did not move is kept by all values
  have hunmoved : ∀ (μ : Mutation) (moved : Bool) (m' : Model), ¬μ.Removes →
      Model.Narrowed x μ (.propagator start.self) s.model moved m' → moved = false →
        ∀ v, s.model.Has x v → μ.Keeps v := by
    intro μ moved m' hμ hn hmoved v hv
    rw [← hn.unchanged hmoved] at hv
    exact ((hn.has_iff v).mp hv).keeps hμ
  rw [filterTerm]
  by_cases hpos : 0 < k
  · rw [if_pos hpos]
    refine Leads.narrow hin hx (fun a ha hallows => ?_) fun moved m' hn => ⟨.narrowed hl hn, hn.narrows.has, ?_⟩
    · have hle : a x ≤ slack / k := (Int.le_ediv_iff_mul_le hpos).mpr (by
        rw [Int.mul_comm]
        exact hH a ha hallows)
      simp only [Mutation.Keeps, Value.ofInt?]
      split
      · exact hle
      · exact (hfits a ha hallows).2
    · rintro hmoved ⟨u, hu, hslack⟩ v hv
      have hule : u ≤ slack / k := (Int.le_ediv_iff_mul_le hpos).mpr (by rwa [Int.mul_comm])
      have hle : v ≤ slack / k := le_of_le_ofInt? (hunmoved _ _ _ id hn hmoved v hv)
        (Int.le_trans (hin.wellFormed.fits hu).1 hule)
      rw [Int.mul_comm]
      exact (Int.le_ediv_iff_mul_le hpos).mp hle
  · rw [if_neg hpos]
    have hneg : 0 < -k := by omega
    refine Leads.narrow hin hx (fun a ha hallows => ?_) fun moved m' hn => ⟨.narrowed hl hn, hn.narrows.has, ?_⟩
    · have hle : -a x ≤ slack / -k := (Int.le_ediv_iff_mul_le hneg).mpr (by
        rw [Int.neg_mul_neg, Int.mul_comm]
        exact hH a ha hallows)
      simp only [Mutation.Keeps, Value.ofInt?]
      split
      · simp only [Option.getD_some]
        omega
      · exact (hfits a ha hallows).1
    · rintro hmoved ⟨u, hu, hslack⟩ v hv
      have hule : -u ≤ slack / -k := (Int.le_ediv_iff_mul_le hneg).mpr (by rwa [Int.neg_mul_neg, Int.mul_comm])
      have hfu := (hin.wellFormed.fits hu).2
      have hle : -(slack / -k) ≤ v := le_of_ofInt?_le (hunmoved _ _ _ id hn hmoved v hv) (by omega)
      have := (Int.le_ediv_iff_mul_le hneg).mp (show -v ≤ slack / -k by omega)
      rwa [Int.neg_mul_neg, Int.mul_comm] at this

/-- The room suffices for every term, whichever value of its variable the room was reckoned with. Where nothing
changed it suffices for all values, if the terms are in range. -/
theorem filterTerms_spec (hin : Within H start s) {sign room : Int} {terms : List Term} (hsign : sign ≠ 0)
    (hne : ∀ t ∈ terms, t.coefficient ≠ 0) (howns : ∀ t ∈ terms, start.model.owns t.var = true)
    (hl : ∀ t ∈ terms, t.var ∈ l) (hroom : ∀ t ∈ terms, ∀ a, H a → start.model.Allows a → ∀ v, s.model.Has t.var v →
      sign * t.coefficient * a t.var ≤ room + sign * t.coefficient * v) {changed : Bool}
    (ht : Tallies l s₀ changed s) :
    Leads H start (filterTerms sign room changed terms) s fun any s' => Tallies l s₀ any s' ∧ (any = false →
      changed = false ∧ (0 ≤ room → TermsFit s.model sign terms → ∀ t ∈ terms, ∀ v u, s.model.Has t.var v →
        s.model.Has t.var u → sign * t.coefficient * v ≤ room + sign * t.coefficient * u)) := by
  induction terms generalizing s changed with
  | nil => exact Leads.pure hin ⟨ht, fun hc => ⟨hc, by simp⟩⟩
  | cons t rest ih =>
    have hx := howns t List.mem_cons_self
    obtain ⟨own, high, hr, hbetween, ⟨v, hv, hown⟩, -⟩ :=
      rangeIn_spec hin.wellFormed (hin.owns hx) (sign * t.coefficient)
    refine Leads.ask_bind hin hr ?_
    simp only
    have hne' : ∀ t ∈ rest, t.coefficient ≠ 0 := fun t ht => hne t (List.mem_cons_of_mem _ ht)
    have howns' : ∀ t ∈ rest, start.model.owns t.var = true := fun t ht => howns t (List.mem_cons_of_mem _ ht)
    have hl' : ∀ t ∈ rest, t.var ∈ l := fun t ht => hl t (List.mem_cons_of_mem _ ht)
    split
    · rename_i hnone
      refine Leads.mono (ih hin hne' howns' hl' (fun t ht => hroom t (List.mem_cons_of_mem _ ht)) ht) ?_
      rintro any s' - ⟨ht', hany⟩
      refine ⟨ht', fun hc => ⟨(hany hc).1, fun hpos hfit => ?_⟩⟩
      obtain ⟨hfit₁, hfit₂⟩ := List.forall_mem_cons.mp hfit
      refine List.forall_mem_cons.mpr ⟨fun w u hw hu => ?_, (hany hc).2 hpos hfit₂⟩
      -- there is more room than any value of the term takes
      have h1 := hfit₁ w hw
      have h2 := hfit₁ v hv
      have h3 := (hbetween u hu).1
      have h4 : ¬Sum.Fits (room + own) := fun hf => by simp [Sum.ofInt?, hf] at hnone
      simp only [Sum.Fits] at h1 h2 h4
      omega
    · rename_i slack hslack
      obtain ⟨-, rfl⟩ := Sum.ofInt?_eq_some_iff.mp hslack
      have hk : sign * t.coefficient ≠ 0 := Int.mul_ne_zero hsign (hne t List.mem_cons_self)
      refine Leads.bind (filterTerm_spec hin hk hx (hl t List.mem_cons_self) fun a ha hallows => ?_) ?_
      · rw [hown]
        exact hroom t List.mem_cons_self a ha hallows v hv
      · rintro moved s1 hin1 ⟨ht1, hsub, hkept⟩
        refine Leads.mono (ih hin1 hne' howns' hl' ?_ (ht.trans ht1)) ?_
        · exact fun t ht a ha hallows v hv => hroom t (List.mem_cons_of_mem _ ht) a ha hallows v (hsub _ v hv)
        · rintro any s' - ⟨ht', hany⟩
          refine ⟨ht', fun hc => ?_⟩
          obtain ⟨hnone, hrest⟩ := hany hc
          rw [Bool.or_eq_false_iff] at hnone
          rw [ht1.same hnone.2] at hrest
          refine ⟨hnone.1, fun hpos hfit => ?_⟩
          refine List.forall_mem_cons.mpr ⟨fun w u hw hu => ?_, hrest hpos (List.forall_mem_cons.mp hfit).2⟩
          have h1 := hkept hnone.2 ⟨v, hv, by omega⟩ w hw
          have h2 := (hbetween u hu).1
          omega

end Passes

variable {c : Linear}

/-! ### What is asked of an assignment -/

theorem HasRoom.of_narrower {m m' : Model} (h : c.HasRoom m) (hsub : ∀ x v, m'.Has x v → m.Has x v) : c.HasRoom m' :=
  fun side hside w hw => h side hside w fun t ht => hsub _ _ (hw t ht)

theorem Mirrored.of_narrower {m m' : Model} (h : c.Mirrored m) (hsub : ∀ x v, m'.Has x v → m.Has x v) :
    c.Mirrored m' := fun side hside w hw => h side hside w fun t ht => hsub _ _ (hw t ht)

theorem InRange.mirrored {m : Model} (h : c.InRange m) (hw : m.WellFormed) (howns : ∀ t ∈ c.terms, m.owns t.var = true) :
    c.Mirrored m := by
  intro side hside w hpicks sum hsum
  obtain ⟨least, greatest, hb⟩ := h side hside
  exact exists_sumFrom?_of_boundsFrom hw howns (Int.le_refl 0) (Int.le_refl 0) hb hpicks

theorem holds_iff {a : Assignment} :
    c.Holds a ↔ ∀ side ∈ c.sides, side.sign * total c.terms a ≤ side.sign * c.constant := by
  simp only [Holds, sides]
  cases c.relation <;>
    simp only [LinearRelation.toRelation, Relation.Holds, List.forall_mem_cons, List.not_mem_nil, false_implies,
      implies_true, and_true, Side.sign] <;> omega

theorem Holds.admits {a : Assignment} (h : c.Holds a) : c.Admits a := by
  intro side hside sum hsum
  rw [eq_of_sumFrom? hsum, Int.zero_add]
  exact holds_iff.mp h side hside

theorem Admits.holds {a : Assignment} (h : c.Admits a)
    (hsums : ∀ side ∈ c.sides, ∃ sum, c.sum? side (fun t => a t.var) = some sum) : c.Holds a := by
  refine holds_iff.mpr fun side hside => ?_
  obtain ⟨sum, hsum⟩ := hsums side hside
  have hle := h side hside sum hsum
  rwa [eq_of_sumFrom? hsum, Int.zero_add] at hle

/-- Sums in range have to compare with the constant. -/
theorem admits_iff {m : Model} (hw : m.WellFormed) (howns : ∀ t ∈ c.terms, m.owns t.var = true) (hrange : c.InRange m)
    {a : Assignment} (ha : m.Allows a) : c.Admits a ↔ c.Holds a := by
  refine ⟨fun h => h.holds fun side hside => ?_, Holds.admits⟩
  obtain ⟨least, greatest, hb⟩ := hrange side hside
  exact exists_sumFrom?_of_boundsFrom hw howns (Int.le_refl 0) (Int.le_refl 0) hb fun t ht => ha _ (howns t ht)

theorem admits_congr {a b : Assignment} (h : ∀ t ∈ c.terms, a t.var = b t.var) : c.Admits a ↔ c.Admits b := by
  simp only [Admits, Below, sum?, sumFrom?_congr h]

section Passes

variable [Tolerance] {H : Assignment → Prop} {start s : Scene}

/-- The least sum keeps to the constant unless there is no assignment to keep, and the room that is left above it
suffices for the assignments. -/
theorem filterSide_leads (hin : Within H start s) {side : Side} (hside : side ∈ c.sides)
    (hne : ∀ t ∈ c.terms, t.coefficient ≠ 0) (howns : ∀ t ∈ c.terms, start.model.owns t.var = true)
    (hroom : Fault.overflow.Tolerated ∨ c.HasRoom s.model)
    (hH : ∀ least greatest, c.bounds s.model side.sign = .ok (some (least, greatest)) → ∀ a, H a → start.model.Allows a →
      least ≤ side.sign * c.constant ∧ ∀ t ∈ c.terms, ∀ v, s.model.Has t.var v →
        side.sign * t.coefficient * a t.var ≤ side.sign * c.constant - least + side.sign * t.coefficient * v) :
    Leads H start (c.filterSide side) s (Passes (c.terms.map Term.var) (c.Tight side) s) := by
  have hw := hin.wellFormed
  have howns' : ∀ t ∈ c.terms, s.model.owns t.var = true := fun t ht => hin.owns (howns t ht)
  obtain ⟨r, hb⟩ := boundsFrom_total hw howns' side.sign 0 0
  refine Leads.ask_bind hin hb ?_
  cases r with
  | none => exact Leads.pure hin ⟨.refl _ s, fun _ least greatest hbounds => by cases hb.symm.trans hbounds⟩
  | some p =>
    obtain ⟨least, greatest⟩ := p
    simp only
    by_cases hlt : side.sign * c.constant < least
    · rw [if_pos hlt]
      refine Leads.fail hin fun a ha hallows => ?_
      have := (hH least greatest hb a ha hallows).1
      omega
    rw [if_neg hlt]
    split
    · rename_i hnone
      refine Leads.abort (hroom.resolve_right fun hroom => ?_)
      obtain ⟨w, hpicks, hsum⟩ := exists_sumFrom?_least hw howns' hb
      have hle := hroom side hside w hpicks least hsum
      rw [Sum.ofInt?, if_pos (by simp only [Sum.Fits, Sum.least]; omega)] at hnone
      cases hnone
    rename_i room hroom
    obtain ⟨-, rfl⟩ := Sum.ofInt?_eq_some_iff.mp hroom
    have hsign : side.sign ≠ 0 := by cases side <;> decide
    have hscope : ∀ t ∈ c.terms, t.var ∈ c.terms.map Term.var := fun t ht => List.mem_map_of_mem ht
    refine Leads.mono (filterTerms_spec hin hsign hne howns hscope
      (fun t ht a ha hallows => (hH least greatest hb a ha hallows).2 t ht) (.refl _ s)) ?_
    rintro changed s' - ⟨ht, hany⟩
    refine ⟨ht, fun hc least' greatest' hb' => ?_⟩
    cases hb.symm.trans hb'
    exact ⟨by omega, (hany hc).2 (by omega)⟩

omit [Tolerance] in
/-- Where all variables are fixed the sum keeps to the constant. -/
theorem Tight.below {m : Model} {side : Side} (h : c.Tight side m) (hw : m.WellFormed)
    (howns : ∀ t ∈ c.terms, m.owns t.var = true) (hfixed : ∀ t ∈ c.terms, m.Fixed t.var) {a : Assignment}
    (ha : m.Allows a) : c.Below side a := by
  intro sum hsum
  obtain ⟨⟨least, greatest⟩, hb⟩ := exists_boundsFrom_of_fixed hw howns hfixed ha hsum
  have hleast := (boundsFrom_spec hw howns hb ha).2.2.2 hfixed
  have heq := eq_of_sumFrom? hsum
  have hle := (h least greatest hb).1
  omega

theorem filterSide_spec (hin : Within H start s) {side : Side} (hside : side ∈ c.sides)
    (hne : ∀ t ∈ c.terms, t.coefficient ≠ 0) (howns : ∀ t ∈ c.terms, start.model.owns t.var = true)
    (hroom : Fault.overflow.Tolerated ∨ c.HasRoom s.model) (hH : ∀ a, H a → c.Below side a) :
    Leads H start (c.filterSide side) s (Passes (c.terms.map Term.var) (c.Tight side) s) := by
  have hw := hin.wellFormed
  have howns' : ∀ t ∈ c.terms, s.model.owns t.var = true := fun t ht => hin.owns (howns t ht)
  refine filterSide_leads hin hside hne howns hroom fun least greatest hb a ha hallows => ?_
  have hkept := hin.keeps a ha hallows
  obtain ⟨sum, hsum⟩ := exists_sumFrom?_of_boundsFrom hw howns' (Int.le_refl 0) (Int.le_refl 0) hb
    (w := fun t => a t.var) fun t ht => hkept _ (howns' t ht)
  have hle := hH a ha sum hsum
  rw [eq_of_sumFrom? hsum, Int.zero_add] at hle
  obtain ⟨h1, -, h2, -⟩ := boundsFrom_spec hw howns' hb hkept
  refine ⟨by omega, fun t ht v hv => ?_⟩
  have := h2 t ht v hv
  omega

/-- One pass, by what it is on each of the sides that matter. -/
theorem pass_leads {l : List VarId} {P : Side → Model → Prop} (hin : Within H start s)
    (h : ∀ side ∈ c.sides, ∀ s, Within H start s → Leads H start (c.filterSide side) s (Passes l (P side) s)) :
    Leads H start c.pass s (Passes l (fun m => ∀ side ∈ c.sides, P side m) s) := by
  rw [pass]
  cases hr : c.relation with
  | le =>
    simp only [sides, hr, List.mem_singleton, forall_eq] at h ⊢
    exact h s hin
  | ge =>
    simp only [sides, hr, List.mem_singleton, forall_eq] at h ⊢
    exact h s hin
  | eq =>
    simp only [sides, hr, List.forall_mem_cons, List.not_mem_nil, false_implies, implies_true, and_true] at h ⊢
    exact Leads.both hin h.1 h.2

/-- A pass that changes nothing leaves no bound to move. -/
theorem pass_spec (hin : Within c.Admits start s) (hne : ∀ t ∈ c.terms, t.coefficient ≠ 0)
    (howns : ∀ t ∈ c.terms, start.model.owns t.var = true)
    (hroom : Fault.overflow.Tolerated ∨ c.HasRoom start.model) :
    Leads c.Admits start c.pass s (Passes (c.terms.map Term.var) (fun m => ∀ side ∈ c.sides, c.Tight side m) s) :=
  pass_leads hin fun side hside _ hin => filterSide_spec hin hside hne howns
    (hroom.imp_right fun hroom => hroom.of_narrower hin.narrows.has) fun _ ha => ha side hside

/-- The pass is repeated until it changes nothing, which cannot be oftener than there are values to lose. -/
theorem settle_spec {l : List VarId} {P : Model → Prop} (hin : Within H start s)
    (h : ∀ s, Within H start s → Leads H start c.pass s (Passes l P s)) {fuel : Nat} (hfuel : s.model.spare l < fuel) :
    Leads H start (c.settle fuel) s fun _ s' => s'.passive = s.passive ∧ P s'.model := by
  induction fuel generalizing s with
  | zero => exact absurd hfuel (Nat.not_lt_zero _)
  | succ fuel ih =>
    refine Leads.bind (h s hin) ?_
    rintro changed s1 hin1 ⟨ht, hP⟩
    cases changed with
    | true =>
      have hlt := ht.fewer rfl
      exact Leads.mono (ih hin1 (by omega)) fun _ s2 _ h2 => ⟨h2.1.trans ht.passive, h2.2⟩
    | false => exact Leads.pure hin1 ⟨ht.passive, ht.same rfl ▸ hP rfl⟩

end Passes

/-! ### What is known -/

theorem slackOf_spec {m : Model} (hw : m.WellFormed) {terms : List Term}
    (howns : ∀ t ∈ terms, m.owns t.var = true) :
    ∃ n, slackOf m terms = .ok n ∧ m.spare (terms.map Term.var) ≤ n := by
  induction terms with
  | nil => exact ⟨0, rfl, Nat.le_refl 0⟩
  | cons t rest ih =>
    obtain ⟨l, hl, -, hl'⟩ := hw.lb_spec (howns t List.mem_cons_self)
    obtain ⟨u, hu, -, hu'⟩ := hw.ub_spec (howns t List.mem_cons_self)
    obtain ⟨n, hn, hle⟩ := ih fun t ht => howns t (List.mem_cons_of_mem _ ht)
    refine ⟨_, by rw [slackOf, hu, ok_bind, hl, ok_bind, hn]; rfl, ?_⟩
    have hcount := Model.count_le_span hl' hu'
    simp only [Model.spare, List.map_cons, List.foldr_cons] at hle ⊢
    omega

/-- What is known of a sum in range is so. -/
theorem entailed_holds {m : Model} (hw : m.WellFormed) (howns : ∀ t ∈ c.terms, m.owns t.var = true) :
    ∃ r, c.entailed m = .ok r ∧ (r ≠ .undecided → ∃ p, c.bounds m 1 = .ok (some p)) ∧ r.Tells m c.Holds := by
  obtain ⟨r, hr⟩ := boundsFrom_total hw howns 1 0 0
  have hb : c.bounds m 1 = .ok r := hr
  simp only [entailed, hb, ok_bind]
  cases r with
  | none => exact ⟨.undecided, rfl, (fun h => absurd rfl h), .of_undecided⟩
  | some p =>
    obtain ⟨least, greatest⟩ := p
    have hbetween : ∀ a, m.Allows a → least ≤ total c.terms a ∧ total c.terms a ≤ greatest := by
      intro a ha
      obtain ⟨h1, h2, -⟩ := boundsFrom_spec hw howns hr ha
      omega
    cases hrel : c.relation with
    | le =>
      have hH : ∀ a, c.Holds a ↔ total c.terms a ≤ c.constant := fun a => by rw [Holds, hrel]; rfl
      refine ⟨_, rfl, fun _ => ⟨_, rfl⟩, .of_ite (fun h a ha => ?_) fun h a ha => ?_⟩ <;> rw [hH] <;>
        have := hbetween a ha <;> omega
    | ge =>
      have hH : ∀ a, c.Holds a ↔ c.constant ≤ total c.terms a := fun a => by rw [Holds, hrel]; rfl
      refine ⟨_, rfl, fun _ => ⟨_, rfl⟩, .of_ite (fun h a ha => ?_) fun h a ha => ?_⟩ <;> rw [hH] <;>
        have := hbetween a ha <;> omega
    | eq =>
      have hH : ∀ a, c.Holds a ↔ total c.terms a = c.constant := fun a => by rw [Holds, hrel]; rfl
      refine ⟨_, rfl, fun _ => ⟨_, rfl⟩, .of_ite (fun h a ha => ?_) fun h a ha => ?_⟩ <;> rw [hH] <;>
        have := hbetween a ha <;> omega

theorem entailed_spec {m : Model} (hw : m.WellFormed) (howns : ∀ t ∈ c.terms, m.owns t.var = true) :
    ∃ r, c.entailed m = .ok r ∧ (r = .always → ∀ a, m.Allows a → c.Admits a) ∧
      (c.Mirrored m → r = .never → ∀ a, m.Allows a → ¬c.Admits a) := by
  obtain ⟨r, hr, hbounds, halways, hnever⟩ := entailed_holds hw howns
  refine ⟨r, hr, fun h a ha => (halways h a ha).admits, fun hmirrored h a ha hadmits => hnever h a ha ?_⟩
  obtain ⟨⟨least, greatest⟩, hb⟩ := hbounds (by rw [h]; decide)
  have hpicks : c.Picks m fun t => a t.var := fun t ht => ha _ (howns t ht)
  obtain ⟨sum, hsum⟩ := exists_sumFrom?_of_boundsFrom hw howns (Int.le_refl 0) (Int.le_refl 0) hb hpicks
  exact hadmits.holds fun side hside => hmirrored side hside _ hpicks sum hsum

/-- The sum is filtered until a pass would change nothing, and then it is asked whether it is settled. -/
theorem filter_leads [Tolerance] {H : Assignment → Prop} {start : Scene} {P : Model → Prop} {S : Unit → Scene → Prop}
    (hw : start.model.WellFormed) (howns : ∀ t ∈ c.terms, start.model.owns t.var = true)
    (hpass : ∀ s, Within H start s → Leads H start c.pass s (Passes (c.terms.map Term.var) P s))
    (hrest : ∀ s r, Within H start s → s.passive = start.passive → P s.model → c.entailed s.model = .ok r →
      Leads H start (if r = .always then setPassive else pure ()) s S) :
    Leads H start c.filter start S := by
  have hin : Within H start start := .refl hw
  obtain ⟨n, hn, hle⟩ := slackOf_spec hw howns
  refine Leads.ask_bind hin hn ?_
  refine Leads.bind (settle_spec hin hpass (Nat.lt_succ_of_le hle)) ?_
  rintro _ s hs ⟨hp, hP⟩
  obtain ⟨r, hr, -⟩ := entailed_spec (c := c) hs.wellFormed fun t ht => hs.owns (howns t ht)
  exact Leads.ask_bind hs hr (hrest s r hs hp hP hr)

/-- A run that asks not to be woken again has found the sum to be satisfied, whatever the values. -/
theorem filter_holds [Tolerance] {start : Scene} (hw : start.model.WellFormed)
    (hne : ∀ t ∈ c.terms, t.coefficient ≠ 0) (howns : ∀ t ∈ c.terms, start.model.owns t.var = true)
    (hroom : Fault.overflow.Tolerated ∨ c.HasRoom start.model) (hp : start.passive = false) :
    Leads c.Admits start c.filter start fun _ s => Decided c.Admits (c.terms.map Term.var).toArray s ∧
      (s.passive = true → ∀ a, s.model.Allows a → c.Holds a) := by
  refine filter_leads hw howns (fun s hs => pass_spec hs hne howns hroom) fun s r hs hp' hP hr => ?_
  have howns' : ∀ t ∈ c.terms, s.model.owns t.var = true := fun t ht => hs.owns (howns t ht)
  obtain ⟨r', hr', -, halways, -⟩ := entailed_holds (c := c) hs.wellFormed howns'
  cases hr.symm.trans hr'
  by_cases h : r = .always
  · rw [if_pos h]
    have hholds := halways h
    exact Leads.setPassive hs ⟨.of_entailed fun a ha => (hholds a ha).admits, fun _ => hholds⟩
  · rw [if_neg h]
    have hawake : s.passive = true → False := fun hs => by rw [hp', hp] at hs; cases hs
    refine Leads.pure hs ⟨⟨fun hfixed a ha side hside => ?_, fun hs => (hawake hs).elim⟩, fun hs => (hawake hs).elim⟩
    refine (hP side hside).below hs.wellFormed howns' (fun t ht => hfixed _ ?_) ha
    rw [List.mem_toArray]
    exact List.mem_map_of_mem ht

theorem filter_spec [Tolerance] {start : Scene} (hw : start.model.WellFormed) (hne : ∀ t ∈ c.terms, t.coefficient ≠ 0)
    (howns : ∀ t ∈ c.terms, start.model.owns t.var = true)
    (hroom : Fault.overflow.Tolerated ∨ c.HasRoom start.model) (hp : start.passive = false) :
    Leads c.Admits start c.filter start fun _ s => Decided c.Admits (c.terms.map Term.var).toArray s :=
  (filter_holds hw hne howns hroom hp).mono fun _ _ _ h => h.1

end Linear

end FiniteDomain
