import FiniteDomain.Proofs.Constraint.Basic
import FiniteDomain.Proofs.Model.Lifetime

/-!
# What a run leaves of a sum

A run of a sum moves bounds until a pass moves none, so that each bound that is left takes part in a sum that keeps to
the constant, with the least values of all other terms on one side and with their greatest on the other. Where all
variables are fixed the run finds a contradiction just if the sum does not compare with the constant. Both hold of the
integers, as long as the partial sums keep to the range of sums: a side whose sums leave it is let stand.

* `run_tight`: the bounds that are left;
* `run_ground`: fixed variables.
-/

namespace FiniteDomain

open FiniteDomain.Filter Activity

/-- The values of the variable range from one to the other. -/
def Model.Ranges (m : Model) (x : VarId) (l u : Int) : Prop := m.lb x = .ok l ∧ m.ub x = .ok u

theorem Model.WellFormed.ranges_spec {m : Model} (hw : m.WellFormed) {x : VarId} {l u : Int} (h : m.Ranges x l u) :
    m.owns x = true ∧ m.Has x l ∧ m.Has x u ∧ l ≤ u := by
  have hlow := hw.has_of_bound (.inl h.1)
  have hhigh := hw.has_of_bound (.inr h.2)
  exact ⟨hlow.owns, hlow, hhigh, hw.le_of_lb h.1 hhigh⟩

theorem Model.WellFormed.exists_ranges {m : Model} (hw : m.WellFormed) {vars : List VarId}
    (h : ∀ x ∈ vars, m.owns x = true) : ∃ lb ub : Assignment, ∀ x ∈ vars, m.Ranges x (lb x) (ub x) := by
  have hranges : ∀ x, ∃ p : Int × Int, x ∈ vars → m.Ranges x p.1 p.2 := by
    intro x
    by_cases hx : x ∈ vars
    · obtain ⟨l, hl, -⟩ := hw.lb_spec (h x hx)
      obtain ⟨u, hu, -⟩ := hw.ub_spec (h x hx)
      exact ⟨(l, u), fun _ => ⟨hl, hu⟩⟩
    · exact ⟨(0, 0), fun hc => absurd hc hx⟩
  obtain ⟨p, hp⟩ := Classical.axiomOfChoice hranges
  exact ⟨fun x => (p x).1, fun x => (p x).2, hp⟩

namespace Linear

variable {m : Model} {terms : List Term} {lb ub a : Assignment}

/-! ### Sums over terms -/

/-- The terms of some variables, each with its coefficient. -/
def termsOf (coefficients : List Int) (vars : List VarId) : List Term := List.zipWith Term.mk coefficients vars

/-- The sum of the least values of some terms over the bounds of their variables. -/
def lows (terms : List Term) (lb ub : Assignment) : Int :=
  (terms.map fun t => min (t.coefficient * lb t.var) (t.coefficient * ub t.var)).sum

/-- The sum of the greatest values. -/
def highs (terms : List Term) (lb ub : Assignment) : Int :=
  (terms.map fun t => max (t.coefficient * lb t.var) (t.coefficient * ub t.var)).sum

/-- The least value of the sum that is looked at on a side. -/
def Side.least (lb ub : Assignment) (terms : List Term) : Side → Int
  | upper => lows terms lb ub
  | lower => -highs terms lb ub

/-- The greatest value of the sum that is looked at on a side. -/
def Side.greatest (lb ub : Assignment) (terms : List Term) : Side → Int
  | upper => highs terms lb ub
  | lower => -lows terms lb ub

theorem Side.least_append (side : Side) (pre post : List Term) :
    side.least lb ub (pre ++ post) = side.least lb ub pre + side.least lb ub post := by
  cases side <;> simp only [least, lows, highs, List.map_append, List.sum_append, Int.neg_add]

theorem Side.greatest_append (side : Side) (pre post : List Term) :
    side.greatest lb ub (pre ++ post) = side.greatest lb ub pre + side.greatest lb ub post := by
  cases side <;> simp only [greatest, lows, highs, List.map_append, List.sum_append, Int.neg_add]

/-- Of the two sums of a side one is the least and the other the greatest. -/
theorem Side.fits_iff (side : Side) (terms : List Term) :
    Sum.Fits (side.least lb ub terms) ∧ Sum.Fits (side.greatest lb ub terms) ↔
      Sum.Fits (side.sign * lows terms lb ub) ∧ Sum.Fits (side.sign * highs terms lb ub) := by
  cases side
  · simp only [least, greatest, sign, Int.one_mul]
  · simp only [least, greatest, sign, Int.neg_mul, Int.one_mul, and_comm]

theorem total_eq_sum (terms : List Term) (a : Assignment) :
    total terms a = (terms.map fun t => t.coefficient * a t.var).sum := by
  rw [total, List.sum, List.foldr_map]

/-- What holds of all beginnings of a list holds of none of it and of all that begin with its head. -/
theorem forall_prefix_cons {t : Term} {rest : List Term} {P : List Term → Prop} :
    (∀ pre, pre <+: t :: rest → P pre) ↔ P [] ∧ ∀ pre, pre <+: rest → P (t :: pre) := by
  constructor
  · exact fun h => ⟨h [] List.nil_prefix, fun pre hpre => h _ (List.prefix_cons_iff.mpr (.inr ⟨pre, rfl, hpre⟩))⟩
  · rintro ⟨hnil, hcons⟩ pre hpre
    rcases List.prefix_cons_iff.mp hpre with rfl | ⟨pre', rfl, hpre'⟩
    · exact hnil
    · exact hcons pre' hpre'

/-! ### What is computed -/

theorem termRange_eq {k l u : Int} (h : l ≤ u) : termRange k l u = (min (k * l) (k * u), max (k * l) (k * u)) := by
  rw [termRange]
  split
  · rename_i hk
    have := Int.mul_le_mul_of_nonneg_left h hk
    rw [Int.min_eq_left this, Int.max_eq_right this]
  · rename_i hk
    have := Int.mul_le_mul_of_nonpos_left (show k ≤ 0 by omega) h
    rw [Int.min_eq_right this, Int.max_eq_left this]

/-- The range of a term goes from its least to its greatest value. -/
theorem rangeIn_eq (hw : m.WellFormed) {t : Term} (h : m.Ranges t.var (lb t.var) (ub t.var)) (side : Side) :
    rangeIn m (side.sign * t.coefficient) t.var = .ok (side.least lb ub [t], side.greatest lb ub [t]) := by
  obtain ⟨-, -, -, hle⟩ := hw.ranges_spec h
  simp only [rangeIn, h.1, h.2, ok_bind, pure_eq_ok, termRange_eq hle]
  cases side <;>
    simp only [Side.sign, Side.least, Side.greatest, lows, highs, List.map_cons, List.map_nil, List.sum_cons,
      List.sum_nil, Int.one_mul, Int.neg_mul, Except.ok.injEq, Prod.mk.injEq] <;> omega

/-- **The two sums that are found** are those of the least and of the greatest values, and they are found if all
partial sums keep to the range of sums. -/
theorem boundsFrom_eq_some_iff (hw : m.WellFormed) (hb : ∀ t ∈ terms, m.Ranges t.var (lb t.var) (ub t.var))
    (side : Side) {low high least greatest : Int} (hlow : Sum.Fits low) (hhigh : Sum.Fits high) :
    boundsFrom m side.sign low high terms = .ok (some (least, greatest)) ↔
      (∀ pre, pre <+: terms → Sum.Fits (low + side.least lb ub pre) ∧ Sum.Fits (high + side.greatest lb ub pre)) ∧
        least = low + side.least lb ub terms ∧ greatest = high + side.greatest lb ub terms := by
  have hnil : side.least lb ub [] = 0 ∧ side.greatest lb ub [] = 0 := by cases side <;> exact ⟨rfl, rfl⟩
  induction terms generalizing low high with
  | nil =>
    rw [hnil.1, hnil.2, Int.add_zero, Int.add_zero]
    constructor
    · rintro ⟨⟩
      refine ⟨fun pre hpre => ?_, rfl, rfl⟩
      rw [List.prefix_nil.mp hpre, hnil.1, hnil.2, Int.add_zero, Int.add_zero]
      exact ⟨hlow, hhigh⟩
    · rintro ⟨-, rfl, rfl⟩
      rfl
  | cons t rest ih =>
    obtain ⟨ht, hrest⟩ := List.forall_mem_cons.mp hb
    obtain ⟨l, g, hr, hcons⟩ : ∃ l g, rangeIn m (side.sign * t.coefficient) t.var = .ok (l, g) ∧
        ∀ pre, side.least lb ub (t :: pre) = l + side.least lb ub pre ∧
          side.greatest lb ub (t :: pre) = g + side.greatest lb ub pre :=
      ⟨_, _, rangeIn_eq hw ht side, fun pre => ⟨side.least_append [t] pre, side.greatest_append [t] pre⟩⟩
    simp only [boundsFrom, hr, ok_bind, forall_prefix_cons, hnil, Int.add_zero, hlow, hhigh, and_self, true_and, hcons,
      ← Int.add_assoc]
    split
    · rename_i h1 h2
      obtain ⟨hf1, rfl⟩ := Sum.ofInt?_eq_some_iff.mp h1
      obtain ⟨hf2, rfl⟩ := Sum.ofInt?_eq_some_iff.mp h2
      exact ih hrest hf1 hf2
    · rename_i hnot
      refine ⟨fun h => (by cases h), fun h => ?_⟩
      obtain ⟨hf1, hf2⟩ := h.1 [] List.nil_prefix
      rw [hnil.1, Int.add_zero] at hf1
      rw [hnil.2, Int.add_zero] at hf2
      exact (hnot _ _ (if_pos hf1) (if_pos hf2)).elim

/-- The partial sums of the values keep to the range of sums, with the sign that a side gives them. -/
def SumsFit (side : Side) (terms : List Term) (a : Assignment) : Prop :=
  ∀ pre, pre <+: terms → Sum.Fits (side.sign * total pre a)

theorem sumFrom?_eq_some_iff {sign sum r : Int} (hsum : Sum.Fits sum) :
    sumFrom? (fun t => a t.var) sign sum terms = some r ↔
      (∀ pre, pre <+: terms → Sum.Fits (sum + sign * total pre a)) ∧ r = sum + sign * total terms a := by
  have htotal : ∀ (sum : Int) t l, sum + sign * total (t :: l) a = sum + sign * t.coefficient * a t.var + sign * total l a :=
    fun sum t l => by rw [total_cons, Int.mul_add, ← Int.mul_assoc, ← Int.add_assoc]
  refine ⟨fun h => ⟨?_, eq_of_sumFrom? h⟩, ?_⟩
  · induction terms generalizing sum with
    | nil =>
      intro pre hpre
      simpa [List.prefix_nil.mp hpre, total] using hsum
    | cons t rest ih =>
      obtain ⟨next, hnext, h⟩ := Option.bind_eq_some_iff.mp h
      obtain ⟨hf, rfl⟩ := Sum.ofInt?_eq_some_iff.mp hnext
      refine forall_prefix_cons.mpr ⟨by simpa [total] using hsum, fun pre hpre => ?_⟩
      rw [htotal]
      exact ih hf h pre hpre
  · induction terms generalizing sum with
    | nil =>
      rintro ⟨-, rfl⟩
      simp [sumFrom?, total]
    | cons t rest ih =>
      rintro ⟨hfits, rfl⟩
      simp only [forall_prefix_cons, htotal] at hfits
      have hf := hfits.2 [] List.nil_prefix
      simp only [total, List.foldr_nil, Int.mul_zero, Int.add_zero] at hf
      rw [sumFrom?, Sum.ofInt?, if_pos hf, Option.bind_some]
      exact ih hf ⟨hfits.2, htotal sum t rest⟩

/-- Admitted is what compares with the constant on every side on which its sums keep to their range. -/
theorem admits_iff_of_sumsFit {c : Linear} : c.Admits a ↔
    ∀ side ∈ c.sides, SumsFit side c.terms a → side.sign * total c.terms a ≤ side.sign * c.constant := by
  have hzero : Sum.Fits 0 := by decide
  simp only [Admits, Below, sum?, sumFrom?_eq_some_iff hzero, Int.zero_add, SumsFit]
  refine forall₂_congr fun side _ => ⟨fun h hfits => h _ ⟨hfits, rfl⟩, ?_⟩
  rintro h _ ⟨hfits, rfl⟩
  exact h hfits

/-! ### Fixed variables -/

/-- A run on fixed variables finds a contradiction just if their values are not admitted. -/
theorem filter_ground {c : Linear} (hw : m.WellFormed) (hne : ∀ t ∈ c.terms, t.coefficient ≠ 0)
    (ha : ∀ t ∈ c.terms, m.value? t.var = .ok (some (a t.var)))
    (hroom : ∀ side ∈ c.sides, SumsFit side c.terms a → side.sign * c.constant - side.sign * total c.terms a ≤ Sum.greatest)
    (id : PropId) (before : Array Notice) :
    ∃ result after, c.filter.run { self := id, model := m } before = .ok result after ∧
      (result.1 = .ok () ↔ c.Admits a) := by
  have hvalue : ∀ t ∈ c.terms, m.Fixed t.var ∧ ∀ v, m.Has t.var v ↔ v = a t.var := fun t ht =>
    hw.fixed_of_value? (ha t ht)
  have howns : ∀ t ∈ c.terms, m.owns t.var = true := fun t ht => (hvalue t ht).1.owns
  have hroom' : c.HasRoom m := by
    intro side hside w hpicks sum hsum
    rw [sum?, sumFrom?_congr fun t ht => ((hvalue t ht).2 _).mp (hpicks t ht), sumFrom?_eq_some_iff (by decide)] at hsum
    simp only [Int.zero_add] at hsum
    exact hsum.2 ▸ hroom side hside hsum.1
  -- other variables may have any values
  have hcongr : ∀ {m' : Model} {b : Assignment}, (∀ x v, m'.Has x v → m.Has x v) →
      (∀ t ∈ c.terms, m'.owns t.var = true) → m'.Allows b → (c.Admits b ↔ c.Admits a) :=
    fun hsub howns' hb => admits_congr fun t ht => ((hvalue t ht).2 _).mp (hsub _ _ (hb _ (howns' t ht)))
  obtain ⟨⟨r, s⟩, after, hrun, hends⟩ := Quiet.returns
    (@filter_spec c .strict { self := id, model := m } hw hne howns (.inr hroom') rfl) before
  refine ⟨(r, s), after, hrun, ?_⟩
  cases r with
  | error e =>
    obtain ⟨b, hb⟩ := hw.exists_allows
    refine ⟨fun h => (by cases h), fun h => absurd hb (hends.2 b ?_)⟩
    exact (hcongr (fun _ _ h => h) howns hb).mpr h
  | ok u =>
    obtain ⟨hin, hdecided⟩ := hends
    obtain ⟨b, hb⟩ := hin.wellFormed.exists_allows
    have howns' : ∀ t ∈ c.terms, s.model.owns t.var = true := fun t ht => hin.owns (howns t ht)
    refine ⟨fun _ => (hcongr hin.narrows.has howns' hb).mp (hdecided.ground (fun x hx => ?_) b hb), fun _ => rfl⟩
    obtain ⟨t, ht, rfl⟩ := List.mem_map.mp (List.mem_toArray.mp hx)
    exact hin.wellFormed.fixed_of_unique (howns' t ht) fun v hv => ((hvalue t ht).2 v).mp (hin.narrows.has _ v hv)

/-! ### Bounds that are left -/

/-- The least value of a term is attained, and no value of it is less. -/
theorem least_spec (hw : m.WellFormed) {t : Term} (h : m.Ranges t.var (lb t.var) (ub t.var)) (side : Side) :
    (∀ v, m.Has t.var v → side.least lb ub [t] ≤ side.sign * t.coefficient * v) ∧
      ∃ u, m.Has t.var u ∧ side.least lb ub [t] = side.sign * t.coefficient * u := by
  obtain ⟨l, g, hr, hbetween, hleast, -⟩ := rangeIn_spec hw (hw.ranges_spec h).1 (side.sign * t.coefficient)
  cases hr.symm.trans (rangeIn_eq hw h side)
  exact ⟨fun v hv => (hbetween v hv).1, hleast⟩

theorem least_le_of_sumFrom? (hw : m.WellFormed) (hb : ∀ t ∈ terms, m.Ranges t.var (lb t.var) (ub t.var)) {side : Side}
    {w : Term → Int} (hpicks : ∀ t ∈ terms, m.Has t.var (w t)) {sum r : Int}
    (h : sumFrom? w side.sign sum terms = some r) : sum + side.least lb ub terms ≤ r := by
  induction terms generalizing sum with
  | nil =>
    cases h
    cases side <;> simp [Side.least, lows, highs]
  | cons t rest ih =>
    obtain ⟨next, hnext, h⟩ := Option.bind_eq_some_iff.mp h
    obtain ⟨-, rfl⟩ := Sum.ofInt?_eq_some_iff.mp hnext
    have hrest := ih (List.forall_mem_cons.mp hb).2 (List.forall_mem_cons.mp hpicks).2 h
    have hfirst := (least_spec hw (hb t List.mem_cons_self) side).1 _ (hpicks t List.mem_cons_self)
    have : side.least lb ub (t :: rest) = side.least lb ub [t] + side.least lb ub rest := side.least_append [t] rest
    omega

/-- **Where there is no bound to move**, every value of a term keeps to the constant with the least values of the
others. -/
theorem Tight.le {c : Linear} {side : Side} (h : c.Tight side m) (hw : m.WellFormed)
    (hb : ∀ t ∈ c.terms, m.Ranges t.var (lb t.var) (ub t.var)) (hfit : TermsFit m side.sign c.terms)
    (hrange : ∃ least greatest, c.bounds m side.sign = .ok (some (least, greatest))) :
    side.least lb ub c.terms ≤ side.sign * c.constant ∧ ∀ pre t post, c.terms = pre ++ t :: post → ∀ v, m.Has t.var v →
      side.sign * t.coefficient * v + side.least lb ub (pre ++ post) ≤ side.sign * c.constant := by
  obtain ⟨least, greatest, hbounds⟩ := hrange
  obtain ⟨hleast, hterms⟩ := h least greatest hbounds
  obtain ⟨-, rfl, -⟩ := (boundsFrom_eq_some_iff hw hb side (by decide) (by decide)).mp hbounds
  rw [Int.zero_add] at hleast hterms
  refine ⟨hleast, fun pre t post heq v hv => ?_⟩
  have ht : t ∈ c.terms := heq ▸ List.mem_append_right pre List.mem_cons_self
  obtain ⟨-, u, hu, hown⟩ := least_spec hw (hb t ht) side
  have hle := hterms hfit t ht v u hv hu
  have hsplit : side.least lb ub c.terms = side.least lb ub [t] + side.least lb ub (pre ++ post) := by
    rw [heq, side.least_append, side.least_append pre, ← List.singleton_append, side.least_append]
    omega
  omega

/-- A run ends when there is no bound to move. -/
theorem filter_tight [Tolerance] {c : Linear} {start : Scene} (hw : start.model.WellFormed)
    (hne : ∀ t ∈ c.terms, t.coefficient ≠ 0) (howns : ∀ t ∈ c.terms, start.model.owns t.var = true)
    (hroom : Fault.overflow.Tolerated ∨ c.HasRoom start.model) :
    Leads c.Admits start c.filter start fun _ s => ∀ side ∈ c.sides, c.Tight side s.model := by
  refine filter_leads hw howns (fun s hs => pass_spec hs hne howns hroom) fun s r hs _ hP _ => ?_
  split
  · exact Leads.setPassive hs hP
  · exact Leads.pure hs hP

/-! ### Lists of coefficients -/

/-- The terms that count. -/
def counted (terms : List Term) : List Term := terms.filter fun t => t.coefficient ≠ 0

/-- What is put together from lists has the terms of these that count. -/
theorem eq_of_ofLists {coefficients : List Int} {vars : List VarId} {r : Relation} {k : Int} {c : Linear}
    (h : ofLists coefficients vars r k = .ok c) :
    c.terms = counted (termsOf coefficients vars) ∧ c.relation.toRelation = r ∧ c.constant = k := by
  rw [ofLists] at h
  split at h
  · cases h
  · split at h
    · cases h
    · rename_i relation hr
      cases h
      refine ⟨rfl, ?_, rfl⟩
      cases r <;> cases hr <;> rfl

theorem mem_termsOf {coefficients : List Int} {vars : List VarId} {t : Term} (ht : t ∈ termsOf coefficients vars) :
    t.coefficient ∈ coefficients ∧ t.var ∈ vars := by
  obtain ⟨i, hi, rfl⟩ := List.mem_iff_getElem.mp ht
  simp only [termsOf, List.getElem_zipWith]
  exact ⟨List.getElem_mem _, List.getElem_mem _⟩

theorem sum_counted {f : Term → Int} (hf : ∀ t, t.coefficient = 0 → f t = 0) (terms : List Term) :
    ((counted terms).map f).sum = (terms.map f).sum := by
  induction terms with
  | nil => rfl
  | cons t rest ih =>
    by_cases ht : t.coefficient = 0
    · rw [counted, List.filter_cons_of_neg (by simpa using ht), List.map_cons, List.sum_cons, hf t ht, Int.zero_add]
      exact ih
    · rw [counted, List.filter_cons_of_pos (by simpa using ht), List.map_cons, List.map_cons, List.sum_cons,
        List.sum_cons]
      exact congrArg _ ih

theorem total_counted (terms : List Term) (a : Assignment) : total (counted terms) a = total terms a := by
  rw [total_eq_sum, total_eq_sum, sum_counted fun t ht => by rw [ht, Int.zero_mul]]

theorem lows_counted (terms : List Term) : lows (counted terms) lb ub = lows terms lb ub :=
  sum_counted (fun t ht => by rw [ht, Int.zero_mul, Int.zero_mul, Int.min_self]) terms

theorem highs_counted (terms : List Term) : highs (counted terms) lb ub = highs terms lb ub :=
  sum_counted (fun t ht => by rw [ht, Int.zero_mul, Int.zero_mul, Int.max_self]) terms

/-- What does not see terms that do not count holds of all beginnings with them if it does without them. -/
theorem forall_prefix_counted {P : List Term → Prop} (hP : ∀ l, P (counted l) ↔ P l) :
    (∀ pre, pre <+: counted terms → P pre) ↔ ∀ pre, pre <+: terms → P pre := by
  constructor
  · exact fun h pre hpre => (hP pre).mp (h _ (List.prefix_filter_iff.mpr ⟨pre, hpre, rfl⟩))
  · intro h pre hpre
    obtain ⟨l, hl, rfl⟩ := List.prefix_filter_iff.mp hpre
    exact (hP l).mpr (h l hl)

theorem Side.least_counted (side : Side) (terms : List Term) :
    side.least lb ub (counted terms) = side.least lb ub terms := by
  cases side <;> simp only [least, lows_counted, highs_counted]

theorem sumsFit_counted (side : Side) (terms : List Term) : SumsFit side (counted terms) a ↔ SumsFit side terms a :=
  forall_prefix_counted fun l => by rw [total_counted]

/-- The two sums are found on a side if the partial sums of all terms keep to their range, with those that do not
count. -/
theorem exists_bounds_of_fits {c : Linear} (hterms : c.terms = counted terms) (hw : m.WellFormed)
    (hb : ∀ t ∈ c.terms, m.Ranges t.var (lb t.var) (ub t.var)) {side : Side}
    (hsums : ∀ pre, pre <+: terms → Sum.Fits (side.sign * lows pre lb ub) ∧ Sum.Fits (side.sign * highs pre lb ub)) :
    ∃ least greatest, c.bounds m side.sign = .ok (some (least, greatest)) := by
  refine ⟨_, _, (boundsFrom_eq_some_iff hw hb side (by decide) (by decide)).mpr ⟨?_, rfl, rfl⟩⟩
  simp only [Int.zero_add, Side.fits_iff, hterms]
  exact (forall_prefix_counted fun l => by rw [lows_counted, highs_counted]).mpr hsums

/-- What the constant leaves above a sum is no more than what it leaves above the least one. -/
theorem hasRoom_of_fits {c : Linear} (hterms : c.terms = counted terms) (hw : m.WellFormed)
    (hb : ∀ t ∈ c.terms, m.Ranges t.var (lb t.var) (ub t.var))
    (hroom : ∀ side ∈ c.sides, Sum.Fits (side.sign * (c.constant - lows terms lb ub)) ∧
      Sum.Fits (side.sign * (c.constant - highs terms lb ub))) : c.HasRoom m := by
  intro side hside w hpicks sum hsum
  have hle := least_le_of_sumFrom? hw hb hpicks hsum
  obtain ⟨hlow, hhigh⟩ := hroom side hside
  rw [hterms, side.least_counted] at hle
  cases side <;> simp only [Side.least, Side.sign, Sum.Fits] at * <;> omega

/-- Where there is no bound to move, the terms that do not count keep to the constant as well. -/
theorem Tight.counted_le {c : Linear} {side : Side} (h : c.Tight side m) (hterms : c.terms = counted terms)
    (hw : m.WellFormed) (hb : ∀ t ∈ c.terms, m.Ranges t.var (lb t.var) (ub t.var))
    (hfit : TermsFit m side.sign c.terms)
    (hrange : ∃ least greatest, c.bounds m side.sign = .ok (some (least, greatest))) {pre post : List Term} {t : Term}
    (heq : terms = pre ++ t :: post) {v : Int} (hv : m.Has t.var v) :
    side.sign * t.coefficient * v + side.least lb ub (pre ++ post) ≤ side.sign * c.constant := by
  obtain ⟨hsum, hterm⟩ := h.le hw hb hfit hrange
  rw [← side.least_counted]
  by_cases ht : t.coefficient = 0
  · have hrest : counted (pre ++ post) = c.terms := by
      simp [hterms, heq, counted, ht]
    rwa [hrest, ht, Int.mul_zero, Int.zero_mul, Int.zero_add]
  · have hsplit : c.terms = counted pre ++ t :: counted post := by
      simp [hterms, heq, counted, ht]
    rw [counted, List.filter_append]
    exact hterm _ t _ hsplit v hv

section Lists

variable {coefficients : List Int} {vars : List VarId} {r : Relation} {k : Int} {c : Linear}

/-- **On fixed variables** a run finds a contradiction just if on some side the sum does not keep to the constant, and
does not leave its range either. In range it decides whether the sum compares with the constant. -/
theorem run_ground (hc : ofLists coefficients vars r k = .ok c) (hw : m.WellFormed)
    (ha : ∀ x ∈ vars, m.value? x = .ok (some (a x)))
    (hroom : ∀ side ∈ c.sides, SumsFit side (termsOf coefficients vars) a →
      side.sign * k - side.sign * total (termsOf coefficients vars) a ≤ Sum.greatest)
    (id : PropId) (before : Array Notice) :
    ∃ result after, c.propagator.run.run { self := id, model := m } before = .ok result after ∧
      (result.1 = .ok () ↔ ∀ side ∈ c.sides, SumsFit side (termsOf coefficients vars) a →
        side.sign * total (termsOf coefficients vars) a ≤ side.sign * k) ∧
      ((∀ side ∈ c.sides, SumsFit side (termsOf coefficients vars) a) →
        (result.1 = .ok () ↔ r.Holds (total (termsOf coefficients vars) a) k)) := by
  obtain ⟨hterms, rfl, rfl⟩ := eq_of_ofLists hc
  have hvalues : ∀ t ∈ c.terms, m.value? t.var = .ok (some (a t.var)) := fun t ht =>
    ha _ (mem_termsOf (List.mem_of_mem_filter (hterms ▸ ht))).2
  simp only [← sumsFit_counted _ (termsOf coefficients vars), ← total_counted (termsOf coefficients vars),
    ← hterms] at hroom ⊢
  obtain ⟨result, after, hrun, hiff⟩ :=
    filter_ground hw (coefficient_ne_zero_of_ofLists hc) hvalues hroom id before
  rw [admits_iff_of_sumsFit] at hiff
  refine ⟨result, after, hrun, hiff, fun hfits => hiff.trans ((forall₂_congr fun side hside => ?_).trans holds_iff.symm)⟩
  exact ⟨fun h => h (hfits side hside), fun h _ => h⟩

/-- Two fixed variables, one at an end of the range of values and both with more than one term, and a sum that is not
the constant. -/
theorem run_ground_of_repeated : ∃ m c, m.WellFormed ∧
    ofLists [2, -3, 0, 1, 1] [⟨0⟩, ⟨1⟩, ⟨1⟩, ⟨0⟩, ⟨1⟩] .eq 5 = .ok c ∧
    ∃ result after, c.propagator.run.run { self := ⟨0⟩, model := m } #[] = .ok result after ∧ result.1 ≠ .ok () := by
  obtain ⟨m, m', c, hm, hm', hc, hx, hy⟩ : ∃ m m' c, (Model.mk "fixed" {} #[] #[] 0).newBounded "x" Value.greatest
      Value.greatest = .ok (⟨0⟩, m) ∧ m.newEnumerated "y" (-2) (-2) = .ok (⟨1⟩, m') ∧
      ofLists [2, -3, 0, 1, 1] [⟨0⟩, ⟨1⟩, ⟨1⟩, ⟨0⟩, ⟨1⟩] .eq 5 = .ok c ∧
      m'.value? ⟨0⟩ = .ok (some Value.greatest) ∧ m'.value? ⟨1⟩ = .ok (some (-2)) :=
    ⟨_, _, _, rfl, rfl, rfl, toOption_eq_some.mp (by decide +kernel), toOption_eq_some.mp (by decide +kernel)⟩
  have hw : m'.WellFormed := by
    refine Model.History.wellFormed (.create (.create (.start "fixed") (.newBounded ?_ ?_ hm))
      (.newEnumerated ?_ ?_ ?_ hm')) ?_
    all_goals simp [Value.Fits, Value.least, Value.greatest]
  have hvalues : ∀ x ∈ [(⟨0⟩ : VarId), ⟨1⟩, ⟨1⟩, ⟨0⟩, ⟨1⟩],
      m'.value? x = .ok (some (if x.index = 0 then Value.greatest else -2)) := by simp [hx, hy]
  have hfits : ∀ side ∈ c.sides, SumsFit side (termsOf [2, -3, 0, 1, 1] [⟨0⟩, ⟨1⟩, ⟨1⟩, ⟨0⟩, ⟨1⟩])
      fun x => if x.index = 0 then Value.greatest else -2 := by
    intro side _
    simp only [SumsFit, termsOf, List.zipWith_cons_cons, List.zipWith_nil_left, forall_prefix_cons, List.prefix_nil,
      forall_eq]
    cases side <;> decide
  obtain ⟨result, after, hrun, -, hiff⟩ := run_ground hc hw hvalues (fun side _ _ => by cases side <;> decide) ⟨0⟩ #[]
  refine ⟨m', c, hw, hc, result, after, hrun, fun hok => ?_⟩
  exact absurd ((hiff hfits).mp hok) (by decide)

/-- A sum beyond its range is let stand, though it does not compare with the constant. -/
theorem run_blind_of_greatest : ∃ m c, m.WellFormed ∧ m.value? ⟨0⟩ = .ok (some Value.greatest) ∧
    ofLists [Value.greatest, Value.greatest, Value.greatest] [⟨0⟩, ⟨0⟩, ⟨0⟩] .le 0 = .ok c ∧
    ¬Relation.le.Holds (total (termsOf [Value.greatest, Value.greatest, Value.greatest] [⟨0⟩, ⟨0⟩, ⟨0⟩])
      fun _ => Value.greatest) 0 ∧
    ∃ s after, c.propagator.run.run { self := ⟨0⟩, model := m } #[] = .ok (.ok (), s) after := by
  refine ⟨((Model.mk "constant" {} #[] #[] 0).newConstant Value.greatest).2, _, ?_, rfl, rfl, by decide, _, _, rfl⟩
  refine Model.History.wellFormed (.create (.start "constant") (.newConstant (by decide))) ?_
  simp

/-- **After a run every bound is one of a sum that keeps to the constant**: with the least values of all other terms
if the sum is to be at most the constant, with their greatest values if it is to be at least the constant. -/
theorem run_tight (hc : ofLists coefficients vars r k = .ok c) (hfit : ∀ n ∈ coefficients, Value.Fits n)
    (hw : m.WellFormed) (hb : ∀ x ∈ vars, m.Ranges x (lb x) (ub x))
    (hsums : ∀ side ∈ c.sides, ∀ pre, pre <+: termsOf coefficients vars →
      Sum.Fits (side.sign * lows pre lb ub) ∧ Sum.Fits (side.sign * highs pre lb ub))
    (hroom : ∀ side ∈ c.sides, Sum.Fits (side.sign * (k - lows (termsOf coefficients vars) lb ub)) ∧
      Sum.Fits (side.sign * (k - highs (termsOf coefficients vars) lb ub)))
    (id : PropId) (before : Array Notice) :
    ∃ result after, c.propagator.run.run { self := id, model := m } before = .ok result after ∧
      (result.1 ≠ .ok () → ∀ a, m.Allows a → ¬r.Holds (total (termsOf coefficients vars) a) k) ∧
      (result.1 = .ok () → ∃ lb ub, (∀ x ∈ vars, result.2.model.Ranges x (lb x) (ub x)) ∧
        ∀ pre t post, termsOf coefficients vars = pre ++ t :: post → ∀ v, v = lb t.var ∨ v = ub t.var →
          (.upper ∈ c.sides → t.coefficient * v + lows (pre ++ post) lb ub ≤ k) ∧
          (.lower ∈ c.sides → k ≤ t.coefficient * v + highs (pre ++ post) lb ub)) := by
  obtain ⟨hterms, rfl, rfl⟩ := eq_of_ofLists hc
  have hlists : ∀ t ∈ c.terms, t.coefficient ∈ coefficients ∧ t.var ∈ vars := fun t ht =>
    mem_termsOf (List.mem_of_mem_filter (hterms ▸ ht))
  have hb' : ∀ t ∈ c.terms, m.Ranges t.var (lb t.var) (ub t.var) := fun t ht => hb _ (hlists t ht).2
  have howns : ∀ t ∈ c.terms, m.owns t.var = true := fun t ht => (hw.ranges_spec (hb' t ht)).1
  have hrange : c.InRange m := fun side hside => exists_bounds_of_fits hterms hw hb' (hsums side hside)
  have hroom' : c.HasRoom m := hasRoom_of_fits hterms hw hb' hroom
  obtain ⟨⟨result, s⟩, after, hrun, hends⟩ := Quiet.returns
    (@filter_tight .strict c { self := id, model := m } hw (coefficient_ne_zero_of_ofLists hc) howns (.inr hroom')) before
  refine ⟨(result, s), after, hrun, ?_⟩
  cases result with
  | error e =>
    refine ⟨fun _ a ha hholds => hends.2 a (Holds.admits ?_) ha, fun h => by cases h⟩
    rwa [Holds, hterms, total_counted]
  | ok u =>
    refine ⟨fun h => absurd rfl h, fun _ => ?_⟩
    obtain ⟨hin, htight⟩ := hends
    obtain ⟨lb', ub', hranges⟩ := hin.wellFormed.exists_ranges fun x hx => hin.owns (hw.ranges_spec (hb x hx)).1
    have hranges' : ∀ t ∈ c.terms, s.model.Ranges t.var (lb' t.var) (ub' t.var) := fun t ht => hranges _ (hlists t ht).2
    have hrange' : c.InRange s.model :=
      hrange.of_narrower hw hin.wellFormed hin.narrows.has howns fun t ht => hin.owns (howns t ht)
    have hfits := termsFit hin.wellFormed fun t ht => hfit _ (hlists t ht).1
    refine ⟨lb', ub', hranges, fun pre t post heq v hv => ?_⟩
    have hmem : t ∈ termsOf coefficients vars := heq ▸ List.mem_append_right pre List.mem_cons_self
    obtain ⟨-, hlow, hhigh, -⟩ := hin.wellFormed.ranges_spec (hranges _ (mem_termsOf hmem).2)
    have hkeeps : ∀ side ∈ c.sides,
        side.sign * t.coefficient * v + side.least lb' ub' (pre ++ post) ≤ side.sign * c.constant := fun side hside =>
      (htight side hside).counted_le hterms hin.wellFormed hranges' (hfits side) (hrange' side hside) heq
        (by rcases hv with rfl | rfl <;> assumption)
    refine ⟨fun hup => ?_, fun hdown => ?_⟩
    · have := hkeeps .upper hup
      simpa only [Side.sign, Side.least, Int.one_mul] using this
    · have := hkeeps .lower hdown
      simp only [Side.sign, Side.least, Int.neg_mul, Int.one_mul] at this
      omega

/-- Two variables, one of them with a hole and both with more than one term. -/
theorem run_tight_of_repeated : ∃ m c, m.WellFormed ∧ m.contains ⟨1⟩ 0 = .ok false ∧
    ofLists [2, -3, 0, 1, 1] [⟨0⟩, ⟨1⟩, ⟨1⟩, ⟨0⟩, ⟨1⟩] .eq 36 = .ok c ∧
    ∃ result after, c.propagator.run.run { self := ⟨0⟩, model := m } #[] = .ok result after ∧
      ∃ lb ub, (∀ x ∈ [(⟨0⟩ : VarId), ⟨1⟩, ⟨1⟩, ⟨0⟩, ⟨1⟩], result.2.model.Ranges x (lb x) (ub x)) ∧
        ∀ pre t post, termsOf [2, -3, 0, 1, 1] [⟨0⟩, ⟨1⟩, ⟨1⟩, ⟨0⟩, ⟨1⟩] = pre ++ t :: post →
          ∀ v, v = lb t.var ∨ v = ub t.var →
            t.coefficient * v + lows (pre ++ post) lb ub ≤ 36 ∧ 36 ≤ t.coefficient * v + highs (pre ++ post) lb ub := by
  obtain ⟨c, hc, hsides⟩ : ∃ c, ofLists [2, -3, 0, 1, 1] [⟨0⟩, ⟨1⟩, ⟨1⟩, ⟨0⟩, ⟨1⟩] .eq 36 = .ok c ∧
      c.sides = [.upper, .lower] := ⟨_, rfl, rfl⟩
  have heval : ((Model.mk "holed" {} #[] #[] 0).newBounded "x" 0 10).toOption.bind (fun r =>
      (r.2.newEnumerated "y" (-3) 4).toOption.bind fun r => (r.2.apply ⟨1⟩ (.remove 0) .decision).toOption.bind fun r =>
      (ofLists [2, -3, 0, 1, 1] [⟨0⟩, ⟨1⟩, ⟨1⟩, ⟨0⟩, ⟨1⟩] .eq 36).toOption.map fun c =>
        ((r.2.contains ⟨1⟩ 0).toOption, [r.2.lb ⟨0⟩, r.2.ub ⟨0⟩, r.2.lb ⟨1⟩, r.2.ub ⟨1⟩].map Except.toOption,
          match c.propagator.run.run { self := ⟨0⟩, model := r.2 } #[] with
            | .ok (outcome, _) _ => outcome.toOption
            | .error _ _ => none)) =
        some (some false, [some 0, some 10, some (-3), some 4], some ()) := by
    decide +kernel
  obtain ⟨⟨x, m₁⟩, h₁, heval⟩ := Option.bind_eq_some_iff.mp heval
  obtain ⟨⟨y, m₂⟩, h₂, heval⟩ := Option.bind_eq_some_iff.mp heval
  obtain ⟨⟨changed, m⟩, h₃, heval⟩ := Option.bind_eq_some_iff.mp heval
  rw [hc] at heval
  simp only [show (Except.ok c : Except ModelError Linear).toOption = some c from rfl, Option.map_some,
    Option.some.injEq, Prod.mk.injEq, List.map_cons, List.map_nil, List.cons.injEq, and_true, toOption_eq_some]
    at h₁ h₂ h₃ heval
  obtain ⟨hhole, ⟨hlx, hux, hly, huy⟩, hok⟩ := heval
  have hw : m.WellFormed := by
    refine Model.History.wellFormed (.apply (.create (.create (.start "holed") (.newBounded ?_ ?_ h₁))
      (.newEnumerated ?_ ?_ ?_ h₂)) h₃) ?_
    all_goals simp [Value.Fits, Value.least, Value.greatest]
  have hb : ∀ x ∈ [(⟨0⟩ : VarId), ⟨1⟩, ⟨1⟩, ⟨0⟩, ⟨1⟩],
      m.Ranges x (if x.index = 0 then 0 else -3) (if x.index = 0 then 10 else 4) := by
    simp [Model.Ranges, hlx, hux, hly, huy]
  obtain ⟨result, after, hrun, -, htight⟩ := run_tight hc (by decide) hw hb (fun side _ => by
      simp only [termsOf, List.zipWith_cons_cons, List.zipWith_nil_left, forall_prefix_cons, List.prefix_nil, forall_eq]
      cases side <;> decide) (fun side _ => by cases side <;> decide) ⟨0⟩ #[]
  rw [hrun] at hok
  obtain ⟨lb, ub, hranges, hkeeps⟩ := htight (toOption_eq_some.mp hok)
  refine ⟨m, c, hw, hhole, hc, result, after, hrun, lb, ub, hranges, fun pre t post heq v hv => ?_⟩
  obtain ⟨hup, hdown⟩ := hkeeps pre t post heq v hv
  exact ⟨hup (by simp [hsides]), hdown (by simp [hsides])⟩

/-- The least of all sums is in range and its negation is not, so that nothing is concluded from it. -/
theorem run_slack_of_least : ∃ m c, m.WellFormed ∧ m.Ranges ⟨0⟩ Value.least Value.least ∧
    ofLists [2 ^ 62, 2 ^ 62, 2 ^ 62, 2 ^ 62] [⟨0⟩, ⟨0⟩, ⟨0⟩, ⟨0⟩] .ge (-1) = .ok c ∧
    (∀ pre, pre <+: termsOf [2 ^ 62, 2 ^ 62, 2 ^ 62, 2 ^ 62] [⟨0⟩, ⟨0⟩, ⟨0⟩, ⟨0⟩] →
      Sum.Fits (lows pre (fun _ => Value.least) fun _ => Value.least) ∧
      Sum.Fits (highs pre (fun _ => Value.least) fun _ => Value.least) ∧
      Sum.Fits (-1 - lows pre (fun _ => Value.least) fun _ => Value.least) ∧
      Sum.Fits (-1 - highs pre (fun _ => Value.least) fun _ => Value.least)) ∧
    ∃ s after, c.propagator.run.run { self := ⟨0⟩, model := m } #[] = .ok (.ok (), s) after ∧
      s.model.Ranges ⟨0⟩ Value.least Value.least ∧
      ∃ t post, termsOf [2 ^ 62, 2 ^ 62, 2 ^ 62, 2 ^ 62] [⟨0⟩, ⟨0⟩, ⟨0⟩, ⟨0⟩] = t :: post ∧
        t.coefficient * Value.least + highs post (fun _ => Value.least) (fun _ => Value.least) < -1 := by
  refine ⟨((Model.mk "constant" {} #[] #[] 0).newConstant Value.least).2, _, ?_, ⟨rfl, rfl⟩, rfl, ?_, _, _, rfl,
    ⟨rfl, rfl⟩, _, _, rfl, by decide⟩
  · refine Model.History.wellFormed (.create (.start "constant") (.newConstant (by decide))) ?_
    simp
  · simp only [termsOf, List.zipWith_cons_cons, List.zipWith_nil_left, forall_prefix_cons, List.prefix_nil, forall_eq]
    decide

end Lists

end Linear

end FiniteDomain
