import FiniteDomain.Proofs.Domain.Mutation

/-!
# Removals and assignments are exact

* `Pierced`: values between the bounds were taken out. `Pierced.outcome` is what this comes to;
* `remove_inside`, `removeUpTo_spec`: a removal, and a run of removals, inside a domain with holes;
* `remove_spec`, `removeRange_spec`, `assign_spec`: these mutations;
* `apply_spec`: all mutations. None of them faults on a well-formed domain.
-/

namespace FiniteDomain

namespace Domain

/-- The values with the property, none of them a bound, were taken out. -/
structure Pierced (d : Domain) (s t : Store Datum) (p : Int → Prop) : Prop where
  writes : Store.Writes d.Owns s t
  wellFormed : d.WellFormed t
  lb_eq : d.lb t = d.lb s
  ub_eq : d.ub t = d.ub s
  has_iff : ∀ v, d.Has t v ↔ d.Has s v ∧ ¬p v

namespace Pierced

variable {d : Domain} {s t t' : Store Datum} {p q : Int → Prop}

theorem refl (h : d.WellFormed s) (hp : ∀ v, d.Has s v → ¬p v) : d.Pierced s s p :=
  ⟨.refl, h, rfl, rfl, fun v => ⟨fun hv => ⟨hv, hp v hv⟩, And.left⟩⟩

theorem trans (h1 : d.Pierced s t p) (h2 : d.Pierced t t' q) : d.Pierced s t' fun v => p v ∨ q v where
  writes := h1.writes.trans h2.writes
  wellFormed := h2.wellFormed
  lb_eq := h2.lb_eq.trans h1.lb_eq
  ub_eq := h2.ub_eq.trans h1.ub_eq
  has_iff v := by rw [h2.has_iff, h1.has_iff, and_assoc, not_or]

theorem congr (h : d.Pierced s t p) (hpq : ∀ v, d.Has s v → (p v ↔ q v)) : d.Pierced s t q :=
  { h with has_iff := fun v => (h.has_iff v).trans (and_congr_right fun hv => not_congr (hpq v hv)) }

/-- What comes of a mutation that keeps the values that were left. -/
theorem outcome (h : d.Pierced s t p) (hfree : d.lb s ≠ d.ub s) {μ : Mutation}
    (hμ : ∀ v, d.Target s μ v ↔ d.Has s v ∧ ¬p v) (hlost : ∃ v, d.Has s v ∧ p v) :
    d.Outcome s μ (.changed .remove, t) := by
  obtain ⟨v, hv, hpv⟩ := hlost
  have hchanged := Outcome.changed h.writes h.wellFormed (fun v => (h.has_iff v).trans (hμ v).symm)
    ⟨v, hv, fun hc => ((hμ v).mp hc).2 hpv⟩
  rw [h.lb_eq, h.ub_eq, EventKind.ofBounds_self hfree] at hchanged
  exact hchanged

end Pierced

namespace WellFormed

variable {d : Domain} {s t : Store Datum}

/-! ### Clearing a place -/

/-- The row of words after a place was cleared. -/
theorem has_erased (h : d.WellFormed s) {m : Members} (hm : d.members = some m) {k : Nat}
    {t : Store Datum} (hw : ∀ j, j < m.words.length → m.row t j =
      if j = k / Word.width then Word.erase (m.row s j) (k % Word.width) else m.row s j) {i : Nat}
    (hi : i < m.places.length) :
    Words.has (m.row t) i = (decide (k ≠ i) && Words.has (m.row s) i) := by
  have hms := h.shaped.members m hm
  have hmod : ∀ n, n % Word.width < Word.width := fun n => Nat.mod_lt n (by decide)
  rw [Words.has, Words.has, hw _ (hms.covered i hi)]
  by_cases hq : i / Word.width = k / Word.width
  · rw [if_pos hq, Word.bit_erase (hmod k) (hmod i)]
    congr 1
    rw [decide_eq_decide]
    simp only [Word.width] at hq ⊢
    omega
  · rw [if_neg hq]
    have : k ≠ i := fun heq => hq (heq ▸ rfl)
    simp [this]

/-- Of the members only the one of the place is gone. -/
theorem members_has_erased (h : d.WellFormed s) {m : Members} (hm : d.members = some m) {k : Nat} {v : Int}
    (hk : m.places.valueAt? k = some v)
    (hplace : ∀ i < m.places.length, Words.has (m.row t) i = (decide (k ≠ i) && Words.has (m.row s) i)) {w : Int} :
    m.Has t w ↔ m.Has s w ∧ w ≠ v := by
  constructor
  · rintro ⟨i, hi, hb⟩
    rw [hplace i (Universe.lt_length hi), Bool.and_eq_true, decide_eq_true_eq] at hb
    refine ⟨⟨i, hi, hb.2⟩, ?_⟩
    rintro rfl
    exact hb.1 ((h.shaped.members m hm).ordered.place_unique hk hi)
  · rintro ⟨⟨i, hi, hb⟩, hne⟩
    refine ⟨i, hi, ?_⟩
    rw [hplace i (Universe.lt_length hi), hb, Bool.and_true, decide_eq_true_eq]
    rintro rfl
    cases hk.symm.trans hi
    exact hne rfl

/-- One less is counted between the bounds. -/
theorem count_erased (h : d.WellFormed s) {m : Members} (hm : d.members = some m) {k : Nat} {v : Int}
    (hk : m.places.valueAt? k = some v) (hv : d.Has s v)
    (hplace : ∀ i < m.places.length, Words.has (m.row t) i = (decide (k ≠ i) && Words.has (m.row s) i)) {i j : Nat}
    (hi : m.places.valueAt? i = some (d.lb s)) (hj : m.places.valueAt? j = some (d.ub s)) :
    Words.count (m.row t) i j = s.int m.size - 1 := by
  obtain ⟨hik, hkj, hb⟩ := (h.has_iff_of_members hm hi hj hk).mp hv
  have hone := Words.count_of_cleared hik hkj hb (b := m.row t)
    (fun n _ hn => hplace n (Nat.lt_of_le_of_lt hn (Universe.lt_length hj)))
  rw [h.size_eq m i j hm hi hj, ← hone]
  omega

/-- A place strictly between those of the bounds is cleared. -/
theorem erase (h : d.WellFormed s) {m : Members} (hm : d.members = some m) {k : Nat} {v : Int}
    (hk : m.places.valueAt? k = some v) (hv : d.Has s v) (hl : v ≠ d.lb s) (hu : v ≠ d.ub s)
    (hw : Store.Writes d.Owns s t) (hlt : d.lb t = d.lb s) (hut : d.ub t = d.ub s)
    (hrow : ∀ j, j < m.words.length → m.row t j =
      if j = k / Word.width then Word.erase (m.row s j) (k % Word.width) else m.row s j)
    (hsize : t.int m.size = s.int m.size - 1) :
    d.Pierced s t (· = v) := by
  have hplace : ∀ i < m.places.length, Words.has (m.row t) i = (decide (k ≠ i) && Words.has (m.row s) i) :=
    fun i hi => h.has_erased hm hrow hi
  have hhas : ∀ w, d.Has t w ↔ d.Has s w ∧ w ≠ v := by
    intro w
    simp only [has_iff h.shaped, hlt, hut, hm, Option.some.injEq, forall_eq', h.members_has_erased hm hk hplace,
      and_assoc]
  have hcount : ∀ {i j}, m.places.valueAt? i = some (d.lb t) → m.places.valueAt? j = some (d.ub t) →
      t.int m.size = Words.count (m.row t) i j := by
    intro i j hi hj
    rw [hsize, h.count_erased hm hk hv hplace (hlt ▸ hi) (hut ▸ hj)]
  refine ⟨hw, ⟨h.shaped, ?_, hlt ▸ h.fits_lb, hut ▸ h.fits_ub, ?_, ?_, ?_, ?_⟩, hlt, hut, hhas⟩
  · intro c hc
    rw [hw.size_eq]
    exact h.housed c hc
  · rw [hlt]
    exact (hhas _).mpr ⟨h.has_lb, hl.symm⟩
  · rw [hut]
    exact (hhas _).mpr ⟨h.has_ub, hu.symm⟩
  · intro m' i j hm' hi hj
    cases hm.symm.trans hm'
    exact hcount hi hj
  · intro m' hm'
    cases hm.symm.trans hm'
    obtain ⟨i, j, hi, hj, -⟩ := h.exists_places hm
    have hold := h.size_fits m hm
    have hnew := hcount (hlt ▸ hi) (hut ▸ hj)
    simp only [Value.Fits, Value.least, Value.greatest] at *
    omega

/-! ### One value -/

/-- A value that is not a bound is taken out where holes are kept. -/
theorem remove_inside (h : d.WellFormed s) {m : Members} (hm : d.members = some m) {v : Int} (hv : d.Has s v)
    (hl : v ≠ d.lb s) (hu : v ≠ d.ub s) :
    ∃ t, d.remove s v = .ok (.changed .remove, t) ∧ d.Pierced s t (· = v) := by
  have hfree : d.lb s ≠ d.ub s := by
    have := h.lb_le hv
    have := h.le_ub hv
    omega
  have hms := h.shaped.members m hm
  obtain ⟨k, hk⟩ := h.exists_place hm hv
  have hcov := hms.covered k (Universe.lt_length hk)
  obtain ⟨hn1, hn2, hn3⟩ := hms.word_ne _ hcov
  have howned : d.Owns (m.words.cell (k / Word.width)) := .inr (.inr ⟨m, hm, .inr ⟨_, hcov, rfl⟩⟩)
  generalize hx : Word.erase (m.row s (k / Word.width)) (k % Word.width) = x
  have hsize1 : (s.set (m.words.cell (k / Word.width)) (.word x)).int m.size = s.int m.size :=
    Store.int_set_of_ne _ hn3 _
  have hadd := Store.add_of_fits (s.set (m.words.cell (k / Word.width)) (.word x)) m.size (d := -1) (by
    obtain ⟨i, j, hi, hj, -⟩ := h.exists_places hm
    have hold := h.size_fits m hm
    rw [hsize1]
    rw [h.size_eq m i j hm hi hj] at hold ⊢
    simp only [Value.Fits, Value.least, Value.greatest] at *
    omega)
  rw [hsize1] at hadd
  refine ⟨(s.set (m.words.cell (k / Word.width)) (.word x)).set m.size (.int (s.int m.size + -1)), ?_,
    h.erase hm hk hv hl hu (.set _ _ (.one howned _) (.inr (.inr ⟨m, hm, .inl rfl⟩))) ?_ ?_ ?_ ?_⟩
  · simp only [remove, contains_eq_true hv, ok_bind, if_true, if_neg hfree, if_neg hl, if_neg hu, hm,
      hms.ordered.place_eq_ok hk, Members.check, if_pos hcov, hx, hadd, pure_eq_ok]
  · rw [lb, Store.int_set_of_ne _ hms.size_ne.1, Store.int_set_of_ne _ hn1]
    rfl
  · rw [ub, Store.int_set_of_ne _ hms.size_ne.2, Store.int_set_of_ne _ hn2]
    rfl
  · intro j hj
    rw [Members.row, Store.word_set_of_ne _ (hms.word_ne j hj).2.2.symm]
    by_cases hq : j = k / Word.width
    · subst hq
      rw [if_pos rfl, hx, Store.word_set_self _ (h.housed _ howned)]
    · rw [if_neg hq, Store.word_set_of_ne _ (by simp only [Block.cell]; omega)]
      rfl
  · rw [Store.int_set_self _ (by rw [Store.size_slots_set]; exact h.size_lt hm)]
    omega

theorem remove_spec (h : d.WellFormed s) (v : Int) :
    ∃ r, d.remove s v = .ok r ∧ d.Outcome s (.remove v) r := by
  by_cases hv : ¬d.Has s v
  · refine ⟨(.unchanged, s), by simp [remove, contains_eq_false h.shaped hv], .unchanged fun w hw => ⟨hw, .inl ?_⟩⟩
    rintro rfl
    exact hv hw
  have hv := Classical.not_not.mp hv
  have hl := h.lb_le hv
  have hu := h.le_ub hv
  by_cases hfix : d.lb s = d.ub s
  · have hvl : v = d.lb s := (h.has_iff_of_fixed hfix).mp hv
    have hspares : ¬d.Spares s (.remove v) := fun hs => hs.2.2.1 hvl.symm
    refine ⟨(.emptied, s), by simp [remove, contains_eq_true hv, hfix], .emptied fun w hw => ?_⟩
    rw [target_iff_of_not_spares hspares] at hw
    exact hw.2 (((h.has_iff_of_fixed hfix).mp hw.1).trans hvl.symm)
  by_cases hvl : v = d.lb s
  · have hsucc := successor_eq_ok (h.fits_lb.of_between h.fits_ub (v := v + 1) (by omega) (by omega))
    obtain ⟨r, hr, ho⟩ := h.atLeast_spec (v + 1)
    refine ⟨r, ?_, ho.congr (fun hs => hs.2.1) (fun hs => hs.2.2.1 hvl.symm) fun w hw => ?_⟩
    · simp only [remove, contains_eq_true hv, ok_bind, if_true, if_neg hfix, if_pos hvl, hsucc, hr]
    · have := h.lb_le hw
      simp only [Mutation.Keeps]
      omega
  by_cases hvu : v = d.ub s
  · have hpred := predecessor_eq_ok (h.fits_lb.of_between h.fits_ub (v := v - 1) (by omega) (by omega))
    obtain ⟨r, hr, ho⟩ := h.atMost_spec (v - 1)
    refine ⟨r, ?_, ho.congr (fun hs => hs.2.1) (fun hs => hs.2.2.2 hvu.symm) fun w hw => ?_⟩
    · simp only [remove, contains_eq_true hv, ok_bind, if_true, if_neg hfix, if_neg hvl, if_pos hvu, hpred, hr]
    · have := h.le_ub hw
      simp only [Mutation.Keeps]
      omega
  cases hm : d.members with
  | none =>
    refine ⟨(.unchanged, s), ?_, .unchanged fun w hw => ⟨hw, .inr ⟨hm, trivial, Ne.symm hvl, Ne.symm hvu⟩⟩⟩
    simp only [remove, contains_eq_true hv, ok_bind, if_true, if_neg hfix, if_neg hvl, if_neg hvu, hm, pure_eq_ok]
  | some m =>
    obtain ⟨t, hrun, ht⟩ := h.remove_inside hm hv hvl hvu
    exact ⟨_, hrun, ht.outcome hfix (fun w => target_iff_of_members hm) ⟨v, hv, rfl⟩⟩

/-! ### A range of values -/

/-- A run of removals strictly inside a domain with holes takes out all values of the range. -/
theorem removeUpTo_spec (h : d.WellFormed s) {m : Members} (hm : d.members = some m) (v high : Int)
    (sofar : Update) (fuel : Nat) (hl : d.lb s ≤ v) (hu : high < d.ub s) (hf : (high - v).toNat < fuel)
    (hsofar : sofar = .unchanged ∨ sofar = .changed .remove) :
    ∃ u t, d.removeUpTo s v high sofar fuel = .ok (u, t) ∧ d.Pierced s t (fun w => v < w ∧ w ≤ high) ∧
      (u = sofar ∧ t = s ∧ (∀ w, d.Has s w → ¬(v < w ∧ w ≤ high)) ∨
        u = .changed .remove ∧ ∃ w, d.Has s w ∧ v < w ∧ w ≤ high) := by
  induction fuel generalizing s v sofar with
  | zero => omega
  | succ fuel ih =>
    obtain ⟨r, hr, hleast⟩ := h.next?_spec (v := v) (fun hn => by cases hn.symm.trans hm)
    cases r with
    | none =>
      have hnone : ∀ w, d.Has s w → ¬(v < w ∧ w ≤ high) := fun w hw hc => hleast w ⟨hw, hc.1⟩
      exact ⟨sofar, s, by simp only [removeUpTo, hr, ok_bind, pure_eq_ok], .refl h hnone, .inl ⟨rfl, rfl, hnone⟩⟩
    | some w =>
      obtain ⟨⟨hw, hvw⟩, hmin⟩ := hleast
      by_cases hwh : ¬w ≤ high
      · have hnone : ∀ u, d.Has s u → ¬(v < u ∧ u ≤ high) := by
          intro u hu hc
          have := hmin u ⟨hu, hc.1⟩
          omega
        exact ⟨sofar, s, by simp only [removeUpTo, hr, ok_bind, if_neg hwh, pure_eq_ok], .refl h hnone,
          .inl ⟨rfl, rfl, hnone⟩⟩
      have hwh : w ≤ high := Classical.not_not.mp hwh
      obtain ⟨t, ht, hp⟩ := h.remove_inside hm hw (by omega) (by omega)
      have hmerge : sofar.merge (.changed .remove) = .changed .remove := by
        rcases hsofar with rfl | rfl <;> rfl
      have hlt := hp.lb_eq
      have hut := hp.ub_eq
      obtain ⟨u, t', hrun, hp', hu'⟩ := ih hp.wellFormed w (.changed .remove) (by omega) (by omega) (by omega) (.inr rfl)
      have hu' : u = .changed .remove := by
        rcases hu' with ⟨hu', -⟩ | ⟨hu', -⟩ <;> exact hu'
      refine ⟨u, t', ?_, ?_, .inr ⟨hu', w, hw, hvw, hwh⟩⟩
      · simp only [removeUpTo, hr, ok_bind, if_pos hwh, ht, hmerge, hrun]
      -- a value of the range is the first of them, or after it
      refine (hp.trans hp').congr fun u hu => ?_
      constructor
      · rintro (rfl | hc)
        · exact ⟨hvw, hwh⟩
        · omega
      · rintro ⟨hvu, huh⟩
        have := hmin u ⟨hu, hvu⟩
        omega

theorem removeRange_spec (h : d.WellFormed s) (low high : Int) :
    ∃ r, d.removeRange s low high = .ok r ∧ d.Outcome s (.removeRange low high) r := by
  have hlu := h.lb_le_ub
  by_cases hout : high < low ∨ high < d.lb s ∨ d.ub s < low
  · refine ⟨(.unchanged, s), by simp [removeRange, hout], .unchanged fun w hw => ⟨hw, .inl ?_⟩⟩
    have := h.lb_le hw
    have := h.le_ub hw
    simp only [Mutation.Keeps]
    omega
  by_cases h1 : low ≤ d.lb s
  · have hspares : ¬d.Spares s (.removeRange low high) := fun hs => hs.2.2.1 (by omega)
    by_cases h2 : d.ub s ≤ high
    · refine ⟨(.emptied, s), by simp [removeRange, hout, h1, h2], .emptied fun w hw => ?_⟩
      rw [target_iff_of_not_spares hspares] at hw
      have := h.lb_le hw.1
      have := h.le_ub hw.1
      exact hw.2 (by omega)
    · have hsucc := successor_eq_ok (h.fits_lb.of_between h.fits_ub (v := high + 1) (by omega) (by omega))
      obtain ⟨r, hr, ho⟩ := h.atLeast_spec (high + 1)
      refine ⟨r, ?_, ho.congr (fun hs => hs.2.1) hspares fun w hw => ?_⟩
      · simp only [removeRange, if_neg hout, if_pos h1, if_neg h2, hsucc, ok_bind, hr]
      · have := h.lb_le hw
        simp only [Mutation.Keeps]
        omega
  have hpred := predecessor_eq_ok (h.fits_lb.of_between h.fits_ub (v := low - 1) (by omega) (by omega))
  by_cases h2 : d.ub s ≤ high
  · obtain ⟨r, hr, ho⟩ := h.atMost_spec (low - 1)
    refine ⟨r, ?_, ho.congr (fun hs => hs.2.1) (fun hs => hs.2.2.2 (by omega)) fun w hw => ?_⟩
    · simp only [removeRange, if_neg hout, if_neg h1, if_pos h2, hpred, ok_bind, hr]
    · have := h.le_ub hw
      simp only [Mutation.Keeps]
      omega
  cases hm : d.members with
  | none =>
    have hspares : d.Spares s (.removeRange low high) := by
      refine ⟨hm, trivial, ?_, ?_⟩ <;> simp only [Mutation.Keeps] <;> omega
    exact ⟨(.unchanged, s), by simp [removeRange, hout, h1, h2, isEnumerated, hm],
      .unchanged fun w hw => ⟨hw, .inr hspares⟩⟩
  | some m =>
    obtain ⟨u, t, hrun, hp, hu⟩ := h.removeUpTo_spec hm (low - 1) high .unchanged ((high - low).toNat + 2) (by omega)
      (by omega) (by omega) (.inl rfl)
    have htarget : ∀ w, d.Target s (.removeRange low high) w ↔ d.Has s w ∧ ¬(low - 1 < w ∧ w ≤ high) := by
      intro w
      rw [target_iff_of_members hm, Mutation.Keeps, show low - 1 < w ↔ low ≤ w by omega]
    refine ⟨(u, t), ?_, ?_⟩
    · simp only [removeRange, if_neg hout, if_neg h1, if_neg h2, isEnumerated, hm, Option.isSome_some, if_true, hpred,
        ok_bind, hrun]
    rcases hu with ⟨rfl, rfl, hnone⟩ | ⟨rfl, hlost⟩
    · exact .unchanged fun w hw => (htarget w).mpr ⟨hw, hnone w hw⟩
    · exact hp.outcome (by omega) htarget hlost

/-! ### All mutations -/

/-- The store in which both bounds were set to one value, and the size to one. -/
theorem moved_both (h : d.WellFormed s) {v : Int} (hv : d.Has s v) (hfree : d.lb s ≠ d.ub s)
    (hw : Store.Writes d.Owns s t) (hl : d.lb t = v) (hu : d.ub t = v)
    (hm : ∀ m, d.members = some m → t.int m.size = 1 ∧ ∀ j, j < m.words.length → m.row t j = m.row s j) :
    d.Moved s t v v where
  writes := hw
  idle hlb hub := absurd (hlb.symm.trans hub) hfree
  lb_eq := hl
  ub_eq := hu
  row_eq m hmem := (hm m hmem).2
  size_eq m i j hmem hi hj := by
    have ho := (h.shaped.members m hmem).ordered
    obtain ⟨-, -, h3⟩ := (has_iff h.shaped s v).mp hv
    obtain ⟨k, hk, hb⟩ := h3 m hmem
    rw [(hm m hmem).1, ho.place_unique hi hk, ho.place_unique hj hk, Words.count_eq_countP,
      show k + 1 - k = 1 by omega, List.range'_one, List.countP_cons, hb]
    rfl

/-- Both bounds of a free domain are set to one of its values. -/
theorem assign_moved (h : d.WellFormed s) {v : Int} (hv : d.Has s v) (hfree : d.lb s ≠ d.ub s) :
    ∃ t, d.assign s v = .ok (.changed .instantiate, t) ∧ d.Moved s t v v := by
  have hinst : d.isInstantiated s = false := by simpa [isInstantiated] using hfree
  have hw2 : Store.Writes d.Owns s ((s.set d.lower (.int v)).set d.upper (.int v)) :=
    .set _ _ (.one (.inl rfl) _) (.inr (.inl rfl))
  have hl2 : d.lb ((s.set d.lower (.int v)).set d.upper (.int v)) = v := by
    rw [lb, Store.int_set_of_ne _ h.shaped.lower_ne_upper.symm, Store.int_set_self _ h.lower_lt]
  have hu2 : d.ub ((s.set d.lower (.int v)).set d.upper (.int v)) = v := by
    rw [ub, Store.int_set_self _ (by rw [Store.size_slots_set]; exact h.upper_lt)]
  simp only [assign, contains_eq_true hv, ok_bind, if_true, hinst, Bool.false_eq_true, if_false]
  cases hm : d.members with
  | none => exact ⟨_, rfl, h.moved_both hv hfree hw2 hl2 hu2 fun m hm' => by cases hm.symm.trans hm'⟩
  | some m =>
    have hms := h.shaped.members m hm
    refine ⟨_, rfl, h.moved_both hv hfree (.set _ _ hw2 (.inr (.inr ⟨m, hm, .inl rfl⟩))) ?_ ?_ ?_⟩
    · rw [lb, Store.int_set_of_ne _ hms.size_ne.1]
      exact hl2
    · rw [ub, Store.int_set_of_ne _ hms.size_ne.2]
      exact hu2
    · intro m' hm'
      cases hm.symm.trans hm'
      refine ⟨Store.int_set_self _ (by rw [hw2.size_eq]; exact h.size_lt hm) _, fun j hj => ?_⟩
      obtain ⟨hn1, hn2, hn3⟩ := hms.word_ne j hj
      rw [Members.row, Store.word_set_of_ne _ hn3.symm, Store.word_set_of_ne _ hn2.symm,
        Store.word_set_of_ne _ hn1.symm]
      rfl

theorem assign_spec (h : d.WellFormed s) (v : Int) :
    ∃ r, d.assign s v = .ok r ∧ d.Outcome s (.assign v) r := by
  have htarget : ∀ w, d.Target s (.assign v) w ↔ d.Has s w ∧ w = v := fun w => target_iff_of_not_removes id
  by_cases hv : ¬d.Has s v
  · refine ⟨(.emptied, s), by simp [assign, contains_eq_false h.shaped hv], .emptied fun w hw => ?_⟩
    rw [htarget] at hw
    exact hv (hw.2 ▸ hw.1)
  have hv := Classical.not_not.mp hv
  by_cases hfix : d.lb s = d.ub s
  · refine ⟨(.unchanged, s), by simp [assign, contains_eq_true hv, isInstantiated, hfix], .unchanged fun w hw => ?_⟩
    rw [h.has_iff_of_fixed hfix] at hv
    exact (htarget w).mpr ⟨hw, ((h.has_iff_of_fixed hfix).mp hw).trans hv.symm⟩
  obtain ⟨t, hrun, ht⟩ := h.assign_moved hv hfix
  have hkind : Update.changed .instantiate = .ofBounds (d.lb s) (d.ub s) v v := by
    rw [Update.ofBounds_of_ne (by omega), EventKind.ofBounds, if_pos rfl]
  refine ⟨_, hrun, ?_⟩
  rw [hkind]
  refine ht.outcome h hv hv (Int.le_refl v) fun w => ?_
  rw [htarget, and_congr_right_iff]
  omega

/-- **A mutation of a well-formed domain never faults, and does to its values what it says.** -/
theorem apply_spec (h : d.WellFormed s) (μ : Mutation) : ∃ r, d.apply s μ = .ok r ∧ d.Outcome s μ r := by
  cases μ with
  | atLeast v => exact h.atLeast_spec v
  | atMost v => exact h.atMost_spec v
  | within low high => exact h.within_spec low high
  | remove v => exact h.remove_spec v
  | removeRange low high => exact h.removeRange_spec low high
  | assign v => exact h.assign_spec v

end WellFormed

end Domain

end FiniteDomain
