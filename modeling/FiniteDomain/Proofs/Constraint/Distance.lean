import FiniteDomain.Proofs.Constraint.Candidates
import FiniteDomain.Proofs.Propagation.Filter

/-!
# Distances filter soundly

Sums and differences with the constant are cut off at the ends of the range of values. No solution is lost by it, and a
bound that it leaves where it has no support does not survive the pass for the other variable.

* `filterEq_spec`, `removeAround_spec`, `filterLt_spec`, `filterGt_spec`: one pass for each comparison;
* `filter_settles`: a run keeps all solutions and leaves consistent domains;
* `Consistent.ground`: these decide the distance where its variables are fixed;
* `entailed_spec`: what is reported as known is.
-/

namespace FiniteDomain

open FiniteDomain.Filter

/-! ### Values in the middle of intervals -/

namespace Model

variable {m m' : Model} {x : VarId} {v : Int}

/-- The value is one of the variable and not in the middle of an interval. -/
def Removable (m : Model) (x : VarId) (v : Int) : Prop :=
  m.Has x v ∧ (m.isEnumerated x = .ok true ∨ m.lb x = .ok v ∨ m.ub x = .ok v)

/-- The value is in the middle of an interval. -/
def Inside (m : Model) (x : VarId) (v : Int) : Prop :=
  m.isEnumerated x = .ok false ∧ m.Has x (v - 1) ∧ m.Has x (v + 1)

/-- What would be left of a value that can be removed is kept. -/
theorem Target.keeps_of_removable {μ : Mutation} (h : m.Target x μ v) (hv : m.Removable x v) : μ.Keeps v := by
  obtain ⟨y, hy, -, hk | ⟨hnone, -, hlb, hub⟩⟩ := h
  · exact hk
  · rcases hv.2 with henum | hbound | hbound
    · rw [isEnumerated_eq hy, Domain.isEnumerated, hnone] at henum
      cases henum
    · cases (lb_eq hy).symm.trans hbound
      exact hlb
    · cases (ub_eq hy).symm.trans hbound
      exact hub

theorem Inside.not_fixed (h : m.Inside x v) (hw : m.WellFormed) : ¬m.Fixed x := by
  intro hf
  have := hw.eq_of_fixed hf h.2.1 h.2.2
  omega

theorem Inside.between (h : m.Inside x v) (hw : m.WellFormed) :
    ∃ l u, m.lb x = .ok l ∧ m.ub x = .ok u ∧ l < v ∧ v < u := by
  obtain ⟨-, hlow, hhigh⟩ := h
  obtain ⟨l, hl, -, hle⟩ := hw.lb_spec hlow.owns
  obtain ⟨u, hu, -, hue⟩ := hw.ub_spec hlow.owns
  have h1 := hle _ hlow
  have h2 := hue _ hhigh
  exact ⟨l, u, hl, hu, by omega, by omega⟩

/-- A value that was to be removed is gone, or in the middle of an interval. -/
theorem Narrowed.inside {cause : Cause} {changed : Bool} (hn : Narrowed x (.remove v) cause m changed m')
    (hw : m.WellFormed) (hv : m'.Has x v) : m'.Inside x v := by
  obtain ⟨y, hy, hhas, hk | ⟨hnone, -, hlb, hub⟩⟩ := (hn.has_iff v).mp hv
  · exact absurd rfl hk
  · have hd := hw.domains _ y hy
    have hle := hd.lb_le hhas
    have hle' := hd.le_ub hhas
    simp only [Mutation.Keeps] at hlb hub
    have hkept : ∀ u, y.domain.lb m.store ≤ u → u ≤ y.domain.ub m.store → u ≠ v → m'.Has x u := fun u h1 h2 hne =>
      (hn.has_iff u).mpr ⟨y, hy, hd.has_of_bounded hnone h1 h2, .inl hne⟩
    refine ⟨?_, hkept _ (by omega) (by omega) (by omega), hkept _ (by omega) (by omega) (by omega)⟩
    rw [isEnumerated_eq (hn.narrows.vars_eq ▸ hy), Domain.isEnumerated, hnone]
    rfl

end Model

namespace Distance

/-! ### Passes -/

section Passes

variable [Tolerance] {H : Assignment → Prop} {start s₀ s : Scene} {l : List VarId}

/-- Where nothing was removed from a variable that admits holes, none of the values was there. -/
theorem removeAll_spec (hin : Within H start s) {x : VarId} (hx : start.model.owns x = true) (hl : x ∈ l)
    {vs : List Int} (hH : ∀ v ∈ vs, ∀ a, H a → start.model.Allows a → a x ≠ v) {changed : Bool}
    (ht : Tallies l s₀ changed s) :
    Leads H start (removeAll x changed vs) s fun any s' => Tallies l s₀ any s' ∧ (any = false → changed = false ∧
      (s.model.isEnumerated x = .ok true → ∀ v ∈ vs, ¬s.model.Has x v)) := by
  induction vs generalizing s changed with
  | nil => exact Leads.pure hin ⟨ht, fun hc => ⟨hc, by simp⟩⟩
  | cons v rest ih =>
    refine Leads.narrow_bind hin hx (hH v List.mem_cons_self) ?_
    intro removed m' hn hin'
    refine Leads.mono (ih hin' (fun w hw => hH w (List.mem_cons_of_mem v hw)) (ht.trans (.narrowed hl hn))) ?_
    rintro any s' - ⟨ht', hany⟩
    refine ⟨ht', fun hc => ?_⟩
    obtain ⟨hnone, hrest⟩ := hany hc
    rw [Bool.or_eq_false_iff] at hnone
    obtain rfl := hn.unchanged hnone.2
    refine ⟨hnone.1, fun henum => List.forall_mem_cons.mpr ⟨fun hhas => ?_, hrest henum⟩⟩
    exact Model.not_target_remove henum ((hn.has_iff v).mp hhas)

/-- Of values that are not next to each other each is gone after its removal, or in the middle of an interval. The
others stay. -/
theorem removeAll_leaves (hin : Within H start s) {x : VarId} (hx : start.model.owns x = true) {vs : List Int}
    (hapart : vs.Pairwise fun v w => (v - w).natAbs ≠ 1) (hH : ∀ v ∈ vs, ∀ a, H a → start.model.Allows a → a x ≠ v)
    {changed : Bool} :
    Leads H start (removeAll x changed vs) s fun _ s' => s'.passive = s.passive ∧
      (∀ u, s'.model.Has x u → s.model.Has x u) ∧ (∀ u, u ∉ vs → s.model.Has x u → s'.model.Has x u) ∧
      ∀ v ∈ vs, s'.model.Has x v → s'.model.Inside x v := by
  induction vs generalizing s changed with
  | nil => exact Leads.pure hin ⟨rfl, fun _ hu => hu, fun _ _ hu => hu, by simp⟩
  | cons v rest ih =>
    obtain ⟨hfirst, hrest⟩ := List.pairwise_cons.mp hapart
    refine Leads.narrow_bind hin hx (hH v List.mem_cons_self) ?_
    intro removed m' hn hin'
    refine Leads.mono (ih hin' hrest fun w hw => hH w (List.mem_cons_of_mem v hw)) ?_
    rintro any s' hin'' ⟨hp, hsub, hkept, hinside⟩
    refine ⟨hp, fun u hu => hn.narrows.has x u (hsub u hu), fun u hu hhas => ?_,
      List.forall_mem_cons.mpr ⟨fun hhas => ?_, hinside⟩⟩
    · rw [List.mem_cons, not_or] at hu
      exact hkept u hu.2 ((hn.has_iff u).mpr (Model.target_of_keeps hhas hu.1))
    · -- its neighbours are not among those removed after it
      obtain ⟨henum, hlow, hhigh⟩ := hn.inside hin.wellFormed (hsub v hhas)
      have hnext : ∀ u, (v - u).natAbs = 1 → m'.Has x u → s'.model.Has x u :=
        fun u hu hhas => hkept u (fun hmem => hfirst u hmem hu) hhas
      refine ⟨?_, hnext _ (by omega) hlow, hnext _ (by omega) hhigh⟩
      rw [Model.isEnumerated_congr (hin''.narrows.vars_eq.trans hin'.narrows.vars_eq.symm)]
      exact henum

/-- A pass is repeated until it changes nothing, which cannot be oftener than there are values to lose. -/
theorem repeatPass_spec {pass : Filter Bool} {P : Model → Prop} (hin : Within H start s)
    (h : ∀ s, Within H start s → Leads H start pass s (Passes l P s)) {fuel : Nat} (hfuel : s.model.spare l < fuel) :
    Leads H start (repeatPass pass fuel) s fun _ s' => s'.passive = s.passive ∧ P s'.model := by
  induction fuel generalizing s with
  | zero => exact absurd hfuel (Nat.not_lt_zero _)
  | succ fuel ih =>
    refine Leads.bind (h s hin) ?_
    rintro changed s1 hin1 ⟨ht, hP⟩
    cases changed with
    | true =>
      have hlt := ht.fewer rfl
      exact Leads.mono (ih hin1 (by omega)) fun _ s2 _ h2 => ⟨h2.1.trans ht.passive, h2.2⟩
    | false => exact Leads.pure hin1 ⟨ht.passive, ht.same rfl ▸ hP rfl⟩

end Passes

/-! ### Equality -/

variable {c : Distance} {H : Assignment → Prop} {start s : Scene} {l : List VarId}

theorem holdsAt_spec {m : Model} (hw : m.WellFormed) {x : VarId} (hx : m.owns x = true) (v : Int) :
    ∃ b, holdsAt m x (Value.ofInt? v) = .ok b ∧ (b = true ↔ m.Has x v) := by
  by_cases hv : Value.Fits v
  · simpa only [Value.ofInt?, if_pos hv, holdsAt] using hw.contains_spec hx v
  · refine ⟨false, by simp [Value.ofInt?, hv, holdsAt], ?_⟩
    exact ⟨(fun hc => by cases hc), fun hc => absurd (hw.fits hc) hv⟩

/-- One of two values is there. -/
theorem holdsAt_or {m : Model} {x : VarId} {v w : Option Int} {r₁ r₂ : Bool} (h₁ : holdsAt m x v = .ok r₁)
    (h₂ : holdsAt m x w = .ok r₂) :
    (do if ← holdsAt m x v then return true
        holdsAt m x w) = Except.ok (r₁ || r₂) := by
  rw [h₁, ok_bind]
  cases r₁ with
  | true => rfl
  | false => exact h₂

theorem supported_spec {m : Model} (hw : m.WellFormed) {b : VarId} (hb : m.owns b = true) (hk : 0 ≤ c.constant)
    (v : Int) : ∃ r, c.supported m b v = .ok r ∧ (r = true ↔ ∃ w, m.Has b w ∧ ((v - w).natAbs : Int) = c.constant) := by
  obtain ⟨r1, hr1, h1⟩ := holdsAt_spec hw hb (v - c.constant)
  obtain ⟨r2, hr2, h2⟩ := holdsAt_spec hw hb (v + c.constant)
  refine ⟨r1 || r2, holdsAt_or hr1 hr2, ?_⟩
  rw [Bool.or_eq_true, h1, h2]
  constructor
  · rintro (h | h)
    · exact ⟨_, h, by omega⟩
    · exact ⟨_, h, by omega⟩
  · rintro ⟨w, hw', heq⟩
    rcases (by omega : w = v - c.constant ∨ w = v + c.constant) with rfl | rfl
    · exact .inl hw'
    · exact .inr hw'

theorem unsupported_spec {m : Model} (hw : m.WellFormed) {a b : VarId} (ha : m.owns a = true)
    (hb : m.owns b = true) (hk : 0 ≤ c.constant) :
    ∃ vs, (do (← m.values a).toList.filterM fun v => do return !(← c.supported m b v)) = .ok vs ∧
      ∀ v, v ∈ vs ↔ m.Has a v ∧ ¬∃ w, m.Has b w ∧ ((v - w).natAbs : Int) = c.constant := by
  obtain ⟨vs, hvs, -, hmem⟩ := hw.values_spec ha
  obtain ⟨q, hq⟩ := Classical.skolem.mp fun v => supported_spec (c := c) hw hb hk v
  have hrun : vs.toList.filterM (fun v => do return !(← c.supported m b v)) =
      .ok (vs.toList.filter fun v => !q v) := by
    refine filterM_eq_ok fun v _ => ?_
    rw [(hq v).1]
    rfl
  refine ⟨_, by rw [hvs, ok_bind]; exact hrun, fun v => ?_⟩
  rw [List.mem_filter, Array.mem_toList_iff, hmem, Bool.not_eq_true', ← (hq v).2, Bool.not_eq_true]

theorem nextFrom_spec {m : Model} (hw : m.WellFormed) {x : VarId} (hx : m.owns x = true) {v : Int}
    (hv : Value.Fits v) : ∃ r, (do (← m.domain x).nextFrom? m.store v) = .ok r ∧
      LeastOf (fun w => m.Has x w ∧ v ≤ w) r := by
  obtain ⟨y, hy⟩ := Model.owns_iff.mp hx
  obtain ⟨r, hr, hleast⟩ := (hw.domains _ y hy).nextFrom?_spec (v := v) (fun _ => hv)
  refine ⟨r, by simp only [Model.domain_eq_ok hy, ok_bind, hr], ?_⟩
  simpa only [Model.has_iff hy] using hleast

theorem previousFrom_spec {m : Model} (hw : m.WellFormed) {x : VarId} (hx : m.owns x = true) {v : Int}
    (hv : Value.Fits v) : ∃ r, (do (← m.domain x).previousFrom? m.store v) = .ok r ∧
      GreatestOf (fun w => m.Has x w ∧ w ≤ v) r := by
  obtain ⟨y, hy⟩ := Model.owns_iff.mp hx
  obtain ⟨r, hr, hgreatest⟩ := (hw.domains _ y hy).previousFrom?_spec (v := v) (fun _ => hv)
  refine ⟨r, by simp only [Model.domain_eq_ok hy, ok_bind, hr], ?_⟩
  simpa only [Model.has_iff hy] using hgreatest

/-- The bounds of `a` lie between candidates that were reckoned with values of `b`. Where a sum or a difference was cut
off, the bound need not be at the distance from the value. -/
structure Reached (c : Distance) (m : Model) (a b : VarId) : Prop where
  low : ∃ l w, m.lb a = .ok l ∧ m.Has b w ∧
    (minus l c.constant ≤ w ∧ plus w c.constant ≤ l ∨ plus l c.constant ≤ w ∧ minus w c.constant ≤ l)
  high : ∃ u w, m.ub a = .ok u ∧ m.Has b w ∧
    (w ≤ minus u c.constant ∧ u ≤ plus w c.constant ∨ w ≤ plus u c.constant ∧ u ≤ minus w c.constant)

/-- The candidate for the lower bound of `a` is below all values that have a partner. Where it does not move the bound,
it comes from a value of `b`. -/
theorem low_spec {m : Model} (hw : m.WellFormed) {a b : VarId} (ha : m.owns a = true) (hb : m.owns b = true) (k : Int) :
    ∃ l r₁ r₂, m.lb a = .ok l ∧ (do (← m.domain b).nextFrom? m.store (minus l k)) = .ok r₁ ∧
      (do (← m.domain b).nextFrom? m.store (plus l k)) = .ok r₂ ∧
      (∀ v w, m.Has a v → m.Has b w → ((v - w).natAbs : Int) = k →
        ∃ low, least? (r₁.map fun w => plus w k) (r₂.map fun w => minus w k) = some low ∧ low ≤ v) ∧
      ∀ low, least? (r₁.map fun w => plus w k) (r₂.map fun w => minus w k) = some low → low ≤ l →
        ∃ w, m.Has b w ∧ (minus l k ≤ w ∧ plus w k ≤ l ∨ plus l k ≤ w ∧ minus w k ≤ l) := by
  obtain ⟨l, hl, -, hle⟩ := hw.lb_spec ha
  obtain ⟨r₁, hr₁, hleast₁⟩ := nextFrom_spec hw hb (Value.fits_clamp (l - k))
  obtain ⟨r₂, hr₂, hleast₂⟩ := nextFrom_spec hw hb (Value.fits_clamp (l + k))
  refine ⟨l, r₁, r₂, hl, hr₁, hr₂, fun v w hv hw' hvw => ?_, fun low => exists_of_least?_le hleast₁ hleast₂⟩
  exact exists_low hleast₁ hleast₂ (hw.fits hv) (hw.fits hw') hw' (hle v hv) hvw

/-- The candidate for the upper bound of `a` is above all values that have a partner. -/
theorem high_spec {m : Model} (hw : m.WellFormed) {a b : VarId} (ha : m.owns a = true) (hb : m.owns b = true) (k : Int) :
    ∃ u r₁ r₂, m.ub a = .ok u ∧ (do (← m.domain b).previousFrom? m.store (minus u k)) = .ok r₁ ∧
      (do (← m.domain b).previousFrom? m.store (plus u k)) = .ok r₂ ∧
      (∀ v w, m.Has a v → m.Has b w → ((v - w).natAbs : Int) = k →
        ∃ high, greatest? (r₁.map fun w => plus w k) (r₂.map fun w => minus w k) = some high ∧ v ≤ high) ∧
      ∀ high, greatest? (r₁.map fun w => plus w k) (r₂.map fun w => minus w k) = some high → u ≤ high →
        ∃ w, m.Has b w ∧ (w ≤ minus u k ∧ u ≤ plus w k ∨ w ≤ plus u k ∧ u ≤ minus w k) := by
  obtain ⟨u, hu, -, hle⟩ := hw.ub_spec ha
  obtain ⟨r₁, hr₁, hgreatest₁⟩ := previousFrom_spec hw hb (Value.fits_clamp (u - k))
  obtain ⟨r₂, hr₂, hgreatest₂⟩ := previousFrom_spec hw hb (Value.fits_clamp (u + k))
  refine ⟨u, r₁, r₂, hu, hr₁, hr₂, fun v w hv hw' hvw => ?_, fun high => exists_of_le_greatest? hgreatest₁ hgreatest₂⟩
  exact exists_high hgreatest₁ hgreatest₂ (hw.fits hv) (hw.fits hw') hw' (hle v hv) hvw

/-- **Candidates that were cut off do not survive the pass for the other variable**, whose bounds would not lie between
candidates. -/
theorem Reached.supported {m : Model} (hw : m.WellFormed) {a b : VarId} (hk : 0 ≤ c.constant)
    (hfk : Value.Fits c.constant) (hab : c.Reached m a b) (hba : c.Reached m b a) {v : Int}
    (hv : m.lb a = .ok v ∨ m.ub a = .ok v) : ∃ w, m.Has b w ∧ ((v - w).natAbs : Int) = c.constant := by
  have hfv := hw.fits (hw.has_of_bound hv)
  rcases hv with hv | hv
  · obtain ⟨l, w, hl, hw₁, hlow⟩ := hab.low
    obtain ⟨u, t, hu, hw₂, hhigh⟩ := hba.high
    cases hv.symm.trans hl
    have hfu := hw.fits (hw.has_of_bound (.inr hu))
    have h1 := hw.le_of_ub hu hw₁
    have h2 := hw.le_of_lb hv hw₂
    have h3 := hw.fits hw₁
    have h4 := hw.fits hw₂
    rw [minus_le_iff hfv h3 hk, plus_le_iff hfv, plus_le_iff h3, minus_le_iff h3 hfv hk] at hlow
    rw [le_minus_iff h4, le_plus_iff h4 hfu hk, le_plus_iff hfu h4 hk, le_minus_iff hfu] at hhigh
    refine ⟨w, hw₁, ?_⟩
    simp only [Value.Fits, Value.least, Value.greatest] at hfk hfv hfu h3 h4 hlow hhigh
    omega
  · obtain ⟨u, w, hu, hw₁, hhigh⟩ := hab.high
    obtain ⟨l, t, hl, hw₂, hlow⟩ := hba.low
    cases hv.symm.trans hu
    have hfl := hw.fits (hw.has_of_bound (.inl hl))
    have h1 := hw.le_of_lb hl hw₁
    have h2 := hw.le_of_ub hv hw₂
    have h3 := hw.fits hw₁
    have h4 := hw.fits hw₂
    rw [minus_le_iff hfl h4 hk, plus_le_iff hfl, plus_le_iff h4, minus_le_iff h4 hfl hk] at hlow
    rw [le_minus_iff h3, le_plus_iff h3 hfv hk, le_plus_iff hfv h3 hk, le_minus_iff hfv] at hhigh
    refine ⟨w, hw₁, ?_⟩
    simp only [Value.Fits, Value.least, Value.greatest] at hfk hfv hfl h3 h4 hlow hhigh
    omega

/-- The values of `a` that are not farther than `k` from the bounds of `b`. -/
theorem keeps_within_iff {m : Model} (hw : m.WellFormed) {a b : VarId} {v l u k : Int} (hv : m.Has a v) (hl : m.Has b l)
    (hu : m.Has b u) (hk : 0 ≤ k) : (Mutation.within (minus l k) (plus u k)).Keeps v ↔ l ≤ v + k ∧ v ≤ u + k := by
  rw [Mutation.Keeps, minus_le_iff (hw.fits hl) (hw.fits hv) hk, le_plus_iff (hw.fits hu) (hw.fits hv) hk]

/-- Values of `a` that have no partner are removed. Where none was there, holes being admitted, all values have one. -/
theorem removeUnsupported_spec [Tolerance] {s₀ : Scene} (hin : Within H start s) {a b : VarId}
    (ha : start.model.owns a = true) (hb : start.model.owns b = true) (hl : a ∈ l) (hk : 0 ≤ c.constant)
    (hH : ∀ f, H f → start.model.Allows f → ∃ g, H g ∧ start.model.Allows g ∧ ((f a - g b).natAbs : Int) = c.constant)
    {changed : Bool} (ht : Tallies l s₀ changed s) :
    Leads H start
      (do let unsupported ← Filter.ask fun m => do
            (← m.values a).toList.filterM fun v => do return !(← c.supported m b v)
          removeAll a changed unsupported) s
      fun any s' => Tallies l s₀ any s' ∧ (any = false → changed = false ∧ (s.model.isEnumerated a = .ok true →
        ∀ v, s.model.Has a v → ∃ w, s.model.Has b w ∧ ((v - w).natAbs : Int) = c.constant)) := by
  obtain ⟨vs, hvs, hun⟩ := unsupported_spec (c := c) hin.wellFormed (hin.owns ha) (hin.owns hb) hk
  refine Leads.ask_bind hin hvs ?_
  refine Leads.mono (removeAll_spec hin ha hl ?_ ht) ?_
  · rintro v hv f hf hallows rfl
    obtain ⟨g, hg, hgallows, h1⟩ := hH f hf hallows
    exact ((hun _).mp hv).2 ⟨_, hin.keeps g hg hgallows b (hin.owns hb), h1⟩
  · rintro any s' - ⟨ht', hany⟩
    refine ⟨ht', fun hc => ⟨(hany hc).1, fun henum v hv => ?_⟩⟩
    exact Classical.byContradiction fun hno => (hany hc).2 henum v ((hun v).mpr ⟨hv, hno⟩) hv

/-- What the candidates for the bounds of `a` tell: the values that have a partner are between them, and where all values
are between them, they come from values of `b`. -/
structure Candidates (c : Distance) (m : Model) (a b : VarId) (lo hi : Option Int) : Prop where
  low : ∀ v w, m.Has a v → m.Has b w → ((v - w).natAbs : Int) = c.constant → ∃ low, lo = some low ∧ low ≤ v
  high : ∀ v w, m.Has a v → m.Has b w → ((v - w).natAbs : Int) = c.constant → ∃ high, hi = some high ∧ v ≤ high
  reached : ∀ low high, lo = some low → hi = some high → (∀ v, m.Has a v → low ≤ v ∧ v ≤ high) → c.Reached m a b

theorem candidates_spec {m : Model} (hw : m.WellFormed) {a b : VarId} (ha : m.owns a = true) (hb : m.owns b = true) :
    ∃ l r₁ r₂ u q₁ q₂, m.lb a = .ok l ∧ (do (← m.domain b).nextFrom? m.store (minus l c.constant)) = .ok r₁ ∧
      (do (← m.domain b).nextFrom? m.store (plus l c.constant)) = .ok r₂ ∧ m.ub a = .ok u ∧
      (do (← m.domain b).previousFrom? m.store (minus u c.constant)) = .ok q₁ ∧
      (do (← m.domain b).previousFrom? m.store (plus u c.constant)) = .ok q₂ ∧
      c.Candidates m a b (least? (r₁.map fun w => plus w c.constant) (r₂.map fun w => minus w c.constant))
        (greatest? (q₁.map fun w => plus w c.constant) (q₂.map fun w => minus w c.constant)) := by
  obtain ⟨l, r₁, r₂, hl, hr₁, hr₂, hbelow, hlowest⟩ := low_spec hw ha hb c.constant
  obtain ⟨u, q₁, q₂, hu, hq₁, hq₂, habove, hhighest⟩ := high_spec hw ha hb c.constant
  refine ⟨l, r₁, r₂, u, q₁, q₂, hl, hr₁, hr₂, hu, hq₁, hq₂, hbelow, habove, fun low high hlo hhi hbetween => ?_⟩
  have h1 := (hbetween l (hw.has_of_bound (.inl hl))).1
  have h2 := (hbetween u (hw.has_of_bound (.inr hu))).2
  obtain ⟨v, hv, hcases⟩ := hlowest low hlo h1
  obtain ⟨w, hw', hcases'⟩ := hhighest high hhi h2
  exact ⟨⟨l, v, hl, hv, hcases⟩, ⟨u, w, hu, hw', hcases'⟩⟩

/-- The end of a pass, after the values of `a` that are too far from the bounds of `b` are gone: `a` is narrowed to the
candidates, and then looked at one by one. -/
theorem narrowToCandidates_spec [Tolerance] {s₀ : Scene} (hin : Within H start s) {a b : VarId}
    (ha : start.model.owns a = true) (hb : start.model.owns b = true) (hl : a ∈ l) (hk : 0 ≤ c.constant)
    (hH : ∀ f, H f → start.model.Allows f → ∃ g, H g ∧ start.model.Allows g ∧ ((f a - g b).natAbs : Int) = c.constant)
    {low high : Int} (hc : c.Candidates s.model a b (some low) (some high)) {near : Bool} (ht : Tallies l s₀ near s) :
    Leads H start
      (do let moved ← Filter.narrow a (.within low high)
          if c.admitsHoles a then
            let unsupported ← Filter.ask fun m => do
              (← m.values a).toList.filterM fun v => do return !(← c.supported m b v)
            removeAll a (near || moved) unsupported
          else return near || moved) s
      fun any s' => Tallies l s₀ any s' ∧ (any = false → near = false ∧ c.Reached s.model a b ∧
        (c.admitsHoles a = true → s.model.isEnumerated a = .ok true → ∀ v, s.model.Has a v →
          ∃ w, s.model.Has b w ∧ ((v - w).natAbs : Int) = c.constant)) := by
  refine Leads.narrow_bind hin ha ?_ ?_
  · intro f hf hallows
    obtain ⟨g, hg, hgallows, hfg⟩ := hH f hf hallows
    have hfa := hin.keeps f hf hallows a (hin.owns ha)
    have hgb := hin.keeps g hg hgallows b (hin.owns hb)
    obtain ⟨_, ⟨⟩, h1⟩ := hc.low _ _ hfa hgb hfg
    obtain ⟨_, ⟨⟩, h2⟩ := hc.high _ _ hfa hgb hfg
    exact ⟨h1, h2⟩
  intro moved m' hn hin'
  have htally : Tallies l s₀ (near || moved) { s with model := m' } := ht.trans (.narrowed hl hn)
  -- when nothing moved, the bounds were between the candidates
  have hreached : moved = false → c.Reached s.model a b := by
    intro hmoved
    obtain rfl := hn.unchanged hmoved
    exact hc.reached low high rfl rfl fun v hv => ((hn.has_iff v).mp hv).keeps id
  by_cases hholes : c.admitsHoles a = true
  · simp only [hholes, if_true]
    refine Leads.mono (removeUnsupported_spec hin' ha hb hl hk hH htally) ?_
    rintro any s' - ⟨ht', hany⟩
    refine ⟨ht', fun hnone => ?_⟩
    obtain ⟨hboth, hsupported⟩ := hany hnone
    rw [Bool.or_eq_false_iff] at hboth
    obtain rfl := hn.unchanged hboth.2
    exact ⟨hboth.1, hreached hboth.2, fun _ => hsupported⟩
  · simp only [hholes]
    refine Leads.pure hin' ⟨htally, fun hnone => ?_⟩
    rw [Bool.or_eq_false_iff] at hnone
    exact ⟨hnone.1, hreached hnone.2, fun h => absurd h Bool.false_ne_true⟩

/-- Of each assignment the value of `a` has one of `b` at the distance, though it may be that of another assignment.
A pass that changes nothing has found as much of all values of `a`, where these are looked at one by one. -/
theorem filterEq_spec [Tolerance] (hin : Within H start s) {a b : VarId} (ha : start.model.owns a = true)
    (hb : start.model.owns b = true) (hl : a ∈ l) (hk : 0 ≤ c.constant)
    (hH : ∀ f, H f → start.model.Allows f → ∃ g, H g ∧ start.model.Allows g ∧ ((f a - g b).natAbs : Int) = c.constant) :
    Leads H start (c.filterEq a b) s (Passes l (fun m => c.Reached m a b ∧
      (c.admitsHoles a = true → m.isEnumerated a = .ok true → ∀ v, m.Has a v → ∃ w, m.Has b w ∧
        ((v - w).natAbs : Int) = c.constant)) s) := by
  obtain ⟨lb, hlb, hlb1, hlb2⟩ := hin.wellFormed.lb_spec (hin.owns hb)
  obtain ⟨ub, hub, hub1, hub2⟩ := hin.wellFormed.ub_spec (hin.owns hb)
  refine Leads.ask_bind hin hlb ?_
  refine Leads.ask_bind hin hub ?_
  refine Leads.narrow_bind hin ha ?_ ?_
  · intro f hf hallows
    obtain ⟨g, hg, hgallows, h1⟩ := hH f hf hallows
    have h2 := hin.keeps g hg hgallows b (hin.owns hb)
    have h3 := hlb2 _ h2
    have h4 := hub2 _ h2
    rw [keeps_within_iff hin.wellFormed (hin.keeps f hf hallows a (hin.owns ha)) hlb1 hub1 hk]
    omega
  intro near m1 hn1 hin1
  have ha1 : m1.owns a = true := hin1.owns ha
  have hb1 : m1.owns b = true := hin1.owns hb
  obtain ⟨least, r₁, r₂, greatest, q₁, q₂, hleast, hr₁, hr₂, hgreatest, hq₁, hq₂, hc⟩ :=
    candidates_spec (c := c) hin1.wellFormed ha1 hb1
  refine Leads.ask_bind hin1 hleast ?_
  refine Leads.ask_bind hin1 hr₁ ?_
  refine Leads.ask_bind hin1 hr₂ ?_
  refine Leads.ask_bind hin1 hgreatest ?_
  refine Leads.ask_bind hin1 hq₁ ?_
  refine Leads.ask_bind hin1 hq₂ ?_
  generalize least? (r₁.map fun w => plus w c.constant) (r₂.map fun w => minus w c.constant) = lo at hc
  generalize greatest? (q₁.map fun w => plus w c.constant) (q₂.map fun w => minus w c.constant) = hi at hc
  -- without a candidate no value has a partner, and there is no solution to lose
  cases lo with
  | none =>
    refine Leads.fail hin1 fun f hf hallows => ?_
    obtain ⟨g, hg, hgallows, h1⟩ := hH f hf hallows
    obtain ⟨_, hnone, -⟩ := hc.low _ _ (hin1.keeps f hf hallows a ha1) (hin1.keeps g hg hgallows b hb1) h1
    cases hnone
  | some low =>
  cases hi with
  | none =>
    refine Leads.fail hin1 fun f hf hallows => ?_
    obtain ⟨g, hg, hgallows, h1⟩ := hH f hf hallows
    obtain ⟨_, hnone, -⟩ := hc.high _ _ (hin1.keeps f hf hallows a ha1) (hin1.keeps g hg hgallows b hb1) h1
    cases hnone
  | some high =>
    refine Leads.mono (narrowToCandidates_spec hin1 ha hb hl hk hH hc (.narrowed hl hn1)) ?_
    rintro any s' - ⟨ht, hany⟩
    refine ⟨ht, fun hnone => ?_⟩
    obtain ⟨hnear, hreached⟩ := hany hnone
    obtain rfl := hn1.unchanged hnear
    exact hreached

/-- The spans of the two domains leave no room for more values than can be lost. -/
theorem spare_le_spans {m : Model} (hw : m.WellFormed) (hx : m.owns c.x = true) (hy : m.owns c.y = true) :
    ∃ lx ux ly uy, m.lb c.x = .ok lx ∧ m.ub c.x = .ok ux ∧ m.lb c.y = .ok ly ∧ m.ub c.y = .ok uy ∧
      m.spare [c.x, c.y] ≤ (ux - lx).toNat + (uy - ly).toNat := by
  obtain ⟨lx, hlx, -, hlx'⟩ := hw.lb_spec hx
  obtain ⟨ux, hux, -, hux'⟩ := hw.ub_spec hx
  obtain ⟨ly, hly, -, hly'⟩ := hw.lb_spec hy
  obtain ⟨uy, huy, -, huy'⟩ := hw.ub_spec hy
  have hcx := Model.count_le_span hlx' hux'
  have hcy := Model.count_le_span hly' huy'
  refine ⟨lx, ux, ly, uy, hlx, hux, hly, huy, ?_⟩
  simp only [Model.spare, List.foldr_cons, List.foldr_nil]
  omega

/-- The patience outlasts the values that can go. -/
theorem patience_spec [Tolerance] (hin : Within H start s) (hx : start.model.owns c.x = true)
    (hy : start.model.owns c.y = true) :
    Leads H start c.patience s fun fuel s' => s' = s ∧ s.model.spare [c.x, c.y] < fuel := by
  obtain ⟨lx, ux, ly, uy, hlx, hux, hly, huy, hle⟩ := spare_le_spans (c := c) hin.wellFormed (hin.owns hx) (hin.owns hy)
  refine Leads.ask_bind hin hux ?_
  refine Leads.ask_bind hin hlx ?_
  refine Leads.ask_bind hin huy ?_
  refine Leads.ask_bind hin hly ?_
  exact Leads.pure hin ⟨rfl, Nat.lt_succ_of_le hle⟩

/-- Two passes, one for each variable, are repeated until they change nothing. -/
theorem repeatPass_leads [Tolerance] (hin : Within H start start) (hx : start.model.owns c.x = true)
    (hy : start.model.owns c.y = true) {pass : VarId → VarId → Filter Bool} {P Q : Model → Prop}
    (h1 : ∀ s, Within H start s → Leads H start (pass c.x c.y) s (Passes [c.x, c.y] P s))
    (h2 : ∀ s, Within H start s → Leads H start (pass c.y c.x) s (Passes [c.x, c.y] Q s)) {rest : Filter Unit}
    {S : Unit → Scene → Prop} (hrest : ∀ s, Within H start s → s.passive = start.passive → P s.model → Q s.model →
      Leads H start rest s S) :
    Leads H start (do repeatPass (bothWays pass c.x c.y) (← c.patience); rest) start S := by
  refine Leads.bind (patience_spec hin hx hy) ?_
  rintro fuel s1 - ⟨rfl, hfuel⟩
  refine Leads.bind (repeatPass_spec hin (fun s hs => Leads.both hs h1 h2) hfuel) ?_
  rintro _ s2 hin2 ⟨hp, hP, hQ⟩
  exact hrest s2 hin2 hp hP hQ

theorem mem_both_left : c.x ∈ [c.x, c.y] := List.mem_cons_self

theorem mem_both_right : c.y ∈ [c.x, c.y] := List.mem_cons_of_mem _ List.mem_cons_self

theorem mem_scope_left : c.x ∈ #[c.x, c.y] := by simp

theorem mem_scope_right : c.y ∈ #[c.x, c.y] := by simp

/-! ### What a run leaves -/

/-- The value of `a` is looked at: it is a bound, or looked at one by one with the others. -/
def Examined (c : Distance) (m : Model) (a : VarId) (v : Int) : Prop :=
  (m.lb a = .ok v ∨ m.ub a = .ok v) ∨ c.admitsHoles a = true ∧ m.isEnumerated a = .ok true ∧ m.Has a v

/-- What the values of `a` have in the domain of `b` after a run. -/
def Supported (c : Distance) (m : Model) (a b : VarId) : Prop :=
  match c.relation with
  | .eq => ∀ v, c.Examined m a v → ∃ w, m.Has b w ∧ ((v - w).natAbs : Int) = c.constant
  | .ne => ∀ v, m.value? a = .ok (some v) → ∀ w, ((v - w).natAbs : Int) = c.constant → m.Has b w → m.Inside b w
  | .lt => ∀ l u, m.lb b = .ok l → m.ub b = .ok u → ∀ v, m.lb a = .ok v ∨ m.ub a = .ok v →
      l - (c.constant - 1) ≤ v ∧ v ≤ u + (c.constant - 1)
  | .gt => ∀ v, m.Removable a v → ∃ w, m.Has b w ∧ c.constant < ((v - w).natAbs : Int)

/-- What the values of the two variables have in each other's domains. -/
structure Consistent (c : Distance) (m : Model) : Prop where
  left : c.Supported m c.x c.y
  right : c.Supported m c.y c.x

/-- **Consistency decides fixed variables.** -/
theorem Consistent.ground {m : Model} (h : c.Consistent m) (hw : m.WellFormed) (hx : m.Fixed c.x) (hy : m.Fixed c.y)
    {f : Assignment} (hf : m.Allows f) : c.Holds f := by
  have hfx := hf c.x hx.owns
  have hfy := hf c.y hy.owns
  have hlx := hw.lb_of_fixed hx hfx
  have hs := h.left
  simp only [Supported] at hs
  rw [Holds]
  cases hr : c.relation <;> simp only [hr, DistanceRelation.toRelation, Relation.Holds] at hs ⊢
  case eq =>
    obtain ⟨w, hw', hk⟩ := hs _ (.inl (.inl hlx))
    rwa [hw.eq_of_fixed hy hw' hfy] at hk
  case ne =>
    intro hk
    exact (hs _ (hw.value?_of_fixed hx hfx) _ hk hfy).not_fixed hw hy
  case lt =>
    have := hs _ _ (hw.lb_of_fixed hy hfy) (hw.ub_of_fixed hy hfy) _ (.inl hlx)
    omega
  case gt =>
    obtain ⟨w, hw', hk⟩ := hs _ ⟨hfx, .inr (.inl hlx)⟩
    rwa [hw.eq_of_fixed hy hw' hfy] at hk

/-- What a run comes to: the domains are consistent, and if it asks not to be woken again then all that is left
satisfies the constraint. -/
structure Settles (c : Distance) (s : Scene) : Prop where
  consistent : c.Consistent s.model
  passive : s.passive = true → ∀ f, s.model.Allows f → c.Holds f

theorem Settles.decided {c : Distance} {s : Scene} (h : c.Settles s) (hw : s.model.WellFormed) :
    Decided c.Holds #[c.x, c.y] s :=
  ⟨fun hfixed _ hf => h.consistent.ground hw (hfixed _ mem_scope_left) (hfixed _ mem_scope_right) hf, h.passive⟩

theorem runEq_spec [Tolerance] (hr : c.relation = .eq) (hw : start.model.WellFormed) (hx : start.model.owns c.x = true)
    (hy : start.model.owns c.y = true) (hp : start.passive = false) (hfk : Value.Fits c.constant) :
    Leads c.Holds start c.runEq start fun _ s' => c.Settles s' := by
  have hin : Within c.Holds start start := .refl hw
  have hH : ∀ f, c.Holds f ↔ ((f c.x - f c.y).natAbs : Int) = c.constant := fun f => by rw [Holds, hr]; rfl
  rw [runEq]
  by_cases hneg : c.constant < 0
  · rw [if_pos hneg]
    refine Leads.fail hin fun f hf _ => ?_
    have := (hH f).mp hf
    omega
  · rw [if_neg hneg]
    have hk : 0 ≤ c.constant := by omega
    refine repeatPass_leads hin hx hy
      (fun s hs => filterEq_spec hs hx hy mem_both_left hk fun f hf ha => ⟨f, hf, ha, (hH f).mp hf⟩)
      (fun s hs => filterEq_spec hs hy hx mem_both_right hk fun f hf ha =>
        ⟨f, hf, ha, by have := (hH f).mp hf; omega⟩) fun s2 hin2 hp2 hP hQ => ?_
    have hconsistent : c.Consistent s2.model := by
      refine ⟨?_, ?_⟩ <;> simp only [Supported, hr]
      · rintro v (hv | ⟨hholes, henum, hv⟩)
        · exact hP.1.supported hin2.wellFormed hk hfk hQ.1 hv
        · exact hP.2 hholes henum v hv
      · rintro v (hv | ⟨hholes, henum, hv⟩)
        · exact hQ.1.supported hin2.wellFormed hk hfk hP.1 hv
        · exact hQ.2 hholes henum v hv
    obtain ⟨fx, hfx, hfxi⟩ := Model.isInstantiated_spec (hin2.owns hx)
    obtain ⟨fy, hfy, hfyi⟩ := Model.isInstantiated_spec (hin2.owns hy)
    refine Leads.ask_bind hin2 hfx ?_
    refine Leads.ask_bind hin2 hfy ?_
    by_cases hboth : (fx && fy) = true
    · rw [if_pos hboth]
      rw [Bool.and_eq_true] at hboth
      exact Leads.setPassive hin2 ⟨hconsistent, fun _ f hf =>
        hconsistent.ground hin2.wellFormed (hfxi.mp hboth.1) (hfyi.mp hboth.2) hf⟩
    · rw [if_neg hboth]
      exact Leads.pure hin2 ⟨hconsistent, fun hp' => by rw [hp2, hp] at hp'; cases hp'⟩

/-! ### Difference -/

/-- The values at the distance of `k` from `v`. -/
theorem mem_around {k v w : Int} : w ∈ (Value.ofInt? (v - k)).toList ++ (Value.ofInt? (v + k)).toList ↔
    Value.Fits w ∧ (w = v - k ∨ w = v + k) := by
  simp only [List.mem_append, Option.mem_toList, Value.ofInt?_eq_some_iff]
  constructor
  · rintro (⟨hf, rfl⟩ | ⟨hf, rfl⟩)
    · exact ⟨hf, .inl rfl⟩
    · exact ⟨hf, .inr rfl⟩
  · rintro ⟨hf, rfl | rfl⟩
    · exact .inl ⟨hf, rfl⟩
    · exact .inr ⟨hf, rfl⟩

/-- The two values at the distance of `k` are not next to each other. -/
theorem apart_around (k v : Int) : ((Value.ofInt? (v - k)).toList ++ (Value.ofInt? (v + k)).toList).Pairwise
    fun u w => (u - w).natAbs ≠ 1 := by
  simp only [Value.ofInt?]
  split <;> split <;> simp
  omega

/-- What taking the two values at the distance of the constant from `v` out of `b` comes to. -/
structure Cleared (c : Distance) (b : VarId) (v : Int) (s s' : Scene) : Prop where
  inside : ∀ w, ((v - w).natAbs : Int) = c.constant → s'.model.Has b w → s'.model.Inside b w
  passive : s'.passive = s.passive ∧ (∃ w, ((v - w).natAbs : Int) = c.constant ∧ s'.model.Has b w) ∨
    s'.passive = true ∧ ∀ w, ((v - w).natAbs : Int) = c.constant → ¬s'.model.Has b w

theorem removeAround_spec [Tolerance] (hin : Within H start s) {b : VarId} (hb : start.model.owns b = true) {v : Int}
    (hk : 0 ≤ c.constant) (hH : ∀ f, H f → start.model.Allows f → ((v - f b).natAbs : Int) ≠ c.constant) :
    Leads H start (c.removeAround b v) s fun _ s' => c.Cleared b v s s' := by
  refine Leads.bind (removeAll_leaves hin hb (apart_around _ _) ?_) ?_
  · rintro w hw f hf hallows rfl
    have h1 := hH f hf hallows
    have h2 := (mem_around.mp hw).2
    omega
  rintro _ s1 hin1 ⟨hp1, -, -, hinside⟩
  have hinside : ∀ w, ((v - w).natAbs : Int) = c.constant → s1.model.Has b w → s1.model.Inside b w :=
    fun w hw hhas => hinside w (mem_around.mpr ⟨hin1.wellFormed.fits hhas, by omega⟩) hhas
  obtain ⟨r1, hr1, h1⟩ := holdsAt_spec hin1.wellFormed (hin1.owns hb) (v - c.constant)
  obtain ⟨r2, hr2, h2⟩ := holdsAt_spec hin1.wellFormed (hin1.owns hb) (v + c.constant)
  refine Leads.ask_bind hin1 (holdsAt_or hr1 hr2) ?_
  cases hleft : r1 || r2 with
  | false =>
    rw [Bool.or_eq_false_iff, ← Bool.not_eq_true, ← Bool.not_eq_true, h1, h2] at hleft
    refine Leads.setPassive hin1 ⟨hinside, .inr ⟨rfl, fun w hw hhas => ?_⟩⟩
    rcases (by omega : w = v - c.constant ∨ w = v + c.constant) with rfl | rfl
    · exact hleft.1 hhas
    · exact hleft.2 hhas
  | true =>
    rw [Bool.or_eq_true, h1, h2] at hleft
    refine Leads.pure hin1 ⟨hinside, .inl ⟨hp1, ?_⟩⟩
    rcases hleft with hhas | hhas
    · exact ⟨_, by omega, hhas⟩
    · exact ⟨_, by omega, hhas⟩

/-- Where one variable has one value and the values around it are cleared, each has what it should in the other's
domain. -/
theorem Cleared.supported (hr : c.relation = .ne) {a b : VarId} {v : Int} {s s' : Scene} (h : c.Cleared b v s s')
    (hw : s'.model.WellFormed) (hv : ∀ u, s'.model.Has a u → u = v) :
    c.Supported s'.model a b ∧ c.Supported s'.model b a := by
  simp only [Supported, hr]
  constructor
  · intro u hu w hk hhas
    obtain rfl := hv u (((hw.fixed_of_value? hu).2 u).mpr rfl)
    exact h.inside w hk hhas
  · intro u hu w hk hhas
    obtain ⟨hfixed, hvalue⟩ := hw.fixed_of_value? hu
    obtain rfl := hv w hhas
    exact absurd hfixed ((h.inside u (by omega) ((hvalue u).mpr rfl)).not_fixed hw)

/-- Clearing the values around the one value of `a` leaves consistent domains. -/
theorem removeAround_settles [Tolerance] (hr : c.relation = .ne) (hin : Within c.Holds start start) {a b : VarId}
    (ha : start.model.owns a = true) (hb : start.model.owns b = true) (hk : 0 ≤ c.constant) (hp : start.passive = false)
    (hH : ∀ f, c.Holds f ↔ ((f a - f b).natAbs : Int) ≠ c.constant) {v : Int}
    (hv : ∀ u, start.model.Has a u → u = v) :
    Leads c.Holds start (c.removeAround b v) start fun _ s' =>
      (c.Supported s'.model a b ∧ c.Supported s'.model b a) ∧
        (s'.passive = true → ∀ f, s'.model.Allows f → c.Holds f) := by
  refine Leads.mono (removeAround_spec hin hb hk fun f hf hallows => ?_) fun _ s' hin' h => ?_
  · rw [← hv _ (hallows _ ha)]
    exact (hH f).mp hf
  · have hv' : ∀ u, s'.model.Has a u → u = v := fun u hu => hv u (hin'.narrows.has _ u hu)
    refine ⟨h.supported hr hin'.wellFormed hv', fun hp' f hf => (hH f).mpr fun heq => ?_⟩
    rw [hv' _ (hf _ (hin'.owns ha))] at heq
    rcases h.passive with ⟨hsame, -⟩ | ⟨-, hgone⟩
    · rw [hsame, hp] at hp'
      cases hp'
    · exact hgone _ heq (hf _ (hin'.owns hb))

theorem runNe_spec [Tolerance] (hr : c.relation = .ne) (hw : start.model.WellFormed) (hx : start.model.owns c.x = true)
    (hy : start.model.owns c.y = true) (hp : start.passive = false) :
    Leads c.Holds start c.runNe start fun _ s' => c.Settles s' := by
  have hin : Within c.Holds start start := .refl hw
  have hH : ∀ f, c.Holds f ↔ ((f c.x - f c.y).natAbs : Int) ≠ c.constant := fun f => by rw [Holds, hr]; rfl
  rw [runNe]
  by_cases hneg : c.constant < 0
  · rw [if_pos hneg]
    refine Leads.setPassive hin ⟨⟨?_, ?_⟩, fun _ f _ => by rw [hH]; omega⟩ <;> simp only [Supported, hr] <;>
      intro v _ w hk <;> omega
  rw [if_neg hneg]
  have hk : 0 ≤ c.constant := by omega
  obtain ⟨rx, hrx, hsx, -⟩ := hw.value?_spec hx
  refine Leads.ask_bind hin hrx ?_
  cases rx with
  | some v =>
    refine Leads.mono (removeAround_settles hr hin hx hy hk hp hH fun u => ((hsx v rfl).2 u).mp) ?_
    rintro _ s' - ⟨⟨hxy, hyx⟩, hpassive⟩
    exact ⟨⟨hxy, hyx⟩, hpassive⟩
  | none =>
    obtain ⟨ry, hry, hsy, -⟩ := hw.value?_spec hy
    refine Leads.ask_bind hin hry ?_
    cases ry with
    | some v =>
      have hH' : ∀ f, c.Holds f ↔ ((f c.y - f c.x).natAbs : Int) ≠ c.constant := fun f => (hH f).trans (by omega)
      refine Leads.mono (removeAround_settles hr hin hy hx hk hp hH' fun u => ((hsy v rfl).2 u).mp) ?_
      rintro _ s' - ⟨⟨hyx, hxy⟩, hpassive⟩
      exact ⟨⟨hxy, hyx⟩, hpassive⟩
    | none =>
      refine Leads.pure hin ⟨⟨?_, ?_⟩, fun hp' => by rw [hp] at hp'; cases hp'⟩ <;> simp only [Supported, hr]
      · intro v hv
        cases hrx.symm.trans hv
      · intro v hv
        cases hry.symm.trans hv

/-! ### What is known -/

theorem range_spec {m : Model} (hw : m.WellFormed) (hx : m.owns c.x = true) (hy : m.owns c.y = true) :
    ∃ least greatest, c.range m = .ok (least, greatest) ∧
      ∀ f, m.Allows f → least ≤ ((f c.x - f c.y).natAbs : Int) ∧ ((f c.x - f c.y).natAbs : Int) ≤ greatest := by
  obtain ⟨lx, hlx, -, hlx'⟩ := hw.lb_spec hx
  obtain ⟨ly, hly, -, hly'⟩ := hw.lb_spec hy
  obtain ⟨ux, hux, -, hux'⟩ := hw.ub_spec hx
  obtain ⟨uy, huy, -, huy'⟩ := hw.ub_spec hy
  simp only [range, hlx, hly, hux, huy, ok_bind]
  refine ⟨_, _, rfl, fun f hf => ?_⟩
  have h1 := hlx' _ (hf _ hx)
  have h2 := hly' _ (hf _ hy)
  have h3 := hux' _ (hf _ hx)
  have h4 := huy' _ (hf _ hy)
  constructor
  · split
    · omega
    · split <;> omega
  · omega

theorem fixed?_spec {m : Model} (hw : m.WellFormed) (hx : m.owns c.x = true) (hy : m.owns c.y = true) :
    ∃ r, c.fixed? m = .ok r ∧ (∀ d, r = some d → ∀ f, m.Allows f → ((f c.x - f c.y).natAbs : Int) = d) ∧
      (m.Fixed c.x → m.Fixed c.y → r ≠ none) := by
  obtain ⟨rx, hrx, hsx, hnx⟩ := hw.value?_spec hx
  obtain ⟨ry, hry, hsy, hny⟩ := hw.value?_spec hy
  simp only [fixed?, hrx, hry, ok_bind]
  cases rx with
  | none => exact ⟨none, rfl, (fun d hd => by cases hd), fun hf _ => absurd hf (hnx rfl)⟩
  | some v =>
    cases ry with
    | none => exact ⟨none, rfl, (fun d hd => by cases hd), fun _ hf => absurd hf (hny rfl)⟩
    | some w =>
      refine ⟨some _, rfl, ?_, fun _ _ => by simp⟩
      rintro d hd f hf
      cases hd
      rw [((hsx v rfl).2 _).mp (hf _ hx), ((hsy w rfl).2 _).mp (hf _ hy)]

theorem entailed_spec {m : Model} (hw : m.WellFormed) (hx : m.owns c.x = true) (hy : m.owns c.y = true) :
    ∃ r, c.entailed m = .ok r ∧ r.Tells m c.Holds := by
  obtain ⟨least, greatest, hrange, hbetween⟩ := range_spec hw hx hy
  obtain ⟨r, hr, hfixed, -⟩ := fixed?_spec hw hx hy
  simp only [entailed, hrange, hr, ok_bind, Bool.or_eq_true, decide_eq_true_eq]
  cases hrel : c.relation with
  | eq =>
    have hH : ∀ f, c.Holds f ↔ ((f c.x - f c.y).natAbs : Int) = c.constant := fun f => by rw [Holds, hrel]; rfl
    cases r with
    | some d =>
      refine ⟨_, rfl, ?_⟩
      split
      · exact .of_always fun f hf => by rw [hH, hfixed d rfl f hf]; assumption
      · exact .of_never fun f hf => by rw [hH, hfixed d rfl f hf]; assumption
    | none =>
      refine ⟨_, rfl, ?_⟩
      split
      · exact .of_never fun f hf => by rw [hH]; have := hbetween f hf; omega
      · exact .of_undecided
  | ne =>
    have hH : ∀ f, c.Holds f ↔ ((f c.x - f c.y).natAbs : Int) ≠ c.constant := fun f => by rw [Holds, hrel]; rfl
    cases r with
    | some d =>
      refine ⟨_, rfl, ?_⟩
      split
      · exact .of_never fun f hf => by rw [hH, hfixed d rfl f hf]; exact not_not_intro ‹_›
      · exact .of_always fun f hf => by rw [hH, hfixed d rfl f hf]; assumption
    | none =>
      refine ⟨_, rfl, ?_⟩
      split
      · exact .of_always fun f hf => by rw [hH]; have := hbetween f hf; omega
      · exact .of_undecided
  | lt =>
    have hH : ∀ f, c.Holds f ↔ ((f c.x - f c.y).natAbs : Int) < c.constant := fun f => by rw [Holds, hrel]; rfl
    refine ⟨_, rfl, .of_ite (fun h f hf => ?_) fun h f hf => ?_⟩ <;> rw [hH] <;> have := hbetween f hf <;> omega
  | gt =>
    have hH : ∀ f, c.Holds f ↔ c.constant < ((f c.x - f c.y).natAbs : Int) := fun f => by rw [Holds, hrel]; rfl
    refine ⟨_, rfl, .of_ite (fun h f hf => ?_) fun h f hf => ?_⟩ <;> rw [hH] <;> have := hbetween f hf <;> omega

theorem setPassiveIfEntailed_spec [Tolerance] (hin : Within H start s) (hx : start.model.owns c.x = true)
    (hy : start.model.owns c.y = true) :
    Leads H start c.setPassiveIfEntailed s fun _ s' => s'.model = s.model ∧
      (s'.passive = s.passive ∨ s'.passive = true ∧ ∀ f, s.model.Allows f → c.Holds f) := by
  obtain ⟨r, hr, halways, -⟩ := entailed_spec hin.wellFormed (hin.owns hx) (hin.owns hy)
  refine Leads.ask_bind hin hr ?_
  by_cases h : r = .always
  · rw [if_pos h]
    exact Leads.setPassive hin ⟨rfl, .inr ⟨rfl, halways h⟩⟩
  · rw [if_neg h]
    exact Leads.pure hin ⟨rfl, .inl rfl⟩

/-- Consistent domains are what a run ends in that asks last whether it need be woken again. -/
theorem setPassiveIfEntailed_settles [Tolerance] (hin : Within H start s) (hx : start.model.owns c.x = true)
    (hy : start.model.owns c.y = true) (hp : s.passive = false) (h : c.Consistent s.model) :
    Leads H start c.setPassiveIfEntailed s fun _ s' => c.Settles s' := by
  refine Leads.mono (setPassiveIfEntailed_spec hin hx hy) ?_
  rintro _ s' - ⟨hmodel, hpassive⟩
  refine ⟨hmodel ▸ h, fun hp' => ?_⟩
  rw [hmodel]
  exact (hpassive.resolve_left fun hsame => by rw [hsame, hp] at hp'; cases hp').2

/-! ### Below and above -/

/-- Of each assignment the value of `a` is nearer than the constant to some value of `b` from above, and to one from
below. A pass that changes nothing has found as much of all values of `a`. -/
theorem filterLt_spec [Tolerance] (hin : Within H start s) {a b : VarId} (ha : start.model.owns a = true)
    (hb : start.model.owns b = true) (hl : a ∈ l) (hk : 0 < c.constant)
    (hH : ∀ f, H f → start.model.Allows f → (∃ g, H g ∧ start.model.Allows g ∧ g b - f a < c.constant) ∧
      ∃ g, H g ∧ start.model.Allows g ∧ f a - g b < c.constant) :
    Leads H start (c.filterLt a b) s (Passes l (fun m => ∀ v, m.Has a v →
      (∃ w, m.Has b w ∧ w - v < c.constant) ∧ ∃ w, m.Has b w ∧ v - w < c.constant) s) := by
  obtain ⟨lb, hlb, hlb1, hlb2⟩ := hin.wellFormed.lb_spec (hin.owns hb)
  obtain ⟨ub, hub, hub1, hub2⟩ := hin.wellFormed.ub_spec (hin.owns hb)
  refine Leads.ask_bind hin hlb ?_
  refine Leads.ask_bind hin hub ?_
  refine Leads.narrow hin ha ?_ ?_
  · intro f hf hallows
    obtain ⟨⟨g, hg, hgallows, h1⟩, ⟨g', hg', hgallows', h2⟩⟩ := hH f hf hallows
    have h3 := hlb2 _ (hin.keeps g hg hgallows b (hin.owns hb))
    have h4 := hub2 _ (hin.keeps g' hg' hgallows' b (hin.owns hb))
    rw [keeps_within_iff hin.wellFormed (hin.keeps f hf hallows a (hin.owns ha)) hlb1 hub1 (by omega)]
    omega
  · rintro changed m' hn
    refine ⟨.narrowed hl hn, ?_⟩
    rintro rfl
    obtain rfl := hn.unchanged rfl
    intro v hv
    have hkeeps := ((hn.has_iff v).mp hv).keeps fun h => h
    rw [keeps_within_iff hin.wellFormed hv hlb1 hub1 (by omega)] at hkeeps
    exact ⟨⟨lb, hlb1, by omega⟩, ⟨ub, hub1, by omega⟩⟩

theorem runLt_spec [Tolerance] (hr : c.relation = .lt) (hw : start.model.WellFormed) (hx : start.model.owns c.x = true)
    (hy : start.model.owns c.y = true) (hp : start.passive = false) :
    Leads c.Holds start c.runLt start fun _ s' => c.Settles s' := by
  have hin : Within c.Holds start start := .refl hw
  have hH : ∀ f, c.Holds f ↔ ((f c.x - f c.y).natAbs : Int) < c.constant := fun f => by rw [Holds, hr]; rfl
  rw [runLt]
  by_cases hneg : c.constant ≤ 0
  · rw [if_pos hneg]
    refine Leads.fail hin fun f hf _ => ?_
    have := (hH f).mp hf
    omega
  · rw [if_neg hneg]
    have hk : 0 < c.constant := by omega
    have hsupported : ∀ {m : Model} {a b : VarId}, m.WellFormed →
        (∀ v, m.Has a v → (∃ w, m.Has b w ∧ w - v < c.constant) ∧ ∃ w, m.Has b w ∧ v - w < c.constant) →
          c.Supported m a b := by
      intro m a b hw hP
      simp only [Supported, hr]
      intro l u hl hu v hv
      obtain ⟨⟨w, hw₁, h1⟩, w', hw₂, h2⟩ := hP v (hw.has_of_bound hv)
      have h3 := hw.le_of_lb hl hw₁
      have h4 := hw.le_of_ub hu hw₂
      omega
    refine repeatPass_leads hin hx hy
      (fun s hs => filterLt_spec hs hx hy mem_both_left hk fun f hf ha => by
        have := (hH f).mp hf
        exact ⟨⟨f, hf, ha, by omega⟩, ⟨f, hf, ha, by omega⟩⟩)
      (fun s hs => filterLt_spec hs hy hx mem_both_right hk fun f hf ha => by
        have := (hH f).mp hf
        exact ⟨⟨f, hf, ha, by omega⟩, ⟨f, hf, ha, by omega⟩⟩) fun s2 hin2 hp2 hP hQ => ?_
    exact setPassiveIfEntailed_settles hin2 hx hy (hp2.trans hp)
      ⟨hsupported hin2.wellFormed hP, hsupported hin2.wellFormed hQ⟩

/-- The values of `a` that are farther than `k` from a bound of `b`. -/
theorem keeps_removeRange_iff {m : Model} (hw : m.WellFormed) {a b : VarId} {v l u k : Int} (hv : m.Has a v)
    (hl : m.Has b l) (hu : m.Has b u) (hk : 0 ≤ k) :
    (Mutation.removeRange (minus u k) (plus l k)).Keeps v ↔ v + k < u ∨ l + k < v := by
  rw [Mutation.Keeps, minus_le_iff (hw.fits hu) (hw.fits hv) hk, le_plus_iff (hw.fits hl) (hw.fits hv) hk]
  omega

/-- Of each assignment the value of `a` is farther than the constant from some value of `b`. A pass that changes nothing
has found as much of all values of `a` that can be removed. -/
theorem filterGt_spec [Tolerance] (hin : Within H start s) {a b : VarId} (ha : start.model.owns a = true)
    (hb : start.model.owns b = true) (hl : a ∈ l) (hk : 0 ≤ c.constant)
    (hH : ∀ f, H f → start.model.Allows f → ∃ g, H g ∧ start.model.Allows g ∧ c.constant < ((f a - g b).natAbs : Int)) :
    Leads H start (c.filterGt a b) s (Passes l (fun m =>
      ∀ v, m.Removable a v → ∃ w, m.Has b w ∧ c.constant < ((v - w).natAbs : Int)) s) := by
  obtain ⟨lb, hlb, hlb1, hlb2⟩ := hin.wellFormed.lb_spec (hin.owns hb)
  obtain ⟨ub, hub, hub1, hub2⟩ := hin.wellFormed.ub_spec (hin.owns hb)
  refine Leads.ask_bind hin hub ?_
  refine Leads.ask_bind hin hlb ?_
  refine Leads.narrow hin ha ?_ ?_
  · intro f hf hallows
    obtain ⟨g, hg, hgallows, h1⟩ := hH f hf hallows
    have h2 := hin.keeps g hg hgallows b (hin.owns hb)
    have h3 := hlb2 _ h2
    have h4 := hub2 _ h2
    rw [keeps_removeRange_iff hin.wellFormed (hin.keeps f hf hallows a (hin.owns ha)) hlb1 hub1 hk]
    omega
  · rintro changed m' hn
    refine ⟨.narrowed hl hn, ?_⟩
    rintro rfl
    obtain rfl := hn.unchanged rfl
    intro v hv
    have hkeeps := ((hn.has_iff v).mp hv.1).keeps_of_removable hv
    rw [keeps_removeRange_iff hin.wellFormed hv.1 hlb1 hub1 hk] at hkeeps
    rcases hkeeps with h | h
    · exact ⟨ub, hub1, by omega⟩
    · exact ⟨lb, hlb1, by omega⟩

theorem runGt_spec [Tolerance] (hr : c.relation = .gt) (hw : start.model.WellFormed) (hx : start.model.owns c.x = true)
    (hy : start.model.owns c.y = true) (hp : start.passive = false) :
    Leads c.Holds start c.runGt start fun _ s' => c.Settles s' := by
  have hin : Within c.Holds start start := .refl hw
  have hH : ∀ f, c.Holds f ↔ c.constant < ((f c.x - f c.y).natAbs : Int) := fun f => by rw [Holds, hr]; rfl
  rw [runGt]
  by_cases hneg : c.constant < 0
  · rw [if_pos hneg]
    refine Leads.setPassive hin ⟨⟨?_, ?_⟩, fun _ f _ => by rw [hH]; omega⟩ <;> simp only [Supported, hr] <;> intro v _
    · obtain ⟨w, hhas⟩ := hw.exists_has hy
      exact ⟨w, hhas, by omega⟩
    · obtain ⟨w, hhas⟩ := hw.exists_has hx
      exact ⟨w, hhas, by omega⟩
  · rw [if_neg hneg]
    have hk : 0 ≤ c.constant := by omega
    refine repeatPass_leads hin hx hy
      (fun s hs => filterGt_spec hs hx hy mem_both_left hk fun f hf ha => ⟨f, hf, ha, (hH f).mp hf⟩)
      (fun s hs => filterGt_spec hs hy hx mem_both_right hk fun f hf ha =>
        ⟨f, hf, ha, by have := (hH f).mp hf; omega⟩) fun s2 hin2 hp2 hP hQ => ?_
    refine setPassiveIfEntailed_settles hin2 hx hy (hp2.trans hp) ⟨?_, ?_⟩ <;> simp only [Supported, hr]
    · exact hP
    · exact hQ

/-! ### The four comparisons -/

/-- A run leaves consistent domains. -/
theorem filter_settles [Tolerance] (hw : start.model.WellFormed) (hx : start.model.owns c.x = true)
    (hy : start.model.owns c.y = true) (hp : start.passive = false) (hfk : Value.Fits c.constant) :
    Leads c.Holds start c.filter start fun _ s => c.Settles s := by
  rw [filter]
  cases hr : c.relation with
  | eq => exact runEq_spec hr hw hx hy hp hfk
  | ne => exact runNe_spec hr hw hx hy hp
  | lt => exact runLt_spec hr hw hx hy hp
  | gt => exact runGt_spec hr hw hx hy hp

theorem filter_spec [Tolerance] (hw : start.model.WellFormed) (hx : start.model.owns c.x = true)
    (hy : start.model.owns c.y = true) (hp : start.passive = false) (hfk : Value.Fits c.constant) :
    Leads c.Holds start c.filter start fun _ s => Decided c.Holds #[c.x, c.y] s :=
  (filter_settles hw hx hy hp hfk).mono fun _ _ hin h => h.decided hin.wellFormed

end Distance

end FiniteDomain
