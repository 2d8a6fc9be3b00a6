import FiniteDomain.Domain.Mutation
import FiniteDomain.Proofs.Domain.WellFormed

/-!
# Mutations are exact

What a mutation leaves of a well-formed domain is its *target*: the values that it keeps, and all of them when
a removal would only cut into the inside of an interval.

* `Outcome`: a mutation is refused if its target is empty, and otherwise the domain becomes its target, with the
  kind of change that the bounds tell;
* `Moved`: the bounds were moved to two values of the domain, the size with them. `Moved.outcome` is what this
  comes to;
* `atLeast_moved`, `atMost_moved`: the mutations that move one bound move it to the nearest value that they keep;
* `atLeast_spec`, `atMost_spec`, `within_spec`: the mutations that move bounds.
-/

namespace FiniteDomain

/-- The kind of a change of a domain, by the bounds before and after. -/
def EventKind.ofBounds (lb ub lb' ub' : Int) : EventKind :=
  if lb' = ub' then .instantiate
  else if lb = lb' then (if ub = ub' then .remove else .decUpp)
  else (if ub = ub' then .incLow else .bounds)

namespace EventKind

variable {lb ub lb' ub' : Int}

theorem ofBounds_self (h : lb ≠ ub) : ofBounds lb ub lb ub = .remove := by
  simp only [ofBounds, if_neg h, if_true]

theorem ofBounds_lower (h : lb ≠ lb') : ofBounds lb ub lb' ub = if lb' = ub then .instantiate else .incLow := by
  simp only [ofBounds, if_neg h, if_true]

theorem ofBounds_upper (h : ub ≠ ub') : ofBounds lb ub lb ub' = if lb = ub' then .instantiate else .decUpp := by
  simp only [ofBounds, if_neg h, if_true]

/-- The kinds of two changes that move one bound each make up the kind of both. -/
theorem ofBounds_merge (hlb : lb ≠ lb') (hub : ub ≠ ub') (hfree : lb' ≠ ub) :
    (ofBounds lb ub lb' ub).merge (ofBounds lb' ub lb' ub') = ofBounds lb ub lb' ub' := by
  rw [ofBounds_lower hlb, ofBounds_upper hub, if_neg hfree]
  simp only [ofBounds, if_neg hlb, if_neg hub]
  split <;> rfl

end EventKind

namespace Update

variable {lb ub lb' ub' : Int}

/-- What is told of a move of the bounds. -/
def ofBounds (lb ub lb' ub' : Int) : Update :=
  if lb' = lb ∧ ub' = ub then .unchanged else .changed (.ofBounds lb ub lb' ub')

theorem ofBounds_self : ofBounds lb ub lb ub = .unchanged := if_pos ⟨rfl, rfl⟩

theorem ofBounds_of_ne (h : lb' ≠ lb ∨ ub' ≠ ub) : ofBounds lb ub lb' ub' = .changed (.ofBounds lb ub lb' ub') :=
  if_neg fun hc => h.elim (· hc.1) (· hc.2)

theorem ofBounds_ne_emptied : ofBounds lb ub lb' ub' ≠ .emptied := by
  rw [ofBounds]
  split <;> exact nofun

/-- A move of the lower bound, then one of the upper bound that does not cross it. -/
theorem ofBounds_merge (hle : lb' ≤ ub') (hub : ub' ≤ ub) :
    (ofBounds lb ub lb' ub).merge (ofBounds lb' ub lb' ub') = ofBounds lb ub lb' ub' := by
  by_cases hl : lb' = lb
  · subst hl
    rw [ofBounds_self]
    rfl
  by_cases hu : ub' = ub
  · subst hu
    rw [ofBounds_self, ofBounds_of_ne (.inl hl)]
    rfl
  rw [ofBounds_of_ne (.inl hl), ofBounds_of_ne (.inr hu), ofBounds_of_ne (.inl hl), merge,
    EventKind.ofBounds_merge (Ne.symm hl) (Ne.symm hu) (by omega)]

end Update

/-- The mutation takes values out of the middle. -/
def Mutation.Removes : Mutation → Prop
  | remove _ | removeRange _ _ => True
  | _ => False

namespace Domain

/-- A removal strictly inside an interval, which cannot be carried out. -/
def Spares (d : Domain) (s : Store Datum) (μ : Mutation) : Prop :=
  d.members = none ∧ μ.Removes ∧ μ.Keeps (d.lb s) ∧ μ.Keeps (d.ub s)

/-- The values that a mutation is to leave. -/
def Target (d : Domain) (s : Store Datum) (μ : Mutation) (v : Int) : Prop :=
  d.Has s v ∧ (μ.Keeps v ∨ d.Spares s μ)

/-- What a mutation may come to. -/
inductive Outcome (d : Domain) (s : Store Datum) (μ : Mutation) : Update × Store Datum → Prop
  | emptied : (∀ v, ¬d.Target s μ v) → Outcome d s μ (.emptied, s)
  | unchanged : (∀ v, d.Has s v → d.Target s μ v) → Outcome d s μ (.unchanged, s)
  | changed {t : Store Datum} : Store.Writes d.Owns s t → d.WellFormed t →
      (∀ v, d.Has t v ↔ d.Target s μ v) → (∃ v, d.Has s v ∧ ¬d.Target s μ v) →
      Outcome d s μ (.changed (.ofBounds (d.lb s) (d.ub s) (d.lb t) (d.ub t)), t)

/-! ### Targets -/

section Targets

variable {d : Domain} {s : Store Datum} {μ : Mutation} {v : Int}

theorem target_iff_of_not_spares (h : ¬d.Spares s μ) : d.Target s μ v ↔ d.Has s v ∧ μ.Keeps v := by
  rw [Target, or_iff_left h]

/-- A mutation that takes nothing out of the middle leaves what it keeps. -/
theorem target_iff_of_not_removes (h : ¬μ.Removes) : d.Target s μ v ↔ d.Has s v ∧ μ.Keeps v :=
  target_iff_of_not_spares fun hs => h hs.2.1

/-- Where holes are kept, every mutation leaves what it keeps. -/
theorem target_iff_of_members {m : Members} (hm : d.members = some m) :
    d.Target s μ v ↔ d.Has s v ∧ μ.Keeps v := by
  refine target_iff_of_not_spares ?_
  rintro ⟨hn, -⟩
  cases hn.symm.trans hm

theorem target_atLeast {w : Int} : d.Target s (.atLeast v) w ↔ d.Has s w ∧ v ≤ w := target_iff_of_not_removes id

theorem target_atMost {w : Int} : d.Target s (.atMost v) w ↔ d.Has s w ∧ w ≤ v := target_iff_of_not_removes id

/-- Two mutations that keep the same of the values come to the same, if none of them spares any. -/
theorem Outcome.congr {ν : Mutation} {r : Update × Store Datum} (h : d.Outcome s μ r) (hμ : ¬d.Spares s μ)
    (hν : ¬d.Spares s ν) (hk : ∀ v, d.Has s v → (μ.Keeps v ↔ ν.Keeps v)) : d.Outcome s ν r := by
  have ht : ∀ v, d.Target s μ v ↔ d.Target s ν v := fun v => by
    rw [target_iff_of_not_spares hμ, target_iff_of_not_spares hν]
    exact and_congr_right (hk v)
  cases h with
  | emptied hn => exact .emptied fun v hv => hn v ((ht v).mpr hv)
  | unchanged ha => exact .unchanged fun v hv => (ht v).mp (ha v hv)
  | changed hw hwf hhas hlost =>
    refine .changed hw hwf (fun v => (hhas v).trans (ht v)) ?_
    obtain ⟨v, hv, hn⟩ := hlost
    exact ⟨v, hv, fun hc => hn ((ht v).mpr hc)⟩

end Targets

/-! ### Stores that agree on a domain -/

section Agreement

variable {d : Domain} {s t : Store Datum} (h : ∀ c, d.Owns c → t.get? c = s.get? c)

include h

theorem lb_congr : d.lb t = d.lb s := by rw [lb, lb, Store.int, Store.int, h _ (.inl rfl)]

theorem ub_congr : d.ub t = d.ub s := by rw [ub, ub, Store.int, Store.int, h _ (.inr (.inl rfl))]

theorem row_congr {m : Members} (hm : d.members = some m) {j : Nat} (hj : j < m.words.length) :
    m.row t j = m.row s j := by
  rw [Members.row, Members.row, Store.word, Store.word, h _ (.inr (.inr ⟨m, hm, .inr ⟨j, hj, rfl⟩⟩))]

theorem contains_congr (v : Int) : d.contains t v = d.contains s v := by
  rw [contains, contains, lb_congr h, ub_congr h]
  split
  · rfl
  · cases hm : d.members with
    | none => rfl
    | some m =>
      cases hi : m.places.index? v with
      | none => simp only [hi]
      | some i =>
        simp only [hi, Members.has, Members.check]
        split
        · rename_i hlt
          simp only [Words.has, row_congr h hm hlt]
        · rfl

theorem extent_congr : d.extent t = d.extent s := by
  have hsize : d.size t = d.size s := by
    rw [size, size, lb_congr h, ub_congr h]
    cases hm : d.members with
    | none => rfl
    | some m =>
      have hcell : t.get? m.size = s.get? m.size := h _ (.inr (.inr ⟨m, hm, .inl rfl⟩))
      simp only [Store.int, hcell]
  rw [extent, extent, lb_congr h, ub_congr h, hsize]

theorem has_congr (v : Int) : d.Has t v ↔ d.Has s v := by rw [Has, Has, contains_congr h]

theorem target_congr {μ : Mutation} {v : Int} : d.Target t μ v ↔ d.Target s μ v := by
  rw [Target, Target, Spares, Spares, has_congr h, lb_congr h, ub_congr h]

end Agreement

namespace WellFormed

variable {d : Domain} {s t : Store Datum}

/-- A domain is well-formed in every store that agrees on its cells. -/
theorem congr (h : d.WellFormed s) (hget : ∀ c, d.Owns c → t.get? c = s.get? c)
    (hsize : s.slots.size ≤ t.slots.size) : d.WellFormed t := by
  have hlb := lb_congr hget
  have hub := ub_congr hget
  refine ⟨h.shaped, fun c hc => Nat.lt_of_lt_of_le (h.housed c hc) hsize, hlb ▸ h.fits_lb, hub ▸ h.fits_ub,
    (has_congr hget _).mpr (hlb ▸ h.has_lb), (has_congr hget _).mpr (hub ▸ h.has_ub), ?_, ?_⟩
  · intro m i j hm hi hj
    rw [hlb] at hi
    rw [hub] at hj
    have hcell : t.int m.size = s.int m.size := by
      rw [Store.int, Store.int, hget _ (.inr (.inr ⟨m, hm, .inl rfl⟩))]
    rw [hcell, h.size_eq m i j hm hi hj]
    congr 1
    refine Words.count_congr ?_
    intro k _ hk
    have hlen := Nat.lt_of_le_of_lt hk (Universe.lt_length hj)
    rw [Words.has, Words.has, row_congr hget hm ((h.shaped.members m hm).covered k hlen)]
  · intro m hm
    rw [Store.int, hget _ (.inr (.inr ⟨m, hm, .inl rfl⟩))]
    exact h.size_fits m hm

end WellFormed

/-! ### Moved bounds -/

/-- The bounds were moved to `l` and `u`, and the size with them. -/
structure Moved (d : Domain) (s t : Store Datum) (l u : Int) : Prop where
  writes : Store.Writes d.Owns s t
  idle : l = d.lb s → u = d.ub s → t = s
  lb_eq : d.lb t = l
  ub_eq : d.ub t = u
  row_eq : ∀ m, d.members = some m → ∀ j, j < m.words.length → m.row t j = m.row s j
  size_eq : ∀ m i j, d.members = some m → m.places.valueAt? i = some l → m.places.valueAt? j = some u →
    t.int m.size = Words.count (m.row s) i j

namespace Moved

variable {d : Domain} {s t t' : Store Datum} {l u : Int}

theorem refl (h : d.WellFormed s) : d.Moved s s (d.lb s) (d.ub s) :=
  ⟨.refl, fun _ _ => rfl, rfl, rfl, fun _ _ _ _ => rfl, h.size_eq⟩

/-- The members stay. -/
theorem has_row (hm : d.Moved s t l u) (h : d.WellFormed s) {m : Members} (hmem : d.members = some m) {k : Nat}
    (hk : k < m.places.length) : Words.has (m.row t) k = Words.has (m.row s) k := by
  rw [Words.has, Words.has, hm.row_eq m hmem _ ((h.shaped.members m hmem).covered k hk)]

theorem count_row (hm : d.Moved s t l u) (h : d.WellFormed s) {m : Members} (hmem : d.members = some m) {i j : Nat}
    (hj : j < m.places.length) : Words.count (m.row t) i j = Words.count (m.row s) i j :=
  Words.count_congr fun _ _ hk => hm.has_row h hmem (Nat.lt_of_le_of_lt hk hj)

/-- The lower bound moved, and then the upper one. -/
theorem trans (h : d.WellFormed s) (h1 : d.Moved s t l (d.ub s)) (h2 : d.Moved t t' l u) : d.Moved s t' l u where
  writes := h1.writes.trans h2.writes
  idle hl hu := (h2.idle h1.lb_eq.symm (hu.trans h1.ub_eq.symm)).trans (h1.idle hl rfl)
  lb_eq := h2.lb_eq
  ub_eq := h2.ub_eq
  row_eq m hm j hj := (h2.row_eq m hm j hj).trans (h1.row_eq m hm j hj)
  size_eq m i j hm hi hj := (h2.size_eq m i j hm hi hj).trans (congrArg _ (h1.count_row h hm (Universe.lt_length hj)))

variable (hm : d.Moved s t l u) (h : d.WellFormed s) (hl : d.Has s l) (hu : d.Has s u)

include hm h hl hu

theorem has_iff (v : Int) : d.Has t v ↔ d.Has s v ∧ l ≤ v ∧ v ≤ u := by
  have h1 := h.lb_le hl
  have h2 := h.le_ub hu
  rw [Domain.has_iff h.shaped, Domain.has_iff h.shaped, hm.lb_eq, hm.ub_eq]
  have hmem : (∀ m, d.members = some m → m.Has t v) ↔ ∀ m, d.members = some m → m.Has s v := by
    constructor
    · intro ht m hmem
      obtain ⟨k, hk, hb⟩ := ht m hmem
      exact ⟨k, hk, hm.has_row h hmem (Universe.lt_length hk) ▸ hb⟩
    · intro hs m hmem
      obtain ⟨k, hk, hb⟩ := hs m hmem
      exact ⟨k, hk, (hm.has_row h hmem (Universe.lt_length hk)).symm ▸ hb⟩
  rw [hmem]
  constructor
  · rintro ⟨h3, h4, h5⟩
    exact ⟨⟨by omega, by omega, h5⟩, h3, h4⟩
  · rintro ⟨⟨-, -, h5⟩, h3, h4⟩
    exact ⟨h3, h4, h5⟩

/-- There are no more values between the new bounds than there were between the old ones. -/
theorem size_fits (hle : l ≤ u) {m : Members} (hmem : d.members = some m) : Value.Fits (t.int m.size) := by
  have ho := (h.shaped.members m hmem).ordered
  obtain ⟨i, j, hi, hj, -⟩ := h.exists_places hmem
  obtain ⟨i', hi'⟩ := h.exists_place hmem hl
  obtain ⟨j', hj'⟩ := h.exists_place hmem hu
  have hsub := Words.count_le_of_subrange (m.row s) ((ho.le_iff hi hi').mp (h.lb_le hl))
    ((ho.le_iff hi' hj').mp hle) ((ho.le_iff hj' hj).mp (h.le_ub hu))
  have hold := h.size_fits m hmem
  rw [h.size_eq m i j hmem hi hj] at hold
  rw [hm.size_eq m i' j' hmem hi' hj']
  simp only [Value.Fits, Value.least, Value.greatest] at *
  omega

theorem wellFormed (hle : l ≤ u) : d.WellFormed t where
  shaped := h.shaped
  housed c hc := by
    rw [hm.writes.size_eq]
    exact h.housed c hc
  fits_lb := hm.lb_eq ▸ h.fits hl
  fits_ub := hm.ub_eq ▸ h.fits hu
  has_lb := hm.lb_eq.symm ▸ (hm.has_iff h hl hu l).mpr ⟨hl, Int.le_refl _, hle⟩
  has_ub := hm.ub_eq.symm ▸ (hm.has_iff h hl hu u).mpr ⟨hu, hle, Int.le_refl _⟩
  size_eq m i j hmem hi hj := by
    rw [hm.lb_eq] at hi
    rw [hm.ub_eq] at hj
    rw [hm.size_eq m i j hmem hi hj, hm.count_row h hmem (Universe.lt_length hj)]
  size_fits _ hmem := hm.size_fits h hl hu hle hmem

/-- What comes of a mutation that keeps the values between the new bounds. -/
theorem outcome (hle : l ≤ u) {μ : Mutation} (hμ : ∀ v, d.Target s μ v ↔ d.Has s v ∧ l ≤ v ∧ v ≤ u) :
    d.Outcome s μ (.ofBounds (d.lb s) (d.ub s) l u, t) := by
  by_cases hsame : l = d.lb s ∧ u = d.ub s
  · obtain ⟨rfl, rfl⟩ := hsame
    rw [Update.ofBounds_self, hm.idle rfl rfl]
    exact .unchanged fun v hv => (hμ v).mpr ⟨hv, h.lb_le hv, h.le_ub hv⟩
  have hne : l ≠ d.lb s ∨ u ≠ d.ub s := Decidable.not_and_iff_not_or_not.mp hsame
  have hlost : ∃ v, d.Has s v ∧ ¬d.Target s μ v := by
    rcases hne with hne | hne
    · exact ⟨d.lb s, h.has_lb, fun hc => hne (Int.le_antisymm ((hμ _).mp hc).2.1 (h.lb_le hl))⟩
    · exact ⟨d.ub s, h.has_ub, fun hc => hne (Int.le_antisymm (h.le_ub hu) ((hμ _).mp hc).2.2)⟩
  have hchanged := Outcome.changed hm.writes (hm.wellFormed h hl hu hle)
    (fun v => (hm.has_iff h hl hu v).trans (hμ v).symm) hlost
  rw [hm.lb_eq, hm.ub_eq] at hchanged
  rw [Update.ofBounds_of_ne hne]
  exact hchanged

end Moved

theorem boundKind_eq (d : Domain) (t : Store Datum) (kind : EventKind) :
    d.boundKind t kind = if d.lb t = d.ub t then .instantiate else kind := by
  simp only [boundKind, isInstantiated, beq_iff_eq]

namespace WellFormed

variable {d : Domain} {s t : Store Datum}

theorem size_lt (h : d.WellFormed s) {m : Members} (hm : d.members = some m) : m.size < s.slots.size :=
  h.housed _ (.inr (.inr ⟨m, hm, .inl rfl⟩))

theorem lower_lt (h : d.WellFormed s) : d.lower < s.slots.size := h.housed _ (.inl rfl)

theorem upper_lt (h : d.WellFormed s) : d.upper < s.slots.size := h.housed _ (.inr (.inl rfl))

/-- The size after some of the values left. -/
theorem fits_size_sub (h : d.WellFormed s) {m : Members} (hm : d.members = some m) {n : Nat}
    (hn : (n : Int) ≤ s.int m.size) : Value.Fits (s.int m.size + -(n : Int)) := by
  have := h.size_fits m hm
  simp only [Value.Fits, Value.least, Value.greatest] at *
  omega

/-- The store after the size and one bound of an enumerated domain were written. -/
theorem resize (h : d.WellFormed s) {m : Members} (hm : d.members = some m) (x w : Int) {cell : Nat}
    (hs : m.size ≠ cell) (hc : ∀ j, j < m.words.length → m.words.cell j ≠ cell) (ho : d.Owns cell) :
    Store.Writes d.Owns s ((s.set m.size (.int x)).set cell (.int w)) ∧
      ((s.set m.size (.int x)).set cell (.int w)).int m.size = x ∧
        ∀ m', d.members = some m' → ∀ j, j < m'.words.length →
          m'.row ((s.set m.size (.int x)).set cell (.int w)) j = m'.row s j := by
  refine ⟨.set _ _ (.one (.inr (.inr ⟨m, hm, .inl rfl⟩)) _) ho, ?_, ?_⟩
  · rw [Store.int_set_of_ne _ hs.symm, Store.int_set_self _ (h.size_lt hm)]
  · intro m' hm' j hj
    cases hm.symm.trans hm'
    rw [Members.row, Members.row, Store.word_set_of_ne _ (hc j hj).symm,
      Store.word_set_of_ne _ ((h.shaped.members m hm).word_ne j hj).2.2.symm]

/-- The store in which one bound of an interval was written. -/
theorem moved_lower_of_bounded (h : d.WellFormed s) (hm : d.members = none) {w : Int} (hw : w ≠ d.lb s) :
    d.Moved s (s.set d.lower (.int w)) w (d.ub s) where
  writes := .one (.inl rfl) _
  idle hl := absurd hl hw
  lb_eq := Store.int_set_self s h.lower_lt w
  ub_eq := Store.int_set_of_ne s h.shaped.lower_ne_upper _
  row_eq m hm' := by cases hm.symm.trans hm'
  size_eq m i j hm' := by cases hm.symm.trans hm'

theorem moved_upper_of_bounded (h : d.WellFormed s) (hm : d.members = none) {w : Int} (hw : w ≠ d.ub s) :
    d.Moved s (s.set d.upper (.int w)) (d.lb s) w where
  writes := .one (.inr (.inl rfl)) _
  idle _ hu := absurd hu hw
  lb_eq := Store.int_set_of_ne s h.shaped.lower_ne_upper.symm _
  ub_eq := Store.int_set_self s h.upper_lt w
  row_eq m hm' := by cases hm.symm.trans hm'
  size_eq m i j hm' := by cases hm.symm.trans hm'

theorem moved_lower (h : d.WellFormed s) {m : Members} (hm : d.members = some m) {w : Int} (hw : w ≠ d.lb s)
    {k j : Nat} (hk : m.places.valueAt? k = some w) (hj : m.places.valueAt? j = some (d.ub s)) :
    d.Moved s ((s.set m.size (.int (Words.count (m.row s) k j))).set d.lower (.int w)) w (d.ub s) := by
  have hms := h.shaped.members m hm
  obtain ⟨hwt, hsize, hrow⟩ := h.resize hm (Words.count (m.row s) k j) w hms.size_ne.1
    (fun j hj => (hms.word_ne j hj).1) (.inl rfl)
  refine ⟨hwt, fun hl => absurd hl hw, ?_, ?_, hrow, ?_⟩
  · exact Store.int_set_self _ (by rw [Store.size_slots_set]; exact h.lower_lt) w
  · rw [ub, Store.int_set_of_ne _ h.shaped.lower_ne_upper, Store.int_set_of_ne _ hms.size_ne.2]
    rfl
  · intro m' i' j' hm' hi' hj'
    cases hm.symm.trans hm'
    rw [hsize, hms.ordered.place_unique hi' hk, hms.ordered.place_unique hj' hj]

theorem moved_upper (h : d.WellFormed s) {m : Members} (hm : d.members = some m) {w : Int} (hw : w ≠ d.ub s)
    {i k : Nat} (hi : m.places.valueAt? i = some (d.lb s)) (hk : m.places.valueAt? k = some w) :
    d.Moved s ((s.set m.size (.int (Words.count (m.row s) i k))).set d.upper (.int w)) (d.lb s) w := by
  have hms := h.shaped.members m hm
  obtain ⟨hwt, hsize, hrow⟩ := h.resize hm (Words.count (m.row s) i k) w hms.size_ne.2
    (fun j hj => (hms.word_ne j hj).2.1) (.inr (.inl rfl))
  refine ⟨hwt, fun _ hu => absurd hu hw, ?_, ?_, hrow, ?_⟩
  · rw [lb, Store.int_set_of_ne _ h.shaped.lower_ne_upper.symm, Store.int_set_of_ne _ hms.size_ne.1]
    rfl
  · exact Store.int_set_self _ (by rw [Store.size_slots_set]; exact h.upper_lt) w
  · intro m' i' j' hm' hi' hj'
    cases hm.symm.trans hm'
    rw [hsize, hms.ordered.place_unique hi' hi, hms.ordered.place_unique hj' hk]

/-! ### Moving one bound -/

theorem exists_leastFrom (h : d.WellFormed s) (v : Int) : ∃ r, LeastOf (fun w => d.Has s w ∧ v ≤ w) r := by
  by_cases h1 : v ≤ d.lb s
  · exact ⟨some (d.lb s), ⟨h.has_lb, h1⟩, fun w hw => h.lb_le hw.1⟩
  by_cases h2 : d.ub s < v
  · refine ⟨none, fun w hw => ?_⟩
    have := h.le_ub hw.1
    omega
  obtain ⟨r, -, hr⟩ := h.nextFrom?_spec (v := v) fun _ => h.fits_lb.of_between h.fits_ub (by omega) (by omega)
  exact ⟨r, hr⟩

theorem exists_greatestUpTo (h : d.WellFormed s) (v : Int) : ∃ r, GreatestOf (fun w => d.Has s w ∧ w ≤ v) r := by
  by_cases h1 : d.ub s ≤ v
  · exact ⟨some (d.ub s), ⟨h.has_ub, h1⟩, fun w hw => h.le_ub hw.1⟩
  by_cases h2 : v < d.lb s
  · refine ⟨none, fun w hw => ?_⟩
    have := h.lb_le hw.1
    omega
  obtain ⟨r, -, hr⟩ := h.previousFrom?_spec (v := v) fun _ => h.fits_lb.of_between h.fits_ub (by omega) (by omega)
  exact ⟨r, hr⟩

/-- The lower bound is raised to the first value from `v` on, which may be where it is. -/
theorem atLeast_moved (h : d.WellFormed s) {v w : Int} (hleast : LeastOf (fun u => d.Has s u ∧ v ≤ u) (some w)) :
    ∃ t, d.atLeast s v = .ok (.ofBounds (d.lb s) (d.ub s) w (d.ub s), t) ∧ d.Moved s t w (d.ub s) := by
  have ⟨⟨hw, hvw⟩, hmin⟩ := hleast
  have hwu := h.le_ub hw
  by_cases h1 : v ≤ d.lb s
  · obtain rfl : w = d.lb s := Int.le_antisymm (hmin _ ⟨h.has_lb, h1⟩) (h.lb_le hw)
    exact ⟨s, by simp [atLeast, h1, Update.ofBounds_self], .refl h⟩
  have h2 : ¬d.ub s < v := by omega
  have hne : w ≠ d.lb s := by omega
  have hkind : ∀ t, d.Moved s t w (d.ub s) →
      Update.changed (d.boundKind t .incLow) = .ofBounds (d.lb s) (d.ub s) w (d.ub s) := by
    intro t ht
    rw [boundKind_eq, ht.lb_eq, ht.ub_eq, Update.ofBounds_of_ne (.inl hne), EventKind.ofBounds_lower hne.symm]
  cases hm : d.members with
  | none =>
    obtain rfl : w = v := Int.le_antisymm (hmin v ⟨h.has_of_bounded hm (by omega) (by omega), Int.le_refl v⟩) hvw
    have ht := h.moved_lower_of_bounded hm hne
    exact ⟨_, by simp [atLeast, h1, h2, hm, hkind _ ht], ht⟩
  | some m =>
    have hms := h.shaped.members m hm
    obtain ⟨r, hr, hr'⟩ := h.nextFrom?_spec (v := v) (fun hn => by cases hn.symm.trans hm)
    obtain rfl := hr'.unique hleast
    obtain ⟨i, j, hi, hj, hij⟩ := h.exists_places hm
    obtain ⟨k, hk⟩ := h.exists_place hm hw
    have hik : i < k := (hms.ordered.lt_iff hi hk).mp (by omega)
    have hkj : k ≤ j := (hms.ordered.le_iff hk hj).mp hwu
    -- the values that go are those from the place of the bound to the place before that of `w`
    have hsplit := Words.count_split (m.row s) hik (j := j) (by omega)
    have hsize := h.size_eq m i j hm hi hj
    have hadd := Store.add_of_fits s m.size (h.fits_size_sub hm (n := Words.count (m.row s) i (k - 1)) (by omega))
    have hplace : placeBefore k = .ok (k - 1) := by
      cases k with
      | zero => omega
      | succ k => rfl
    have hcheck : (k - 1) / Word.width < m.words.length :=
      hms.covered _ (by have := Universe.lt_length hk; omega)
    have hleft : s.int m.size + -(Words.count (m.row s) i (k - 1) : Int) = Words.count (m.row s) k j := by omega
    have ht := h.moved_lower hm hne hk hj
    refine ⟨_, ?_, ht⟩
    simp only [atLeast, if_neg h1, if_neg h2, hm, hr, hms.ordered.place_eq_ok hi, hms.ordered.place_eq_ok hk, ok_bind,
      hplace, Members.count, Members.check, if_neg (show ¬k - 1 < i by omega), if_pos hcheck, pure_eq_ok, hadd, hleft,
      hkind _ ht]

/-- A domain without a value from `v` on stays as it is. -/
theorem atLeast_emptied (h : d.WellFormed s) {v : Int} (hnone : LeastOf (fun u => d.Has s u ∧ v ≤ u) none) :
    d.atLeast s v = .ok (.emptied, s) := by
  have h1 : ¬v ≤ d.lb s := fun hc => hnone _ ⟨h.has_lb, hc⟩
  by_cases h2 : d.ub s < v
  · simp [atLeast, h1, h2]
  cases hm : d.members with
  | none => exact absurd ⟨h.has_of_bounded hm (by omega) (by omega), Int.le_refl v⟩ (hnone v)
  | some m =>
    obtain ⟨r, hr, hr'⟩ := h.nextFrom?_spec (v := v) (fun hn => by cases hn.symm.trans hm)
    obtain rfl := hr'.unique hnone
    simp [atLeast, h1, h2, hm, hr]

theorem atLeast_spec (h : d.WellFormed s) (v : Int) :
    ∃ r, d.atLeast s v = .ok r ∧ d.Outcome s (.atLeast v) r := by
  obtain ⟨r, hleast⟩ := h.exists_leastFrom v
  cases r with
  | none => exact ⟨_, h.atLeast_emptied hleast, .emptied fun w hw => hleast w (target_atLeast.mp hw)⟩
  | some w =>
    obtain ⟨t, hrun, ht⟩ := h.atLeast_moved hleast
    obtain ⟨⟨hw, hvw⟩, hmin⟩ := hleast
    refine ⟨_, hrun, ht.outcome h hw h.has_ub (h.le_ub hw) fun u => ?_⟩
    rw [target_atLeast]
    constructor
    · rintro ⟨hu, hvu⟩
      exact ⟨hu, hmin u ⟨hu, hvu⟩, h.le_ub hu⟩
    · rintro ⟨hu, hwu, -⟩
      exact ⟨hu, Int.le_trans hvw hwu⟩

/-- The upper bound is lowered to the last value up to `v`, which may be where it is. -/
theorem atMost_moved (h : d.WellFormed s) {v w : Int} (hgreatest : GreatestOf (fun u => d.Has s u ∧ u ≤ v) (some w)) :
    ∃ t, d.atMost s v = .ok (.ofBounds (d.lb s) (d.ub s) (d.lb s) w, t) ∧ d.Moved s t (d.lb s) w := by
  have ⟨⟨hw, hwv⟩, hmax⟩ := hgreatest
  have hlw := h.lb_le hw
  by_cases h1 : d.ub s ≤ v
  · obtain rfl : w = d.ub s := Int.le_antisymm (h.le_ub hw) (hmax _ ⟨h.has_ub, h1⟩)
    exact ⟨s, by simp [atMost, h1, Update.ofBounds_self], .refl h⟩
  have h2 : ¬v < d.lb s := by omega
  have hne : w ≠ d.ub s := by omega
  have hkind : ∀ t, d.Moved s t (d.lb s) w →
      Update.changed (d.boundKind t .decUpp) = .ofBounds (d.lb s) (d.ub s) (d.lb s) w := by
    intro t ht
    rw [boundKind_eq, ht.lb_eq, ht.ub_eq, Update.ofBounds_of_ne (.inr hne), EventKind.ofBounds_upper hne.symm]
  cases hm : d.members with
  | none =>
    obtain rfl : w = v := Int.le_antisymm hwv (hmax v ⟨h.has_of_bounded hm (by omega) (by omega), Int.le_refl v⟩)
    have ht := h.moved_upper_of_bounded hm hne
    exact ⟨_, by simp [atMost, h1, h2, hm, hkind _ ht], ht⟩
  | some m =>
    have hms := h.shaped.members m hm
    obtain ⟨r, hr, hr'⟩ := h.previousFrom?_spec (v := v) (fun hn => by cases hn.symm.trans hm)
    obtain rfl := hr'.unique hgreatest
    obtain ⟨i, j, hi, hj, hij⟩ := h.exists_places hm
    obtain ⟨k, hk⟩ := h.exists_place hm hw
    have hik : i ≤ k := (hms.ordered.le_iff hi hk).mp hlw
    have hkj : k < j := (hms.ordered.lt_iff hk hj).mp (by omega)
    -- the values that go are those from the place after that of `w` to the place of the bound
    have hsplit := Words.count_split (m.row s) (i := i) (j := j) (k := k + 1) (by omega) (by omega)
    rw [Nat.add_sub_cancel] at hsplit
    have hsize := h.size_eq m i j hm hi hj
    have hadd := Store.add_of_fits s m.size (h.fits_size_sub hm (n := Words.count (m.row s) (k + 1) j) (by omega))
    have hcheck : j / Word.width < m.words.length := hms.covered _ (Universe.lt_length hj)
    have hleft : s.int m.size + -(Words.count (m.row s) (k + 1) j : Int) = Words.count (m.row s) i k := by omega
    have ht := h.moved_upper hm hne hi hk
    refine ⟨_, ?_, ht⟩
    simp only [atMost, if_neg h1, if_neg h2, hm, hr, hms.ordered.place_eq_ok hj, hms.ordered.place_eq_ok hk, ok_bind,
      Members.count, Members.check, if_neg (show ¬j < k + 1 by omega), if_pos hcheck, pure_eq_ok, hadd, hleft,
      hkind _ ht]

/-- A domain without a value up to `v` stays as it is. -/
theorem atMost_emptied (h : d.WellFormed s) {v : Int} (hnone : GreatestOf (fun u => d.Has s u ∧ u ≤ v) none) :
    d.atMost s v = .ok (.emptied, s) := by
  have h1 : ¬d.ub s ≤ v := fun hc => hnone _ ⟨h.has_ub, hc⟩
  by_cases h2 : v < d.lb s
  · simp [atMost, h1, h2]
  cases hm : d.members with
  | none => exact absurd ⟨h.has_of_bounded hm (by omega) (by omega), Int.le_refl v⟩ (hnone v)
  | some m =>
    obtain ⟨r, hr, hr'⟩ := h.previousFrom?_spec (v := v) (fun hn => by cases hn.symm.trans hm)
    obtain rfl := hr'.unique hnone
    simp [atMost, h1, h2, hm, hr]

theorem atMost_spec (h : d.WellFormed s) (v : Int) :
    ∃ r, d.atMost s v = .ok r ∧ d.Outcome s (.atMost v) r := by
  obtain ⟨r, hgreatest⟩ := h.exists_greatestUpTo v
  cases r with
  | none => exact ⟨_, h.atMost_emptied hgreatest, .emptied fun w hw => hgreatest w (target_atMost.mp hw)⟩
  | some w =>
    obtain ⟨t, hrun, ht⟩ := h.atMost_moved hgreatest
    obtain ⟨⟨hw, hwv⟩, hmax⟩ := hgreatest
    refine ⟨_, hrun, ht.outcome h h.has_lb hw (h.lb_le hw) fun u => ?_⟩
    rw [target_atMost]
    constructor
    · rintro ⟨hu, huv⟩
      exact ⟨hu, h.lb_le hu, hmax u ⟨hu, huv⟩⟩
    · rintro ⟨hu, -, huw⟩
      exact ⟨hu, Int.le_trans huw hwv⟩

/-! ### Moving both bounds -/

theorem meets_spec (h : d.WellFormed s) (low high : Int) :
    ∃ b, d.meets s low high = .ok b ∧ (b = true ↔ ∃ v, d.Has s v ∧ low ≤ v ∧ v ≤ high) := by
  rw [meets]
  by_cases hout : high < low ∨ d.ub s < low ∨ high < d.lb s
  · refine ⟨false, by simp [hout], ?_⟩
    constructor
    · intro hf
      cases hf
    · rintro ⟨v, hv, h1, h2⟩
      have := h.lb_le hv
      have := h.le_ub hv
      omega
  · have hlu := h.lb_le_ub
    cases hm : d.members with
    | none =>
      refine ⟨true, by simp [hout, isEnumerated, hm], ?_⟩
      simp only [true_iff]
      exact ⟨max low (d.lb s), h.has_of_bounded hm (by omega) (by omega), by omega, by omega⟩
    | some m =>
      obtain ⟨r, hr, hleast⟩ := h.nextFrom?_spec (v := low) (fun hn => by rw [hm] at hn; cases hn)
      cases r with
      | none =>
        refine ⟨false, by simp [hout, isEnumerated, hm, hr], ?_⟩
        constructor
        · intro hf
          cases hf
        · rintro ⟨v, hv, h1, h2⟩
          exact absurd ⟨hv, h1⟩ (hleast v)
      | some w =>
        refine ⟨decide (w ≤ high), by simp [hout, isEnumerated, hm, hr], ?_⟩
        rw [decide_eq_true_eq]
        constructor
        · exact fun hw => ⟨w, hleast.1.1, hleast.1.2, hw⟩
        · rintro ⟨v, hv, h1, h2⟩
          exact Int.le_trans (hleast.2 v ⟨hv, h1⟩) h2

/-- Two moves that leave a value each, one after the other. -/
theorem within_eq {low high : Int} {a b : Update} {t' : Store Datum} (hmeets : d.meets s low high = .ok true)
    (h1 : d.atLeast s low = .ok (a, t)) (ha : a ≠ .emptied) (h2 : d.atMost t high = .ok (b, t')) (hb : b ≠ .emptied) :
    d.within s low high = .ok (a.merge b, t') := by
  simp only [within, hmeets, h1, ok_bind, if_true]
  cases a with
  | emptied => exact absurd rfl ha
  | unchanged | changed _ =>
    simp only [h2, ok_bind]
    cases b with
    | emptied => exact absurd rfl hb
    | unchanged | changed _ => rfl

theorem within_spec (h : d.WellFormed s) (low high : Int) :
    ∃ r, d.within s low high = .ok r ∧ d.Outcome s (.within low high) r := by
  have htarget : ∀ w, d.Target s (.within low high) w ↔ d.Has s w ∧ low ≤ w ∧ w ≤ high := fun w =>
    target_iff_of_not_removes id
  obtain ⟨b, hb, hmeets⟩ := h.meets_spec low high
  cases b with
  | false =>
    refine ⟨(.emptied, s), by simp [within, hb], .emptied fun w hw => ?_⟩
    exact Bool.false_ne_true (hmeets.mpr ⟨w, (htarget w).mp hw⟩)
  | true =>
    obtain ⟨v, hv, hlow, hhigh⟩ := hmeets.mp rfl
    -- the value `v` within the limits keeps each of the two moves from emptying the domain
    obtain ⟨r, hleast⟩ := h.exists_leastFrom low
    obtain ⟨l, rfl⟩ := hleast.exists_eq_some ⟨hv, hlow⟩
    obtain ⟨t, hrun, ht⟩ := h.atLeast_moved hleast
    obtain ⟨⟨hl, hlow'⟩, hmin⟩ := hleast
    have hwf := ht.wellFormed h hl h.has_ub (h.le_ub hl)
    have hhas := ht.has_iff h hl h.has_ub
    have hvt : d.Has t v := (hhas v).mpr ⟨hv, hmin v ⟨hv, hlow⟩, h.le_ub hv⟩
    obtain ⟨r, hgreatest⟩ := hwf.exists_greatestUpTo high
    obtain ⟨u, rfl⟩ := hgreatest.exists_eq_some ⟨hvt, hhigh⟩
    obtain ⟨t', hrun', ht'⟩ := hwf.atMost_moved hgreatest
    obtain ⟨⟨hu, hhigh'⟩, hmax⟩ := hgreatest
    rw [ht.lb_eq, ht.ub_eq] at hrun'
    rw [ht.lb_eq] at ht'
    obtain ⟨hus, hlu, huu⟩ := (hhas u).mp hu
    refine ⟨_, within_eq hb hrun Update.ofBounds_ne_emptied hrun' Update.ofBounds_ne_emptied, ?_⟩
    rw [Update.ofBounds_merge hlu huu]
    refine (ht.trans h ht').outcome h hl hus hlu fun w => ?_
    rw [htarget]
    constructor
    · rintro ⟨hw, h1, h2⟩
      have hlw := hmin w ⟨hw, h1⟩
      exact ⟨hw, hlw, hmax w ⟨(hhas w).mpr ⟨hw, hlw, h.le_ub hw⟩, h2⟩⟩
    · rintro ⟨hw, h1, h2⟩
      exact ⟨hw, Int.le_trans hlow' h1, Int.le_trans h2 hhigh'⟩

end WellFormed

end Domain

end FiniteDomain
