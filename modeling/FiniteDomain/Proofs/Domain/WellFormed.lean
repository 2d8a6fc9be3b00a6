import FiniteDomain.Domain.Basic
import FiniteDomain.Proofs.Domain.Universe
import FiniteDomain.Proofs.Domain.Words
import FiniteDomain.Proofs.Store.Writes

/-!
# Well-formed domains

A domain is *well-formed* in a store if it contains its two bounds and, where holes are kept, its size is the
number of values it contains. The queries of a well-formed domain never fault and are exact:

* `has_iff`: what it contains;
* `next?_spec`, `previous?_spec`, `nextFrom?_spec`, `previousFrom?_spec`: the nearest value it contains;
* `values_spec`: all values, in increasing order.
-/

namespace FiniteDomain

theorem Value.Fits.of_between {a b v : Int} (ha : Fits a) (hb : Fits b) (h1 : a ≤ v) (h2 : v ≤ b) : Fits v :=
  ⟨Int.le_trans ha.1 h1, Int.le_trans h2 hb.2⟩

theorem successor_eq_ok {v : Int} (h : Value.Fits (v + 1)) : successor v = .ok (v + 1) := by
  simp only [successor, Value.ofInt?, if_pos h]

theorem predecessor_eq_ok {v : Int} (h : Value.Fits (v - 1)) : predecessor v = .ok (v - 1) := by
  simp only [predecessor, Value.ofInt?, if_pos h]

/-- The least integer with a property, if there is any. -/
def LeastOf (p : Int → Prop) : Option Int → Prop
  | some w => p w ∧ ∀ u, p u → w ≤ u
  | none => ∀ u, ¬p u

/-- The greatest integer with a property, if there is any. -/
def GreatestOf (p : Int → Prop) : Option Int → Prop
  | some w => p w ∧ ∀ u, p u → u ≤ w
  | none => ∀ u, ¬p u

theorem LeastOf.unique {p : Int → Prop} {r r' : Option Int} (h : LeastOf p r) (h' : LeastOf p r') : r = r' := by
  cases r with
  | none =>
    cases r' with
    | none => rfl
    | some w => exact absurd h'.1 (h w)
  | some v =>
    cases r' with
    | none => exact absurd h.1 (h' v)
    | some w => exact congrArg some (Int.le_antisymm (h.2 w h'.1) (h'.2 v h.1))

theorem LeastOf.congr {p q : Int → Prop} {r : Option Int} (h : LeastOf p r) (hpq : ∀ w, p w ↔ q w) : LeastOf q r :=
  funext (fun w => propext (hpq w)) ▸ h

theorem LeastOf.exists_eq_some {p : Int → Prop} {r : Option Int} {v : Int} (h : LeastOf p r) (hv : p v) :
    ∃ w, r = some w := by
  cases r with
  | none => exact absurd hv (h v)
  | some w => exact ⟨w, rfl⟩

theorem GreatestOf.unique {p : Int → Prop} {r r' : Option Int} (h : GreatestOf p r) (h' : GreatestOf p r') : r = r' := by
  cases r with
  | none =>
    cases r' with
    | none => rfl
    | some w => exact absurd h'.1 (h w)
  | some v =>
    cases r' with
    | none => exact absurd h.1 (h' v)
    | some w => exact congrArg some (Int.le_antisymm (h'.2 v h.1) (h.2 w h'.1))

theorem GreatestOf.congr {p q : Int → Prop} {r : Option Int} (h : GreatestOf p r) (hpq : ∀ w, p w ↔ q w) :
    GreatestOf q r := funext (fun w => propext (hpq w)) ▸ h

theorem GreatestOf.exists_eq_some {p : Int → Prop} {r : Option Int} {v : Int} (h : GreatestOf p r) (hv : p v) :
    ∃ w, r = some w := by
  cases r with
  | none => exact absurd hv (h v)
  | some w => exact ⟨w, rfl⟩

namespace Members

/-- The value stands at a place that is left. -/
def Has (m : Members) (s : Store Datum) (v : Int) : Prop :=
  ∃ i, m.places.valueAt? i = some v ∧ Words.has (m.row s) i = true

/-- The places are ordered and have their words, and the cells of the domain differ. -/
structure Shaped (m : Members) (lower upper : Nat) : Prop where
  ordered : m.places.Ordered
  covered : ∀ i, i < m.places.length → i / Word.width < m.words.length
  size_ne : m.size ≠ lower ∧ m.size ≠ upper
  word_ne : ∀ j, j < m.words.length → m.words.cell j ≠ lower ∧ m.words.cell j ≠ upper ∧ m.words.cell j ≠ m.size

variable {m : Members} {lower upper : Nat}

theorem has_eq (h : m.Shaped lower upper) (s : Store Datum) {i : Nat} (hi : i < m.places.length) :
    m.has s i = .ok (Words.has (m.row s) i) := by
  rw [has, check, if_pos (h.covered i hi)]
  rfl

/-- The value stands at a place that is left, from one place to another. -/
def HasBetween (m : Members) (s : Store Datum) (start limit : Nat) (v : Int) : Prop :=
  ∃ k, m.places.valueAt? k = some v ∧ start ≤ k ∧ k ≤ limit ∧ Words.has (m.row s) k = true

theorem next?_spec (h : m.Shaped lower upper) (s : Store Datum) (start : Nat) {limit : Nat}
    (hlimit : limit < m.places.length) :
    ∃ r, m.next? s start limit = .ok r ∧ LeastOf (m.HasBetween s start limit) r := by
  by_cases hlim : limit < start
  · refine ⟨none, by simp [next?, hlim], ?_⟩
    rintro u ⟨k, -, h1, h2, -⟩
    omega
  simp only [next?, if_neg hlim, check, if_pos (h.covered limit hlimit), ok_bind]
  cases hn : Words.next? (m.row s) start limit with
  | none =>
    refine ⟨none, rfl, ?_⟩
    rintro u ⟨k, -, h1, h2, hb⟩
    rw [Words.next?_eq_none hn k h1 h2] at hb
    cases hb
  | some k =>
    obtain ⟨h1, h2, hb, hmin⟩ := Words.next?_eq_some hn
    obtain ⟨w, hw⟩ := Universe.exists_valueAt (Nat.lt_of_le_of_lt h2 hlimit)
    refine ⟨some w, by simp [h.ordered.value_eq_ok hw], ⟨k, hw, h1, h2, hb⟩, ?_⟩
    rintro u ⟨k', hk', h1', h2', hb'⟩
    refine (h.ordered.le_iff hw hk').mpr (Nat.le_of_not_lt fun hlt => ?_)
    rw [hmin k' h1' hlt] at hb'
    cases hb'

theorem previous?_spec (h : m.Shaped lower upper) (s : Store Datum) {start : Nat} (limit : Nat)
    (hstart : start < m.places.length) :
    ∃ r, m.previous? s start limit = .ok r ∧ GreatestOf (m.HasBetween s limit start) r := by
  by_cases hlim : start < limit
  · refine ⟨none, by simp [previous?, hlim], ?_⟩
    rintro u ⟨k, -, h1, h2, -⟩
    omega
  simp only [previous?, if_neg hlim, check, if_pos (h.covered start hstart), ok_bind]
  cases hn : Words.previous? (m.row s) start limit with
  | none =>
    refine ⟨none, rfl, ?_⟩
    rintro u ⟨k, -, h1, h2, hb⟩
    rw [Words.previous?_eq_none hn k h1 h2] at hb
    cases hb
  | some k =>
    obtain ⟨h1, h2, hb, hmax⟩ := Words.previous?_eq_some hn
    obtain ⟨w, hw⟩ := Universe.exists_valueAt (Nat.lt_of_le_of_lt h2 hstart)
    refine ⟨some w, by simp [h.ordered.value_eq_ok hw], ⟨k, hw, h1, h2, hb⟩, ?_⟩
    rintro u ⟨k', hk', h1', h2', hb'⟩
    refine (h.ordered.le_iff hk' hw).mpr (Nat.le_of_not_lt fun hlt => ?_)
    rw [hmax k' hlt h2'] at hb'
    cases hb'

end Members

namespace Domain

/-- The cell is one of those that the domain lives in. -/
def Owns (d : Domain) (c : Nat) : Prop :=
  c = d.lower ∨ c = d.upper ∨
    ∃ m, d.members = some m ∧ (c = m.size ∨ ∃ j, j < m.words.length ∧ c = m.words.cell j)

/-- The domain contains the value. -/
def Has (d : Domain) (s : Store Datum) (v : Int) : Prop := d.contains s v = .ok true

theorem Has.within {d : Domain} {s : Store Datum} {v : Int} (h : d.Has s v) : d.lb s ≤ v ∧ v ≤ d.ub s := by
  rw [Has, contains] at h
  split at h
  · cases h
  · omega

structure Shaped (d : Domain) : Prop where
  lower_ne_upper : d.lower ≠ d.upper
  members : ∀ m, d.members = some m → m.Shaped d.lower d.upper

structure WellFormed (d : Domain) (s : Store Datum) : Prop where
  shaped : d.Shaped
  housed : ∀ c, d.Owns c → c < s.slots.size
  fits_lb : Value.Fits (d.lb s)
  fits_ub : Value.Fits (d.ub s)
  has_lb : d.Has s (d.lb s)
  has_ub : d.Has s (d.ub s)
  size_eq : ∀ m i j, d.members = some m → m.places.valueAt? i = some (d.lb s) →
    m.places.valueAt? j = some (d.ub s) → s.int m.size = Words.count (m.row s) i j
  size_fits : ∀ m, d.members = some m → Value.Fits (s.int m.size)

/-! ### Membership -/

/-- The test of membership gives an answer. -/
theorem exists_contains {d : Domain} (h : d.Shaped) (s : Store Datum) (v : Int) :
    ∃ b, d.contains s v = .ok b := by
  rw [contains]
  split
  · exact ⟨_, rfl⟩
  · cases hm : d.members with
    | none => exact ⟨_, rfl⟩
    | some m =>
      have hms := h.members m hm
      cases hi : m.places.index? v with
      | none => exact ⟨false, by simp only [hi]⟩
      | some i =>
        have hlt := Universe.lt_length (hms.ordered.index?_eq_some_iff.mp hi)
        exact ⟨_, by simp only [hi]; exact Members.has_eq hms s hlt⟩

theorem has_iff {d : Domain} (h : d.Shaped) (s : Store Datum) (v : Int) :
    d.Has s v ↔ d.lb s ≤ v ∧ v ≤ d.ub s ∧ ∀ m, d.members = some m → m.Has s v := by
  rw [Has, contains]
  split
  · rename_i hout
    constructor
    · intro hf
      cases hf
    · intro hin
      omega
  · rename_i hin
    have h1 : d.lb s ≤ v := by omega
    have h2 : v ≤ d.ub s := by omega
    cases hm : d.members with
    | none => simp [h1, h2]
    | some m =>
      have hms := h.members m hm
      have hrhs : (d.lb s ≤ v ∧ v ≤ d.ub s ∧ ∀ m', some m = some m' → m'.Has s v) ↔ m.Has s v := by
        simp [h1, h2]
      rw [hrhs]
      cases hi : m.places.index? v with
      | none =>
        constructor
        · intro hf
          simp [hi] at hf
        · rintro ⟨i, he, -⟩
          rw [hms.ordered.index?_eq_some_iff.mpr he] at hi
          cases hi
      | some i =>
        have he := hms.ordered.index?_eq_some_iff.mp hi
        simp only [hi, Members.has_eq hms s (Universe.lt_length he)]
        constructor
        · intro hf
          exact ⟨i, he, Except.ok.inj hf⟩
        · rintro ⟨i', he', hb⟩
          rw [hms.ordered.place_unique he he', hb]

theorem contains_eq_true {d : Domain} {s : Store Datum} {v : Int} (h : d.Has s v) : d.contains s v = .ok true := h

theorem contains_eq_false {d : Domain} (h : d.Shaped) {s : Store Datum} {v : Int} (hv : ¬d.Has s v) :
    d.contains s v = .ok false := by
  obtain ⟨b, hb⟩ := exists_contains h s v
  cases b with
  | false => exact hb
  | true => exact absurd hb hv

namespace WellFormed

variable {d : Domain} {s : Store Datum} (h : d.WellFormed s)

include h

theorem lb_le {v : Int} (hv : d.Has s v) : d.lb s ≤ v := ((has_iff h.shaped s v).mp hv).1

theorem le_ub {v : Int} (hv : d.Has s v) : v ≤ d.ub s := ((has_iff h.shaped s v).mp hv).2.1

theorem lb_le_ub : d.lb s ≤ d.ub s := h.le_ub h.has_lb

theorem fits {v : Int} (hv : d.Has s v) : Value.Fits v :=
  h.fits_lb.of_between h.fits_ub (h.lb_le hv) (h.le_ub hv)

/-- A fixed domain contains one value. -/
theorem has_iff_of_fixed (hf : d.lb s = d.ub s) {v : Int} : d.Has s v ↔ v = d.lb s := by
  constructor
  · intro hv
    have h1 := h.lb_le hv
    have h2 := h.le_ub hv
    omega
  · rintro rfl
    exact h.has_lb

theorem has_of_bounded (hm : d.members = none) {v : Int} (h1 : d.lb s ≤ v) (h2 : v ≤ d.ub s) : d.Has s v := by
  rw [has_iff h.shaped]
  exact ⟨h1, h2, fun m hm' => by rw [hm] at hm'; cases hm'⟩

/-- The places of the bounds. -/
theorem exists_places {m : Members} (hm : d.members = some m) :
    ∃ i j, m.places.valueAt? i = some (d.lb s) ∧ m.places.valueAt? j = some (d.ub s) ∧ i ≤ j := by
  obtain ⟨-, -, hl⟩ := (has_iff h.shaped s _).mp h.has_lb
  obtain ⟨-, -, hu⟩ := (has_iff h.shaped s _).mp h.has_ub
  obtain ⟨i, hi, -⟩ := hl m hm
  obtain ⟨j, hj, -⟩ := hu m hm
  exact ⟨i, j, hi, hj, ((h.shaped.members m hm).ordered.le_iff hi hj).mp h.lb_le_ub⟩

/-- A value of the domain stands at a place that is left, between those of the bounds. -/
theorem has_iff_of_members {m : Members} (hm : d.members = some m) {i j k : Nat} {v : Int}
    (hi : m.places.valueAt? i = some (d.lb s)) (hj : m.places.valueAt? j = some (d.ub s))
    (hk : m.places.valueAt? k = some v) : d.Has s v ↔ i ≤ k ∧ k ≤ j ∧ Words.has (m.row s) k = true := by
  have ho := (h.shaped.members m hm).ordered
  rw [has_iff h.shaped, ho.le_iff hi hk, ho.le_iff hk hj]
  constructor
  · rintro ⟨h1, h2, h3⟩
    obtain ⟨k', hk', hb⟩ := h3 m hm
    rw [ho.place_unique hk hk']
    exact ⟨ho.place_unique hk hk' ▸ h1, ho.place_unique hk hk' ▸ h2, hb⟩
  · rintro ⟨h1, h2, h3⟩
    refine ⟨h1, h2, ?_⟩
    intro m' hm'
    cases hm.symm.trans hm'
    exact ⟨k, hk, h3⟩

theorem exists_place {m : Members} (hm : d.members = some m) {v : Int} (hv : d.Has s v) :
    ∃ k, m.places.valueAt? k = some v := by
  obtain ⟨-, -, h3⟩ := (has_iff h.shaped s v).mp hv
  obtain ⟨k, hk, -⟩ := h3 m hm
  exact ⟨k, hk⟩

theorem has_iff_exists_place {m : Members} (hm : d.members = some m) {i j : Nat} {v : Int}
    (hi : m.places.valueAt? i = some (d.lb s)) (hj : m.places.valueAt? j = some (d.ub s)) :
    d.Has s v ↔ m.HasBetween s i j v := by
  constructor
  · intro hv
    obtain ⟨k, hk⟩ := h.exists_place hm hv
    exact ⟨k, hk, (h.has_iff_of_members hm hi hj hk).mp hv⟩
  · rintro ⟨k, hk, hv⟩
    exact (h.has_iff_of_members hm hi hj hk).mpr hv

/-! ### The nearest values -/

theorem next?_spec {v : Int} (hv : d.members = none → Value.Fits v) :
    ∃ r, d.next? s v = .ok r ∧ LeastOf (fun w => d.Has s w ∧ v < w) r := by
  rw [next?]
  by_cases hub : d.ub s ≤ v
  · refine ⟨none, by simp [hub], ?_⟩
    rintro u ⟨hu, hvu⟩
    have := h.le_ub hu
    omega
  · have hlu := h.lb_le_ub
    simp only [if_neg hub]
    cases hm : d.members with
    | none =>
      have hsucc := successor_eq_ok ((hv hm).of_between h.fits_ub (v := v + 1) (by omega) (by omega))
      refine ⟨some (max (v + 1) (d.lb s)), by simp [hsucc], ⟨?_, by omega⟩, ?_⟩
      · exact h.has_of_bounded hm (by omega) (by omega)
      · rintro u ⟨hu, hvu⟩
        have := h.lb_le hu
        omega
    | some m =>
      have hms := h.shaped.members m hm
      obtain ⟨i, j, hi, hj, -⟩ := h.exists_places hm
      obtain ⟨r, hr, hleast⟩ := Members.next?_spec hms s (max (m.places.countLe v) i) (Universe.lt_length hj)
      refine ⟨r, by simp only [hms.ordered.place_eq_ok hi, hms.ordered.place_eq_ok hj, ok_bind, hr], ?_⟩
      refine hleast.congr fun w => ?_
      rw [h.has_iff_exists_place hm hi hj]
      constructor
      · rintro ⟨k, hk, h1, h2, hb⟩
        have := hms.ordered.lt_countLe_iff hk v
        exact ⟨⟨k, hk, by omega, h2, hb⟩, by omega⟩
      · rintro ⟨⟨k, hk, h1, h2, hb⟩, hvw⟩
        have := hms.ordered.lt_countLe_iff hk v
        exact ⟨k, hk, by omega, h2, hb⟩

theorem previous?_spec {v : Int} (hv : d.members = none → Value.Fits v) :
    ∃ r, d.previous? s v = .ok r ∧ GreatestOf (fun w => d.Has s w ∧ w < v) r := by
  rw [previous?]
  by_cases hlb : v ≤ d.lb s
  · refine ⟨none, by simp [hlb], ?_⟩
    rintro u ⟨hu, huv⟩
    have := h.lb_le hu
    omega
  · have hlu := h.lb_le_ub
    simp only [if_neg hlb]
    cases hm : d.members with
    | none =>
      have hpred := predecessor_eq_ok (h.fits_lb.of_between (hv hm) (v := v - 1) (by omega) (by omega))
      refine ⟨some (min (v - 1) (d.ub s)), by simp [hpred], ⟨?_, by omega⟩, ?_⟩
      · exact h.has_of_bounded hm (by omega) (by omega)
      · rintro u ⟨hu, huv⟩
        have := h.le_ub hu
        omega
    | some m =>
      have hms := h.shaped.members m hm
      obtain ⟨i, j, hi, hj, -⟩ := h.exists_places hm
      -- the lower bound is below `v`, so some place is before those from `v` on
      have hpos : i < m.places.countLt v := (hms.ordered.lt_countLt_iff hi v).mpr (by omega)
      obtain ⟨c, hc⟩ : ∃ c, m.places.countLt v = c + 1 := ⟨m.places.countLt v - 1, by omega⟩
      have hlen : min c j < m.places.length := Nat.lt_of_le_of_lt (Nat.min_le_right c j) (Universe.lt_length hj)
      obtain ⟨r, hr, hgreatest⟩ := Members.previous?_spec hms s i hlen
      refine ⟨r, ?_, hgreatest.congr fun w => ?_⟩
      · simp only [hms.ordered.place_eq_ok hi, hms.ordered.place_eq_ok hj, ok_bind, hc, placeBefore, hr]
      rw [h.has_iff_exists_place hm hi hj]
      constructor
      · rintro ⟨k, hk, h1, h2, hb⟩
        have := hms.ordered.lt_countLt_iff hk v
        exact ⟨⟨k, hk, h1, by omega, hb⟩, by omega⟩
      · rintro ⟨⟨k, hk, h1, h2, hb⟩, hwv⟩
        have := hms.ordered.lt_countLt_iff hk v
        exact ⟨k, hk, h1, by omega, hb⟩

theorem nextFrom?_spec {v : Int} (hv : d.members = none → Value.Fits v) :
    ∃ r, d.nextFrom? s v = .ok r ∧ LeastOf (fun w => d.Has s w ∧ v ≤ w) r := by
  rw [nextFrom?]
  by_cases hc : d.Has s v
  · refine ⟨some v, by simp [contains_eq_true hc], ⟨hc, Int.le_refl v⟩, ?_⟩
    exact fun u hu => hu.2
  · obtain ⟨r, hr, hleast⟩ := h.next?_spec hv
    refine ⟨r, by simp [contains_eq_false h.shaped hc, hr], ?_⟩
    have hne : ∀ u, d.Has s u → v ≤ u → v < u := by
      intro u hu hvu
      rcases Int.lt_or_eq_of_le hvu with hlt | rfl
      · exact hlt
      · exact absurd hu hc
    cases r with
    | none => exact fun u hu => hleast u ⟨hu.1, hne u hu.1 hu.2⟩
    | some w =>
      refine ⟨⟨hleast.1.1, Int.le_of_lt hleast.1.2⟩, ?_⟩
      exact fun u hu => hleast.2 u ⟨hu.1, hne u hu.1 hu.2⟩

theorem previousFrom?_spec {v : Int} (hv : d.members = none → Value.Fits v) :
    ∃ r, d.previousFrom? s v = .ok r ∧ GreatestOf (fun w => d.Has s w ∧ w ≤ v) r := by
  rw [previousFrom?]
  by_cases hc : d.Has s v
  · refine ⟨some v, by simp [contains_eq_true hc], ⟨hc, Int.le_refl v⟩, ?_⟩
    exact fun u hu => hu.2
  · obtain ⟨r, hr, hgreatest⟩ := h.previous?_spec hv
    refine ⟨r, by simp [contains_eq_false h.shaped hc, hr], ?_⟩
    have hne : ∀ u, d.Has s u → u ≤ v → u < v := by
      intro u hu huv
      rcases Int.lt_or_eq_of_le huv with hlt | rfl
      · exact hlt
      · exact absurd hu hc
    cases r with
    | none => exact fun u hu => hgreatest u ⟨hu.1, hne u hu.1 hu.2⟩
    | some w =>
      refine ⟨⟨hgreatest.1.1, Int.le_of_lt hgreatest.1.2⟩, ?_⟩
      exact fun u hu => hgreatest.2 u ⟨hu.1, hne u hu.1 hu.2⟩

/-! ### All values -/

theorem valuesFrom_spec {v : Int} (hv : d.Has s v) (found : Array Int) {n : Nat}
    (hf : (d.ub s - v).toNat < n) :
    ∃ ws, d.valuesFrom s v found n = .ok (found ++ ws) ∧ ws.toList.Pairwise (· < ·) ∧
      ∀ w, w ∈ ws ↔ d.Has s w ∧ v < w := by
  induction n generalizing v found with
  | zero => omega
  | succ n ih =>
    obtain ⟨r, hr, hleast⟩ := h.next?_spec (v := v) (fun _ => h.fits hv)
    rw [valuesFrom, hr]
    cases r with
    | none =>
      refine ⟨#[], by simp, by simp, ?_⟩
      intro w
      simp only [Array.not_mem_empty, false_iff]
      exact hleast w
    | some w =>
      obtain ⟨⟨hw, hvw⟩, hmin⟩ := hleast
      have hwu := h.le_ub hw
      obtain ⟨ws, hrun, hsorted, hmem⟩ := ih hw (found.push w) (by omega)
      refine ⟨#[w] ++ ws, ?_, ?_, ?_⟩
      · simp only [ok_bind, hrun]
        rw [Array.push_eq_append, Array.append_assoc]
      · simp only [Array.toList_append, List.cons_append, List.nil_append, List.pairwise_cons]
        refine ⟨?_, hsorted⟩
        intro u hu
        exact ((hmem u).mp (Array.mem_toList_iff.mp hu)).2
      · intro u
        rw [Array.mem_append, hmem]
        constructor
        · rintro (hu | hu)
          · obtain rfl : u = w := by simpa using hu
            exact ⟨hw, hvw⟩
          · exact ⟨hu.1, by omega⟩
        · rintro ⟨hu, hvu⟩
          have := hmin u ⟨hu, hvu⟩
          rcases Int.lt_or_eq_of_le this with hlt | rfl
          · exact .inr ⟨hu, hlt⟩
          · exact .inl (by simp)

theorem values_spec : ∃ vs, d.values s = .ok vs ∧ vs.toList.Pairwise (· < ·) ∧ ∀ w, w ∈ vs ↔ d.Has s w := by
  have hlu := h.lb_le_ub
  obtain ⟨ws, hrun, hsorted, hmem⟩ := h.valuesFrom_spec h.has_lb #[d.lb s]
    (n := (d.ub s - d.lb s).toNat + 1) (by omega)
  refine ⟨_, hrun, ?_, ?_⟩
  · simp only [Array.toList_append, List.cons_append, List.nil_append, List.pairwise_cons]
    refine ⟨?_, hsorted⟩
    intro u hu
    exact ((hmem u).mp (Array.mem_toList_iff.mp hu)).2
  · intro u
    rw [Array.mem_append, hmem]
    constructor
    · rintro (hu | hu)
      · obtain rfl : u = d.lb s := by simpa using hu
        exact h.has_lb
      · exact hu.1
    · intro hu
      rcases Int.lt_or_eq_of_le (h.lb_le hu) with hlt | heq
      · exact .inr ⟨hu, hlt⟩
      · exact .inl (by simp [heq])

end WellFormed

end Domain

end FiniteDomain
