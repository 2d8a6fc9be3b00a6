import FiniteDomain.Domain.Universe

/-!
# Places and values of a universe

A universe is *ordered* if its values increase with their places and are ones that a variable can take. Then

* `index?_eq_some_iff`: the place of a value is where it stands;
* `lt_countLt_iff`, `lt_countLe_iff`: the counts are exact, by the binary search as well.
-/

namespace FiniteDomain

namespace Universe

/-- What stands at a place. -/
def valueAt? : Universe → Nat → Option Int
  | dense offset n, i => if i < n then some (offset + i) else none
  | sparse table, i => table[i]?

/-- The values increase with their places, and a variable can take each of them. -/
structure Ordered (u : Universe) : Prop where
  fits : ∀ i v, u.valueAt? i = some v → Value.Fits v
  strict : ∀ i j v w, u.valueAt? i = some v → u.valueAt? j = some w → i < j → v < w

theorem valueAt?_eq_none_iff {u : Universe} {i : Nat} : u.valueAt? i = none ↔ u.length ≤ i := by
  cases u with
  | dense offset n => simp [valueAt?, length]
  | sparse table => simp [valueAt?, length]

theorem exists_valueAt {u : Universe} {i : Nat} (h : i < u.length) : ∃ v, u.valueAt? i = some v := by
  cases he : u.valueAt? i with
  | none =>
    rw [valueAt?_eq_none_iff] at he
    omega
  | some v => exact ⟨v, rfl⟩

theorem lt_length {u : Universe} {i : Nat} {v : Int} (h : u.valueAt? i = some v) : i < u.length := by
  rcases Nat.lt_or_ge i u.length with hlt | hge
  · exact hlt
  · rw [valueAt?_eq_none_iff.mpr hge] at h
    cases h

namespace Ordered

variable {u : Universe} (h : u.Ordered)

include h

theorem lt_iff {i j : Nat} {v w : Int} (hi : u.valueAt? i = some v) (hj : u.valueAt? j = some w) :
    v < w ↔ i < j := by
  constructor
  · intro hvw
    rcases Nat.lt_trichotomy i j with hij | rfl | hji
    · exact hij
    · cases hi.symm.trans hj
      omega
    · have := h.strict j i w v hj hi hji
      omega
  · exact h.strict i j v w hi hj

theorem le_iff {i j : Nat} {v w : Int} (hi : u.valueAt? i = some v) (hj : u.valueAt? j = some w) :
    v ≤ w ↔ i ≤ j := by
  have := h.lt_iff hj hi
  omega

theorem place_unique {i j : Nat} {v : Int} (hi : u.valueAt? i = some v) (hj : u.valueAt? j = some v) : i = j := by
  have h1 := h.lt_iff hi hj
  have h2 := h.lt_iff hj hi
  omega

end Ordered

/-! ### The binary search -/

theorem countBetween_spec {table : Array Int} (h : (sparse table).Ordered) (v : Int) (low high : Nat)
    (hle : low ≤ high) (hsize : high ≤ table.size)
    (hlow : ∀ i w, table[i]? = some w → i < low → w < v) (hhigh : ∀ i w, table[i]? = some w → high ≤ i → v ≤ w) :
    ∀ i w, table[i]? = some w → (i < countBetween table v low high ↔ w < v) := by
  fun_induction countBetween table v low high with
  | case1 low high hlt middle entry hentry hev ih =>
    have hm : middle = (low + high) / 2 := rfl
    refine ih (by omega) hsize ?_ hhigh
    intro i w hi him
    have := (h.le_iff hi hentry).mpr (by omega)
    omega
  | case2 low high hlt middle entry hentry hev ih =>
    have hm : middle = (low + high) / 2 := rfl
    refine ih (by omega) (by omega) hlow ?_
    intro i w hi him
    have := (h.le_iff hentry hi).mpr him
    omega
  | case3 low high hlt middle hentry ih =>
    have hm : middle = (low + high) / 2 := rfl
    rw [Array.getElem?_eq_none_iff] at hentry
    omega
  | case4 low high hlt =>
    intro i w hi
    constructor
    · exact fun hil => hlow i w hi hil
    · intro hw
      rcases Nat.lt_or_ge i low with hil | hil
      · exact hil
      · have := hhigh i w hi (by omega)
        omega

theorem lt_countBelow_iff {table : Array Int} (h : (sparse table).Ordered) (v : Int) {i : Nat} {w : Int}
    (hi : table[i]? = some w) : i < countBelow table v ↔ w < v := by
  refine countBetween_spec h v 0 table.size (Nat.zero_le _) (Nat.le_refl _) ?_ ?_ i w hi
  · intro i w _ h0
    omega
  · intro i w hi hle
    have := (Array.getElem?_eq_some_iff.mp hi).1
    omega

/-! ### Counts -/

namespace Ordered

variable {u : Universe} (h : u.Ordered)

include h

theorem lt_countLt_iff {i : Nat} {w : Int} (hi : u.valueAt? i = some w) (v : Int) : i < u.countLt v ↔ w < v := by
  cases u with
  | dense offset n =>
    simp only [valueAt?] at hi
    split at hi
    · cases hi
      simp only [countLt]
      omega
    · cases hi
  | sparse table => exact lt_countBelow_iff h v hi

theorem lt_countLe_iff {i : Nat} {w : Int} (hi : u.valueAt? i = some w) (v : Int) : i < u.countLe v ↔ w ≤ v := by
  cases u with
  | dense offset n =>
    simp only [valueAt?] at hi
    split at hi
    · cases hi
      simp only [countLe]
      omega
    · cases hi
  | sparse table =>
    have := lt_countBelow_iff h (v + 1) hi
    simp only [countLe]
    omega

/-! ### Places -/

theorem index?_eq_some_iff {i : Nat} {v : Int} : u.index? v = some i ↔ u.valueAt? i = some v := by
  cases u with
  | dense offset n =>
    simp only [index?, valueAt?]
    constructor
    · intro hv
      split at hv
      · rename_i hr
        cases hv
        rw [if_pos (by omega)]
        congr 1
        omega
      · cases hv
    · intro hi
      split at hi
      · cases hi
        rw [if_pos (by omega)]
        congr 1
        omega
      · cases hi
  | sparse table =>
    simp only [index?, valueAt?]
    constructor
    · intro hv
      split at hv
      · rename_i hr
        cases hv
        exact hr
      · cases hv
    · intro hi
      -- all entries before place `i` are below its value, and it is not below itself
      have hcount : countBelow table v = i := by
        have hii := lt_countBelow_iff h v hi
        rcases Nat.lt_trichotomy (countBelow table v) i with hlt | heq | hgt
        · have hs := (Array.getElem?_eq_some_iff.mp hi).1
          obtain ⟨w, hw⟩ : ∃ w, table[countBelow table v]? = some w :=
            ⟨_, Array.getElem?_eq_getElem (Nat.lt_trans hlt hs)⟩
          have h1 := lt_countBelow_iff h v hw
          have h2 := (h.lt_iff (u := sparse table) hw hi).mpr hlt
          omega
        · exact heq
        · omega
      rw [hcount, if_pos hi]

theorem place_eq_ok {i : Nat} {v : Int} (hi : u.valueAt? i = some v) : u.place v = .ok i := by
  rw [place, h.index?_eq_some_iff.mpr hi]

theorem value_eq_ok {i : Nat} {v : Int} (hi : u.valueAt? i = some v) : u.value i = .ok v := by
  have hf := h.fits i v hi
  cases u with
  | dense offset n =>
    simp only [valueAt?] at hi
    split at hi
    · cases hi
      simp only [value, Value.ofInt?, if_pos hf]
    · cases hi
  | sparse table =>
    simp only [valueAt?] at hi
    simp only [value, hi]

end Ordered

end Universe

end FiniteDomain
