import FiniteDomain.Constraint.Distance
import FiniteDomain.Proofs.Domain.WellFormed

/-!
# Candidates for bounds

The bounds for which a value at some distance is there are found by adding the distance to the nearest values and taking
it from them. Both are cut off at the ends of the range of values.

* `minus_le_iff`, `le_plus_iff`, `plus_le_iff`, `le_minus_iff`: comparisons with what was cut off;
* `exists_low`, `exists_high`: no value with a partner lies outside the candidates;
* `exists_of_least?_le`, `exists_of_le_greatest?`: a candidate comes from a value that it was reckoned with.
-/

namespace FiniteDomain

namespace Distance

/-! ### Sums and differences that are cut off -/

section CutOff

variable {a b k : Int}

theorem minus_le_iff (ha : Value.Fits a) (hb : Value.Fits b) (hk : 0 ≤ k) : minus a k ≤ b ↔ a ≤ b + k := by
  simp only [Value.Fits, Value.least, Value.greatest] at ha hb
  simp only [minus, Value.clamp, Value.least, Value.greatest]
  omega

theorem le_plus_iff (ha : Value.Fits a) (hb : Value.Fits b) (hk : 0 ≤ k) : b ≤ plus a k ↔ b ≤ a + k := by
  simp only [Value.Fits, Value.least, Value.greatest] at ha hb
  simp only [plus, Value.clamp, Value.least, Value.greatest]
  omega

theorem plus_le_iff (hb : Value.Fits b) : plus a k ≤ b ↔ a + k ≤ b ∨ b = Value.greatest := by
  simp only [Value.Fits, Value.least, Value.greatest] at hb
  simp only [plus, Value.clamp, Value.least, Value.greatest]
  omega

theorem le_minus_iff (hb : Value.Fits b) : b ≤ minus a k ↔ b ≤ a - k ∨ b = Value.least := by
  simp only [Value.Fits, Value.least, Value.greatest] at hb
  simp only [minus, Value.clamp, Value.least, Value.greatest]
  omega

end CutOff

/-! ### The nearest candidates -/

section Candidates

variable {p : Int → Prop} {k v w : Int} {r₁ r₂ : Option Int}

theorem least?_le_left {a b : Option Int} {i : Int} (h : a = some i) : ∃ low, least? a b = some low ∧ low ≤ i := by
  subst h
  cases b with
  | none => exact ⟨i, rfl, Int.le_refl i⟩
  | some j => exact ⟨min i j, rfl, Int.min_le_left i j⟩

theorem least?_le_right {a b : Option Int} {j : Int} (h : b = some j) : ∃ low, least? a b = some low ∧ low ≤ j := by
  subst h
  cases a with
  | none => exact ⟨j, rfl, Int.le_refl j⟩
  | some i => exact ⟨min i j, rfl, Int.min_le_right i j⟩

theorem le_greatest?_left {a b : Option Int} {i : Int} (h : a = some i) :
    ∃ high, greatest? a b = some high ∧ i ≤ high := by
  subst h
  cases b with
  | none => exact ⟨i, rfl, Int.le_refl i⟩
  | some j => exact ⟨max i j, rfl, Int.le_max_left i j⟩

theorem le_greatest?_right {a b : Option Int} {j : Int} (h : b = some j) :
    ∃ high, greatest? a b = some high ∧ j ≤ high := by
  subst h
  cases a with
  | none => exact ⟨j, rfl, Int.le_refl j⟩
  | some i => exact ⟨max i j, rfl, Int.le_max_right i j⟩

/-- The least value at the distance of some value from `t` on. -/
theorem exists_low {t : Int} (h₁ : LeastOf (fun u => p u ∧ minus t k ≤ u) r₁)
    (h₂ : LeastOf (fun u => p u ∧ plus t k ≤ u) r₂) (hv : Value.Fits v) (hw : Value.Fits w) (hp : p w)
    (ht : t ≤ v) (hk : ((v - w).natAbs : Int) = k) :
    ∃ low, least? (r₁.map fun u => plus u k) (r₂.map fun u => minus u k) = some low ∧ low ≤ v := by
  simp only [Value.Fits] at hv hw
  rcases (by omega : v = w + k ∨ v = w - k) with h | h
  · cases r₁ with
    | none =>
      refine absurd ⟨hp, ?_⟩ (h₁ w)
      simp only [minus, Value.clamp]
      omega
    | some u =>
      have hu := h₁.2 w ⟨hp, by simp only [minus, Value.clamp]; omega⟩
      obtain ⟨low, hlow, hle⟩ := least?_le_left (b := r₂.map fun u => minus u k) (Option.map_some (f := fun u => plus u k) (a := u))
      refine ⟨low, hlow, ?_⟩
      simp only [plus, Value.clamp] at hle
      omega
  · cases r₂ with
    | none =>
      refine absurd ⟨hp, ?_⟩ (h₂ w)
      simp only [plus, Value.clamp]
      omega
    | some u =>
      have hu := h₂.2 w ⟨hp, by simp only [plus, Value.clamp]; omega⟩
      obtain ⟨low, hlow, hle⟩ := least?_le_right (a := r₁.map fun u => plus u k) (Option.map_some (f := fun u => minus u k) (a := u))
      refine ⟨low, hlow, ?_⟩
      simp only [minus, Value.clamp] at hle
      omega

/-- The greatest value at the distance of some value up to `t`. -/
theorem exists_high {t : Int} (h₁ : GreatestOf (fun u => p u ∧ u ≤ minus t k) r₁)
    (h₂ : GreatestOf (fun u => p u ∧ u ≤ plus t k) r₂) (hv : Value.Fits v) (hw : Value.Fits w) (hp : p w)
    (ht : v ≤ t) (hk : ((v - w).natAbs : Int) = k) :
    ∃ high, greatest? (r₁.map fun u => plus u k) (r₂.map fun u => minus u k) = some high ∧ v ≤ high := by
  simp only [Value.Fits] at hv hw
  rcases (by omega : v = w + k ∨ v = w - k) with h | h
  · cases r₁ with
    | none =>
      refine absurd ⟨hp, ?_⟩ (h₁ w)
      simp only [minus, Value.clamp]
      omega
    | some u =>
      have hu := h₁.2 w ⟨hp, by simp only [minus, Value.clamp]; omega⟩
      obtain ⟨high, hhigh, hle⟩ := le_greatest?_left (b := r₂.map fun u => minus u k) (Option.map_some (f := fun u => plus u k) (a := u))
      refine ⟨high, hhigh, ?_⟩
      simp only [plus, Value.clamp] at hle
      omega
  · cases r₂ with
    | none =>
      refine absurd ⟨hp, ?_⟩ (h₂ w)
      simp only [plus, Value.clamp]
      omega
    | some u =>
      have hu := h₂.2 w ⟨hp, by simp only [plus, Value.clamp]; omega⟩
      obtain ⟨high, hhigh, hle⟩ := le_greatest?_right (a := r₁.map fun u => plus u k) (Option.map_some (f := fun u => minus u k) (a := u))
      refine ⟨high, hhigh, ?_⟩
      simp only [minus, Value.clamp] at hle
      omega

/-- The lesser of two candidates comes from one of the values that they were reckoned with. -/
theorem exists_of_least?_le {t₁ t₂ t low : Int} {f g : Int → Int} (h₁ : LeastOf (fun u => p u ∧ t₁ ≤ u) r₁)
    (h₂ : LeastOf (fun u => p u ∧ t₂ ≤ u) r₂) (hlow : least? (r₁.map f) (r₂.map g) = some low) (hle : low ≤ t) :
    ∃ w, p w ∧ (t₁ ≤ w ∧ f w ≤ t ∨ t₂ ≤ w ∧ g w ≤ t) := by
  cases r₁ with
  | none =>
    cases r₂ with
    | none => cases hlow
    | some w₂ =>
      cases hlow
      exact ⟨w₂, h₂.1.1, .inr ⟨h₂.1.2, hle⟩⟩
  | some w₁ =>
    cases r₂ with
    | none =>
      cases hlow
      exact ⟨w₁, h₁.1.1, .inl ⟨h₁.1.2, hle⟩⟩
    | some w₂ =>
      cases hlow
      rcases (by omega : f w₁ ≤ t ∨ g w₂ ≤ t) with hle | hle
      · exact ⟨w₁, h₁.1.1, .inl ⟨h₁.1.2, hle⟩⟩
      · exact ⟨w₂, h₂.1.1, .inr ⟨h₂.1.2, hle⟩⟩

theorem exists_of_le_greatest? {t₁ t₂ t high : Int} {f g : Int → Int} (h₁ : GreatestOf (fun u => p u ∧ u ≤ t₁) r₁)
    (h₂ : GreatestOf (fun u => p u ∧ u ≤ t₂) r₂) (hhigh : greatest? (r₁.map f) (r₂.map g) = some high) (hle : t ≤ high) :
    ∃ w, p w ∧ (w ≤ t₁ ∧ t ≤ f w ∨ w ≤ t₂ ∧ t ≤ g w) := by
  cases r₁ with
  | none =>
    cases r₂ with
    | none => cases hhigh
    | some w₂ =>
      cases hhigh
      exact ⟨w₂, h₂.1.1, .inr ⟨h₂.1.2, hle⟩⟩
  | some w₁ =>
    cases r₂ with
    | none =>
      cases hhigh
      exact ⟨w₁, h₁.1.1, .inl ⟨h₁.1.2, hle⟩⟩
    | some w₂ =>
      cases hhigh
      rcases (by omega : t ≤ f w₁ ∨ t ≤ g w₂) with hle | hle
      · exact ⟨w₁, h₁.1.1, .inl ⟨h₁.1.2, hle⟩⟩
      · exact ⟨w₂, h₂.1.1, .inr ⟨h₂.1.2, hle⟩⟩

end Candidates

end Distance

end FiniteDomain
