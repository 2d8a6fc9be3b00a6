import FiniteDomain.Proofs.Activity

/-!
# Computations that go the same way

A computation *matches* another if it comes to a result whenever that does, and the two results are related. Nothing is
said of faults, and of activities nothing of what is noticed. The rules follow the ways in which computations are put
together.
-/

namespace FiniteDomain

variable {α β γ δ : Type}

/-- Whenever the first comes to a result the second does, and the results are related. -/
def Matches (R : α → β → Prop) (r : Except Fault α) (r' : Except Fault β) : Prop :=
  ∀ x, r = .ok x → ∃ y, r' = .ok y ∧ R x y

namespace Matches

variable {R : α → β → Prop} {S : γ → δ → Prop}

theorem ok {x : α} {y : β} (h : R x y) : Matches R (.ok x) (.ok y) := by
  rintro _ ⟨⟩
  exact ⟨y, rfl, h⟩

theorem error {fault : Fault} {r' : Except Fault β} : Matches R (.error fault) r' := by
  intro x hx
  cases hx

theorem bind {r : Except Fault α} {r' : Except Fault β} {f : α → Except Fault γ} {f' : β → Except Fault δ}
    (h : Matches R r r') (hf : ∀ x y, R x y → Matches S (f x) (f' y)) : Matches S (r >>= f) (r' >>= f') := by
  intro z hz
  cases r with
  | error fault => cases hz
  | ok x =>
    obtain ⟨y, rfl, hxy⟩ := h x rfl
    exact hf x y hxy z hz

/-- Both ask for the same first. -/
theorem ask {r : Except Fault α} {f : α → Except Fault γ} {f' : α → Except Fault δ}
    (hf : ∀ x, Matches S (f x) (f' x)) : Matches S (r >>= f) (r >>= f') := by
  cases r with
  | error fault => exact error
  | ok x => exact hf x

theorem mono {r : Except Fault α} {r' : Except Fault β} {R' : α → β → Prop} (h : Matches R r r')
    (hR : ∀ x y, R x y → R' x y) : Matches R' r r' := by
  intro x hx
  obtain ⟨y, hy, hxy⟩ := h x hx
  exact ⟨y, hy, hR x y hxy⟩

theorem of_eq {r r' : Except Fault α} (h : r' = r) : Matches Eq r r' := fun x hx => ⟨x, h.trans hx, rfl⟩

end Matches

namespace Activity

/-- Whenever the first comes to a result the second does, and the results are related. -/
def Matches (R : α → β → Prop) (a : Activity α) (a' : Activity β) : Prop :=
  ∀ before x after, a before = .ok x after → ∀ before', ∃ y after', a' before' = .ok y after' ∧ R x y

namespace Matches

variable {R : α → β → Prop} {S : γ → δ → Prop}

theorem pure {x : α} {y : β} (h : R x y) : Matches R (Pure.pure x) (Pure.pure y) := by
  rintro before _ _ ⟨⟩ before'
  exact ⟨y, before', rfl, h⟩

theorem throw {fault : Fault} {a' : Activity β} : Matches R (MonadExcept.throw fault) a' := by
  intro before x after hrun
  cases hrun

theorem bind {a : Activity α} {a' : Activity β} {f : α → Activity γ} {f' : β → Activity δ} (ha : Matches R a a')
    (hf : ∀ x y, R x y → Matches S (f x) (f' y)) : Matches S (a >>= f) (a' >>= f') := by
  intro before z after hrun before'
  obtain ⟨x, middle, hx, hz⟩ := run_bind_eq_ok.mp hrun
  obtain ⟨y, middle', hy, hxy⟩ := ha before x middle hx before'
  obtain ⟨w, after', hw, hzw⟩ := hf x y hxy middle z after hz middle'
  exact ⟨w, after', run_bind_eq_ok.mpr ⟨y, middle', hy, hw⟩, hzw⟩

theorem report (notice notice' : Notice) : Matches (fun _ _ => True) (Activity.report notice) (Activity.report notice') :=
  fun _ _ _ _ _ => ⟨(), _, rfl, True.intro⟩

theorem quietly {r : Except Fault α} {r' : Except Fault β} (h : FiniteDomain.Matches R r r') :
    Matches R (Activity.quietly r) (Activity.quietly r') := by
  intro before x after hrun before'
  cases r with
  | error fault => cases hrun
  | ok z =>
    cases hrun
    obtain ⟨y, rfl, hxy⟩ := h x rfl
    exact ⟨y, before', rfl, hxy⟩

theorem mono {a : Activity α} {a' : Activity β} {R' : α → β → Prop} (h : Matches R a a') (hR : ∀ x y, R x y → R' x y) :
    Matches R' a a' := by
  intro before x after hrun before'
  obtain ⟨y, after', hy, hxy⟩ := h before x after hrun before'
  exact ⟨y, after', hy, hR x y hxy⟩

end Matches

end Activity

end FiniteDomain
