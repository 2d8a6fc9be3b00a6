/-!
# Computations that may end in a fault

A sequence of such computations succeeds just if each of them does.
-/

namespace FiniteDomain

variable {ε α β : Type}

@[simp] theorem ok_bind (a : α) (f : α → Except ε β) : Except.ok a >>= f = f a := rfl

@[simp] theorem error_bind (e : ε) (f : α → Except ε β) : Except.error e >>= f = Except.error e := rfl

@[simp] theorem pure_eq_ok (a : α) : (pure a : Except ε α) = .ok a := rfl

theorem bind_eq_ok {x : Except ε α} {f : α → Except ε β} {b : β} :
    x >>= f = .ok b ↔ ∃ a, x = .ok a ∧ f a = .ok b := by
  cases x with
  | error e => simp
  | ok a => simp

theorem toOption_eq_some {x : Except ε α} {a : α} : x.toOption = some a ↔ x = .ok a := by
  cases x <;> simp [Except.toOption]

theorem map_eq_ok {x : Except ε α} {f : α → β} {b : β} : x.map f = .ok b ↔ ∃ a, x = .ok a ∧ f a = b := by
  cases x with
  | error e => simp [Except.map]
  | ok a => simp [Except.map]

/-- A list is filtered if the test does not fault on it. -/
theorem filterM_eq_ok {p : α → Except ε Bool} {q : α → Bool} {l : List α} (h : ∀ x ∈ l, p x = .ok (q x)) :
    l.filterM p = .ok (l.filter q) := by
  have haux : ∀ l acc, (∀ x ∈ l, p x = .ok (q x)) →
      List.filterAuxM p l acc = .ok ((l.filter q).reverse ++ acc) := by
    intro l
    induction l with
    | nil => intro acc _; rfl
    | cons x rest ih =>
      intro acc hx
      rw [List.filterAuxM, hx x List.mem_cons_self]
      simp only [ok_bind, cond_eq_ite]
      rw [ih _ fun y hy => hx y (List.mem_cons_of_mem x hy)]
      cases hq : q x <;> simp [hq]
  rw [List.filterM, haux l [] h]
  simp

/-- A list is mapped if the function does not fault on it. -/
theorem mapM_eq_ok {f : α → Except ε β} {g : α → β} {l : List α} (h : ∀ x ∈ l, f x = .ok (g x)) :
    l.mapM f = .ok (l.map g) := by
  induction l with
  | nil => rfl
  | cons x rest ih =>
    rw [List.mapM_cons, h x List.mem_cons_self, ih fun y hy => h y (List.mem_cons_of_mem x hy)]
    rfl

end FiniteDomain
