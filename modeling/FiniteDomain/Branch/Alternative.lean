import FiniteDomain.Notice

/-!
# Alternatives of a decision

The two alternatives of a decision as mutations of its domain, and taking the next of them. Together they
cover the domain, and no value is in both.
-/

namespace FiniteDomain

namespace Split

/-- The value is one of the first alternative. -/
def FirstHolds : Split → Int → Int → Prop
  | assign, v, w => w = v
  | remove, v, w => w ≠ v
  | lower, v, w => w ≤ v
  | upper, v, w => v ≤ w

instance (s : Split) (v w : Int) : Decidable (s.FirstHolds v w) := by
  cases s <;> unfold FirstHolds <;> infer_instance

/-- The mutation that keeps the first alternative. -/
def choice : Split → Int → Mutation
  | assign, v => .assign v
  | remove, v => .remove v
  | lower, v => .atMost v
  | upper, v => .atLeast v

/-- The mutation that keeps the refutation. -/
def refutation : Split → Int → Except Fault Mutation
  | assign, v => .ok (.remove v)
  | remove, v => .ok (.assign v)
  | lower, v => do return .atLeast (← successor v)
  | upper, v => do return .atMost (← predecessor v)

theorem choice_keeps_iff (s : Split) (v w : Int) : (s.choice v).Keeps w ↔ s.FirstHolds v w := by
  cases s <;> rfl

theorem refutation_keeps_iff {s : Split} {v : Int} {μ : Mutation} (h : s.refutation v = .ok μ) (w : Int) :
    μ.Keeps w ↔ ¬s.FirstHolds v w := by
  cases s with
  | assign => cases h; exact Iff.rfl
  | remove => cases h; exact Decidable.not_not.symm
  | lower =>
    simp only [refutation, successor, Value.ofInt?] at h
    split at h <;> split at * <;> simp_all [bind, Except.bind, pure, Except.pure]
    subst h
    simp only [Mutation.Keeps, FirstHolds]
    omega
  | upper =>
    simp only [refutation, predecessor, Value.ofInt?] at h
    split at h <;> split at * <;> simp_all [bind, Except.bind, pure, Except.pure]
    subst h
    simp only [Mutation.Keeps, FirstHolds]
    omega

end Split

namespace Decision

/-- The assignment is one of the alternative being tried. -/
def Holds (d : Decision) (a : VarId → Int) : Prop :=
  if d.tried ≤ 1 then d.split.FirstHolds d.value (a d.var) else ¬d.split.FirstHolds d.value (a d.var)

/-- The mutation of the alternative being tried. -/
def mutation (d : Decision) : Except Fault Mutation :=
  if d.onFirst then .ok (d.split.choice d.value) else d.split.refutation d.value

/-- Goes on to the next alternative and narrows the domain to it. -/
def takeNext (d : Decision) (m : Model) : Activity (Except Contradiction Unit × Decision × Model) := do
  if d.hasNext then
    let d := { d with tried := d.tried + 1 }
    let (outcome, m) ← m.narrow d.var (← Activity.quietly d.mutation) .decision
    return (outcome.map fun _ => (), d, m)
  else throw (Fault.noAlternative d.text)

end Decision

end FiniteDomain
