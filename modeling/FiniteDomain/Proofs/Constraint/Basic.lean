import FiniteDomain.Constraint.Basic
import FiniteDomain.Proofs.Constraint.Disequality
import FiniteDomain.Proofs.Constraint.Distance
import FiniteDomain.Proofs.Constraint.Linear
import FiniteDomain.Proofs.Constraint.Nogood

/-!
# Constraints filter soundly

What holds of the propagator of each kind of constraint, provided the constraint suits the model: its variables
are of the model, it is one that can be put together, and no sum of a linear one comes too close to an end of the
range of sums. Of a sum beyond the range nothing is concluded, so that a propagator lets it stand.

* `filter_spec`: what a run comes to;
* `entailed_spec`: what is reported as violated is;
* `admits_iff`: in range the assignments that are let stand are those that satisfy the constraint.
-/

namespace FiniteDomain

open FiniteDomain.Filter

namespace Constraint

/-- The constants of a distance fit, and no term of a sum has coefficient zero. -/
def Proper : Constraint → Prop
  | distance c => Value.Fits c.constant
  | linear c => ∀ t ∈ c.terms, t.coefficient ≠ 0
  | _ => True

/-- The partial sums of a linear constraint keep to the range of sums. -/
def InRange (m : Model) : Constraint → Prop
  | linear c => c.InRange m
  | _ => True

/-- What the constant of a linear constraint leaves above a sum in range is in range. -/
def HasRoom (m : Model) : Constraint → Prop
  | linear c => c.HasRoom m
  | _ => True

/-- A sum of a linear constraint is in range on all sides that are looked at, or on none. -/
def Mirrored (m : Model) : Constraint → Prop
  | linear c => c.Mirrored m
  | _ => True

/-- The propagator lets the assignment stand: it satisfies the constraint, or that is a sum beyond the range. -/
def Admits : Constraint → Assignment → Prop
  | linear c => c.Admits
  | c => c.Holds

structure Suits [Tolerance] (c : Constraint) (m : Model) : Prop where
  scope : ∀ x ∈ c.propagator.scope, m.owns x = true
  proper : c.Proper
  mirrored : c.Mirrored m
  hasRoom : Fault.overflow.Tolerated ∨ c.HasRoom m

/-- Where all of its variables are fixed the constraint lets the values stand. -/
def Decided (c : Constraint) (m : Model) : Prop :=
  (∀ x ∈ c.propagator.scope, m.Fixed x) → ∀ a, m.Allows a → c.Admits a

variable {c : Constraint} {m : Model}

theorem mem_linear_scope {c : Linear} {t : Term} (ht : t ∈ c.terms) : t.var ∈ c.propagator.scope := by
  simp only [Linear.propagator, List.mem_toArray]
  exact List.mem_map_of_mem ht

/-- A nogood suits every model with its variables. -/
theorem suits_nogood [Tolerance] {g : Nogood} (h : ∀ l ∈ g.literals, m.owns l.var = true) : (nogood g).Suits m := by
  refine ⟨fun x hx => ?_, trivial, trivial, .inr trivial⟩
  obtain ⟨l, hl, rfl⟩ := List.mem_map.mp (List.mem_toArray.mp hx)
  exact h l hl

/-- In smaller domains there is as much room. -/
theorem HasRoom.of_narrower (h : c.HasRoom m) {m' : Model} (hsub : ∀ x v, m'.Has x v → m.Has x v) : c.HasRoom m' := by
  cases c with
  | linear c => exact Linear.HasRoom.of_narrower h hsub
  | unequal _ | unequalSum _ | distance _ | nogood _ => trivial

/-- A constraint suits the smaller domains of the same variables. -/
theorem Suits.of_narrower [Tolerance] (h : c.Suits m) {m' : Model} (howns : ∀ x, m.owns x = true → m'.owns x = true)
    (hsub : ∀ x v, m'.Has x v → m.Has x v) : c.Suits m' := by
  suffices hmirrored : c.Mirrored m' from
    ⟨fun x hx => howns x (h.scope x hx), h.proper, hmirrored, h.hasRoom.imp_right fun hroom => hroom.of_narrower hsub⟩
  match c, h with
  | unequal _, _ | unequalSum _, _ | distance _, _ | nogood _, _ => exact trivial
  | linear c, h => exact Linear.Mirrored.of_narrower h.mirrored hsub

theorem InRange.of_narrower (h : c.InRange m) (hscope : ∀ x ∈ c.propagator.scope, m.owns x = true) (hw : m.WellFormed)
    {m' : Model} (hw' : m'.WellFormed) (howns : ∀ x, m.owns x = true → m'.owns x = true)
    (hsub : ∀ x v, m'.Has x v → m.Has x v) : c.InRange m' := by
  match c, h with
  | unequal _, _ | unequalSum _, _ | distance _, _ | nogood _, _ => exact trivial
  | linear c, h =>
    have hterms : ∀ t ∈ c.terms, m.owns t.var = true := fun t ht => hscope _ (mem_linear_scope ht)
    exact Linear.InRange.of_narrower h hw hw' hsub hterms fun t ht => howns _ (hterms t ht)

theorem InRange.mirrored (h : c.InRange m) (hscope : ∀ x ∈ c.propagator.scope, m.owns x = true) (hw : m.WellFormed) :
    c.Mirrored m := by
  match c, h with
  | unequal _, _ | unequalSum _, _ | distance _, _ | nogood _, _ => exact trivial
  | linear c, h => exact Linear.InRange.mirrored h hw fun t ht => hscope _ (mem_linear_scope ht)

/-- **In range the assignments that are let stand are those that satisfy the constraint.** -/
theorem admits_iff (hrange : c.InRange m) (hscope : ∀ x ∈ c.propagator.scope, m.owns x = true) (hw : m.WellFormed)
    {a : Assignment} (ha : m.Allows a) : c.Admits a ↔ c.Holds a := by
  match c, hrange with
  | unequal _, _ | unequalSum _, _ | distance _, _ | nogood _, _ => exact Iff.rfl
  | linear c, hrange => exact Linear.admits_iff hw (fun t ht => hscope _ (mem_linear_scope ht)) hrange ha

/-- **A run keeps all assignments that the constraint admits, ends in a contradiction only if there is none, and
decides the constraint.** -/
theorem filter_spec [Tolerance] (start : Scene) (hw : start.model.WellFormed) (hs : c.Suits start.model)
    (hp : start.passive = false) :
    Leads c.Admits start c.propagator.run start fun _ s => Filter.Decided c.Admits c.propagator.scope s := by
  match c, hs with
  | unequal c, hs => exact Unequal.filter_spec hw (hs.scope c.var (by simp [propagator, Unequal.propagator])) hp
  | unequalSum c, hs =>
    exact UnequalSum.filter_spec hw (hs.scope c.x (by simp [propagator, UnequalSum.propagator]))
      (hs.scope c.y (by simp [propagator, UnequalSum.propagator])) hp
  | distance c, hs =>
    exact Distance.filter_spec hw (hs.scope c.x (by simp [propagator, Distance.propagator]))
      (hs.scope c.y (by simp [propagator, Distance.propagator])) hp hs.proper
  | linear c, hs =>
    exact Linear.filter_spec hw hs.proper (fun t ht => hs.scope _ (mem_linear_scope ht)) hs.hasRoom hp
  | nogood c, hs => exact Nogood.filter_spec hw (fun l hl => hs.scope _ (Nogood.mem_scope hl)) hp

/-- What is reported as violated is. -/
theorem entailed_spec [Tolerance] (hw : m.WellFormed) (hs : c.Suits m) :
    ∃ r, c.propagator.entailed m = .ok r ∧ (r = .never → ∀ a, m.Allows a → ¬c.Admits a) := by
  match c, hs with
  | unequal c, hs => exact Unequal.entailed_spec hw (hs.scope c.var (by simp [propagator, Unequal.propagator]))
  | unequalSum c, hs =>
    exact UnequalSum.entailed_spec hw (hs.scope c.x (by simp [propagator, UnequalSum.propagator]))
      (hs.scope c.y (by simp [propagator, UnequalSum.propagator]))
  | distance c, hs =>
    obtain ⟨r, hr, -, hnever⟩ := Distance.entailed_spec hw
      (hs.scope c.x (by simp [propagator, Distance.propagator]))
      (hs.scope c.y (by simp [propagator, Distance.propagator]))
    exact ⟨r, hr, hnever⟩
  | linear c, hs =>
    obtain ⟨r, hr, -, hnever⟩ := Linear.entailed_spec hw fun t ht => hs.scope _ (mem_linear_scope ht)
    exact ⟨r, hr, hnever hs.mirrored⟩
  | nogood c, hs => exact Nogood.entailed_spec hw fun l hl => hs.scope _ (Nogood.mem_scope hl)

/-- The conditions that propagators wait for. -/
theorem condition_cases (c : Constraint) (place : Nat) :
    c.propagator.condition place = .all ∨ c.propagator.condition place = .boundAndInst ∨
      c.propagator.condition place = .instantiation := by
  match c with
  | unequal _ => exact .inr (.inr rfl)
  | unequalSum c =>
    simp only [propagator, UnequalSum.propagator, UnequalSum.condition]
    generalize (if place = 0 then c.enumerated.1 else c.enumerated.2) = holes
    cases holes with
    | true => exact .inr (.inr rfl)
    | false => exact .inr (.inl rfl)
  | linear _ => exact .inr (.inl rfl)
  | distance c =>
    simp only [propagator, Distance.propagator, Distance.condition]
    cases c.relation with
    | ne => exact .inr (.inr rfl)
    | lt | gt => exact .inr (.inl rfl)
    | eq =>
      simp only
      generalize (if place = 0 then c.enumerated.1 else c.enumerated.2) = holes
      cases holes with
      | true => exact .inl rfl
      | false => exact .inr (.inl rfl)
  | nogood c =>
    simp only [propagator, Nogood.propagator, Nogood.condition]
    split
    · split
      · exact .inr (.inl rfl)
      · exact .inl rfl
    · exact .inl rfl

/-- Every propagator is woken when a variable of its scope is fixed. -/
theorem wakes_on_instantiation (c : Constraint) (place : Nat) :
    EventKind.instantiate.mask.intersects (c.propagator.condition place) = true := by
  rcases condition_cases c place with h | h | h <;> rw [h] <;> decide

/-- No propagator asks what woke it. -/
theorem not_reacts (c : Constraint) : c.propagator.reacts = false := by cases c <;> rfl

/-- A constraint says nothing of variables outside its scope. -/
theorem admits_congr {a b : Assignment} (h : ∀ x ∈ c.propagator.scope, a x = b x) : c.Admits a ↔ c.Admits b := by
  match c, h with
  | unequal c, h =>
    have hx := h c.var (by simp [propagator, Unequal.propagator])
    simp only [Admits, Holds, Unequal.Holds, hx]
  | unequalSum c, h =>
    have hx := h c.x (by simp [propagator, UnequalSum.propagator])
    have hy := h c.y (by simp [propagator, UnequalSum.propagator])
    simp only [Admits, Holds, UnequalSum.Holds, hx, hy]
  | distance c, h =>
    have hx := h c.x (by simp [propagator, Distance.propagator])
    have hy := h c.y (by simp [propagator, Distance.propagator])
    simp only [Admits, Holds, Distance.Holds, hx, hy]
  | linear c, h => exact Linear.admits_congr fun t ht => h t.var (mem_linear_scope ht)
  | nogood c, h =>
    have hl : ∀ l ∈ c.literals, l.Holds a ↔ l.Holds b := fun l hl => by
      rw [Literal.Holds, Literal.Holds, h l.var (Nogood.mem_scope hl)]
    simp only [Admits, Holds, Nogood.Holds]
    exact not_congr (forall₂_congr hl)

end Constraint

end FiniteDomain
