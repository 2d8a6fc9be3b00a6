import FiniteDomain.Notice

/-!
# What activities show and end in

An activity only ever adds notices. `Ensures` says of one what it shows to the observers and what it ends in:
every moment shown fits those before it, and the result fits the moments shown, unless the activity ends in a
fault that is put up with. Which faults those are is left open: where solutions are described, all but that of
a solution that breaks a constraint; where the end of a search is proved, none.
-/

namespace FiniteDomain

/-- The faults that are put up with: what is said of a computation is said unless one of them ends it. -/
class Tolerance where
  tolerates : Fault → Prop

/-- The fault is put up with. -/
def Fault.Tolerated [Tolerance] (fault : Fault) : Prop := Tolerance.tolerates fault

/-- The fault of a solution that breaks a constraint. -/
def Fault.Violates : Fault → Prop
  | violated _ _ => True
  | _ => False

namespace Tolerance

/-- Every fault is put up with but that of a solution that breaks a constraint. -/
@[reducible]
def lax : Tolerance := ⟨fun fault => ¬fault.Violates⟩

/-- No fault is put up with. -/
@[reducible]
def strict : Tolerance := ⟨fun _ => False⟩

/-- Every fault is put up with. -/
@[reducible]
def lenient : Tolerance := ⟨fun _ => True⟩

end Tolerance

section Meets

variable [Tolerance] {α β : Type}

/-- The computation has a result with the property, unless a fault that is put up with ends it. -/
def Meets (r : Except Fault α) (Q : α → Prop) : Prop :=
  (∀ x, r = .ok x → Q x) ∧ ∀ fault, r = .error fault → fault.Tolerated

namespace Meets

variable {Q R : α → Prop}

theorem ok {x : α} (h : Q x) : Meets (.ok x) Q := by
  refine ⟨?_, fun _ hx => by cases hx⟩
  rintro _ ⟨⟩
  exact h

theorem error {fault : Fault} (h : fault.Tolerated) : Meets (.error fault) Q := by
  refine ⟨fun _ hx => (by cases hx), ?_⟩
  rintro _ ⟨⟩
  exact h

theorem of_exists {r : Except Fault α} (h : ∃ x, r = .ok x ∧ Q x) : Meets r Q := by
  obtain ⟨x, rfl, hx⟩ := h
  exact ok hx

theorem bind {r : Except Fault α} {f : α → Except Fault β} {S : β → Prop} (hr : Meets r R)
    (hf : ∀ x, R x → Meets (f x) S) : Meets (r >>= f) S := by
  cases r with
  | ok x => exact hf x (hr.1 x rfl)
  | error fault => exact error (hr.2 fault rfl)

theorem mono {r : Except Fault α} (hr : Meets r R) (h : ∀ x, R x → Q x) : Meets r Q :=
  ⟨fun x hx => h x (hr.1 x hx), hr.2⟩

omit [Tolerance] in
/-- A computation that no fault can end has a result. -/
theorem returns {r : Except Fault α} (h : @Meets .strict _ r Q) : ∃ x, r = .ok x ∧ Q x := by
  cases r with
  | ok x => exact ⟨x, rfl, h.1 x rfl⟩
  | error fault => exact (h.2 fault rfl).elim

omit [Tolerance] in
theorem lenient (r : Except Fault α) : @Meets .lenient _ r fun _ => True :=
  ⟨fun _ _ => True.intro, fun _ _ => True.intro⟩

end Meets

end Meets

/-- A call of the observers and the model that they are shown. -/
abbrev Moment := Callback × Model

/-- The moment that a notice shows. -/
def Notice.moment? : Notice → Option Moment
  | callback c m => some (c, m)
  | _ => none

/-- The moments that some notices show, oldest first. -/
def moments (notices : Array Notice) : List Moment := notices.toList.filterMap Notice.moment?

@[simp] theorem moments_empty : moments #[] = [] := rfl

theorem moments_append (a b : Array Notice) : moments (a ++ b) = moments a ++ moments b := by
  simp [moments]

namespace Activity

variable {α β : Type}

/-- Each moment of a list fits those before it. -/
def Fits (G : List Moment → Moment → Prop) (l : List Moment) : Prop := ∀ pre c post, l = pre ++ c :: post → G pre c

theorem Fits.nil {G : List Moment → Moment → Prop} : Fits G [] := by
  intro pre c post h
  exact absurd h (by simp)

theorem Fits.append {G : List Moment → Moment → Prop} {a b : List Moment} (ha : Fits G a)
    (hb : Fits (fun pre c => G (a ++ pre) c) b) : Fits G (a ++ b) := by
  intro pre c post h
  rcases List.append_eq_append_iff.mp h with ⟨l, hpre, hb'⟩ | ⟨l, ha', hpost⟩
  · rw [hpre]
    exact hb l c post hb'
  · cases l with
    | nil =>
      rw [List.append_nil] at ha'
      have hc : G (a ++ []) c := hb [] c post hpost.symm
      rwa [List.append_nil, ha'] at hc
    | cons d rest =>
      obtain ⟨rfl, -⟩ := List.cons.inj hpost
      exact ha pre c rest ha'

/-! ### What results are like -/

/-- A sequence of two steps succeeds just if each of them does. -/
theorem run_bind_eq_ok {a : Activity α} {f : α → Activity β} {before after : Array Notice} {y : β} :
    (a >>= f) before = .ok y after ↔ ∃ x middle, a before = .ok x middle ∧ f x middle = .ok y after := by
  show EStateM.bind a f before = .ok y after ↔ _
  rw [EStateM.bind]
  cases a before with
  | ok x middle =>
    constructor
    · exact fun h => ⟨x, middle, rfl, h⟩
    · rintro ⟨_, _, ⟨⟩, h⟩
      exact h
  | error fault middle =>
    constructor
    · intro h
      cases h
    · rintro ⟨_, _, ⟨⟩, _⟩

/-- After a step that succeeds the rest goes on from there. -/
theorem run_bind_of_ok {a : Activity α} {before middle : Array Notice} {x : α} (h : a before = .ok x middle)
    (f : α → Activity β) : (a >>= f) before = f x middle := by
  show EStateM.bind a f before = _
  rw [EStateM.bind, h]

/-- What comes after a step counts only from where the step leads. -/
theorem run_bind_congr {a : Activity α} {f g : α → Activity β} {before : Array Notice}
    (h : ∀ x middle, a before = .ok x middle → f x middle = g x middle) : (a >>= f) before = (a >>= g) before := by
  show EStateM.bind a f before = EStateM.bind a g before
  rw [EStateM.bind, EStateM.bind]
  cases hrun : a before with
  | error fault middle => rfl
  | ok x middle => exact h x middle hrun

/-- Whatever the activity results in has the property. -/
def Yields (a : Activity α) (Q : α → Prop) : Prop := ∀ before x after, a before = .ok x after → Q x

section Yields

variable {Q : β → Prop}

theorem Yields.pure {x : β} (h : Q x) : Yields (Pure.pure x) Q := by
  rintro _ _ _ ⟨⟩
  exact h

theorem Yields.throw {fault : Fault} : Yields (throw fault : Activity β) Q := by
  rintro _ _ _ ⟨⟩

theorem Yields.trivial (a : Activity α) : a.Yields fun _ => True := fun _ _ _ _ => True.intro

theorem Yields.bind {a : Activity α} {f : α → Activity β} {R : α → Prop} (ha : a.Yields R)
    (hf : ∀ x, R x → (f x).Yields Q) : (a >>= f).Yields Q := by
  intro before y after h
  have h : EStateM.bind a f before = .ok y after := h
  rw [EStateM.bind] at h
  cases hr : a before with
  | error fault middle =>
    rw [hr] at h
    cases h
  | ok x middle =>
    rw [hr] at h
    exact hf x (ha before x middle hr) middle y after h

/-- A step whose result does not matter. -/
theorem Yields.skip {a : Activity α} {f : α → Activity β} (hf : ∀ x, (f x).Yields Q) : (a >>= f).Yields Q :=
  .bind (.trivial a) fun x _ => hf x

/-- A question yields its answer. -/
theorem Yields.question (r : Except Fault β) : (quietly r).Yields fun x => r = .ok x := by
  intro before x after hrun
  cases r with
  | ok y =>
    cases hrun
    rfl
  | error fault => cases hrun

end Yields

variable [Tolerance]

/-- The result of the activity has the property, unless a fault that is put up with ends it. -/
def Gives (a : Activity α) (Q : α → Prop) : Prop :=
  ∀ before : Array Notice,
    match a before with
    | .ok x _ => Q x
    | .error fault _ => fault.Tolerated

section Gives

variable {Q : β → Prop}

theorem Gives.pure {x : β} (h : Q x) : Gives (Pure.pure x) Q := fun _ => h

theorem Gives.throw {fault : Fault} (h : fault.Tolerated) : Gives (throw fault : Activity β) Q := fun _ => h

theorem Gives.bind {a : Activity α} {f : α → Activity β} {R : α → Prop} (ha : Gives a R)
    (hf : ∀ x, R x → Gives (f x) Q) : Gives (a >>= f) Q := by
  intro before
  have ha := ha before
  show match EStateM.bind a f before with
    | .ok x _ => Q x
    | .error fault _ => fault.Tolerated
  rw [EStateM.bind]
  cases hr : a before with
  | error fault after =>
    rw [hr] at ha
    exact ha
  | ok x after =>
    rw [hr] at ha
    exact hf x ha after

theorem Gives.mono {a : Activity β} {R : β → Prop} (ha : Gives a R) (h : ∀ x, R x → Q x) : Gives a Q := by
  intro before
  have ha := ha before
  cases hr : a before with
  | error fault after =>
    rw [hr] at ha
    exact ha
  | ok x after =>
    rw [hr] at ha
    exact h x ha

theorem Gives.report (notice : Notice) : Gives (Activity.report notice) fun _ => True := fun _ => True.intro

theorem Gives.question {r : Except Fault β} (h : Meets r Q) : Gives (quietly r) Q := by
  cases r with
  | ok x => exact .pure (h.1 x rfl)
  | error fault => exact .throw (h.2 fault rfl)

/-- What is known of all results is known of those of an activity that no other fault ends. -/
theorem Gives.and {a : Activity β} {R : β → Prop} (ha : Gives a Q) (hr : a.Yields R) :
    Gives a fun x => Q x ∧ R x := by
  intro before
  have ha := ha before
  cases he : a before with
  | error fault after =>
    rw [he] at ha
    exact ha
  | ok x after =>
    rw [he] at ha
    exact ⟨ha, hr before x after he⟩

theorem Gives.yields {a : Activity β} (ha : Gives a Q) : a.Yields Q := by
  intro before x after hrun
  have ha := ha before
  rw [hrun] at ha
  exact ha

theorem Gives.tolerated {a : Activity β} (ha : Gives a Q) {before after : Array Notice} {fault : Fault}
    (hrun : a before = .error fault after) : fault.Tolerated := by
  have ha := ha before
  rw [hrun] at ha
  exact ha

end Gives

/-- Each moment that the activity shows fits those before it, and unless it ends in a fault that is put up with,
its result and the moments satisfy `Q`. -/
def Ensures (G : List Moment → Moment → Prop) (a : Activity α) (Q : α → List Moment → Prop) : Prop :=
  ∀ notices : Array Notice,
    match a notices with
    | .ok x after => ∃ new, after = notices ++ new ∧ Fits G (moments new) ∧ Q x (moments new)
    | .error fault after => ∃ new, after = notices ++ new ∧ Fits G (moments new) ∧ fault.Tolerated

/-- The activity shows nothing. -/
def Quiet (a : Activity α) (Q : α → Prop) : Prop := Ensures (fun _ _ => False) a fun x _ => Q x

section Ensures

variable {G : List Moment → Moment → Prop}

theorem Ensures.pure {x : α} {Q : α → List Moment → Prop} (h : Q x []) :
    Ensures G (Pure.pure x) Q := by
  intro notices
  exact ⟨#[], by simp, .nil, h⟩

theorem Ensures.bind {a : Activity α} {f : α → Activity β} {R : α → List Moment → Prop}
    {Q : β → List Moment → Prop} (ha : Ensures G a R)
    (hf : ∀ x before, R x before →
      Ensures (fun pre c => G (before ++ pre) c) (f x) fun y after => Q y (before ++ after)) :
    Ensures G (a >>= f) Q := by
  intro notices
  have ha := ha notices
  show match EStateM.bind a f notices with
    | .ok x after => ∃ new, after = notices ++ new ∧ Fits G (moments new) ∧ Q x (moments new)
    | .error fault after => ∃ new, after = notices ++ new ∧ Fits G (moments new) ∧ fault.Tolerated
  rw [EStateM.bind]
  cases hr : a notices with
  | error fault after =>
    rw [hr] at ha
    exact ha
  | ok x after =>
    rw [hr] at ha
    obtain ⟨new, rfl, hG, hR⟩ := ha
    have hf := hf x _ hR (notices ++ new)
    simp only
    cases hr' : f x (notices ++ new) with
    | error fault after =>
      rw [hr'] at hf
      obtain ⟨new', rfl, hG', hn⟩ := hf
      exact ⟨new ++ new', by rw [Array.append_assoc], by rw [moments_append]; exact hG.append hG', hn⟩
    | ok y after =>
      rw [hr'] at hf
      obtain ⟨new', rfl, hG', hQ⟩ := hf
      refine ⟨new ++ new', by rw [Array.append_assoc], ?_, ?_⟩
      · rw [moments_append]
        exact hG.append hG'
      · rw [moments_append]
        exact hQ

theorem Ensures.throw {fault : Fault} {Q : α → List Moment → Prop} (h : fault.Tolerated) :
    Ensures G (throw fault : Activity α) Q := by
  intro notices
  exact ⟨#[], by simp, .nil, h⟩

theorem Ensures.mono {a : Activity α} {Q R : α → List Moment → Prop} (ha : Ensures G a R)
    (h : ∀ x shown, R x shown → Q x shown) : Ensures G a Q := by
  intro notices
  have ha := ha notices
  cases hr : a notices with
  | error fault after =>
    rw [hr] at ha
    exact ha
  | ok x after =>
    rw [hr] at ha
    obtain ⟨new, hnew, hG, hR⟩ := ha
    exact ⟨new, hnew, hG, h x _ hR⟩

/-- What is known of all results is known of those of an activity that no other fault ends. -/
theorem Ensures.and {a : Activity α} {Q : α → List Moment → Prop} {R : α → Prop} (ha : Ensures G a Q)
    (hr : a.Yields R) : Ensures G a fun x shown => Q x shown ∧ R x := by
  intro notices
  have ha := ha notices
  cases he : a notices with
  | error fault after =>
    rw [he] at ha
    exact ha
  | ok x after =>
    rw [he] at ha
    obtain ⟨new, hnew, hG, hQ⟩ := ha
    exact ⟨new, hnew, hG, hQ, hr notices x after he⟩

/-- A notice for the observers. -/
theorem Ensures.tell {c : Callback} {m : Model} {Q : Unit → List Moment → Prop} (hG : G [] (c, m))
    (hQ : Q () [(c, m)]) : Ensures G (report (.callback c m)) Q := by
  intro notices
  refine ⟨#[.callback c m], Array.push_eq_append, ?_, hQ⟩
  intro pre d post h
  have h : [(c, m)] = pre ++ d :: post := h
  cases pre with
  | nil =>
    obtain ⟨rfl, -⟩ := List.cons.inj h
    exact hG
  | cons e rest => simp at h

theorem Quiet.ensures {a : Activity α} {R : α → Prop} {Q : α → List Moment → Prop} (ha : Quiet a R)
    (h : ∀ x, R x → Q x []) : Ensures G a Q := by
  intro notices
  have ha := ha notices
  have hnone : ∀ l, Fits (fun _ _ => False) l → l = [] := by
    intro l hl
    cases l with
    | nil => rfl
    | cons c rest => exact (hl [] c rest rfl).elim
  cases hr : a notices with
  | error fault after =>
    rw [hr] at ha
    obtain ⟨new, hnew, hG, hn⟩ := ha
    exact ⟨new, hnew, by rw [hnone _ hG]; exact .nil, hn⟩
  | ok x after =>
    rw [hr] at ha
    obtain ⟨new, hnew, hG, hR⟩ := ha
    exact ⟨new, hnew, by rw [hnone _ hG]; exact .nil, by rw [hnone _ hG]; exact h x hR⟩

/-- What shows nothing may come before anything. -/
theorem Quiet.before {a : Activity α} {f : α → Activity β} {R : α → Prop} {Q : β → List Moment → Prop}
    (ha : Quiet a R) (hf : ∀ x, R x → Ensures G (f x) Q) : Ensures G (a >>= f) Q := by
  refine Ensures.bind (R := fun x shown => shown = [] ∧ R x) (ha.ensures fun x hx => ⟨rfl, hx⟩) ?_
  rintro x before ⟨rfl, hx⟩
  exact hf x hx

end Ensures

section Quiet

variable {Q : β → Prop}

omit [Tolerance] in
/-- An activity that no fault can end returns. -/
theorem Quiet.returns {a : Activity β} (h : @Quiet _ .strict a Q) (before : Array Notice) :
    ∃ x after, a before = .ok x after ∧ Q x := by
  have h := h before
  cases hrun : a before with
  | error fault after =>
    rw [hrun] at h
    obtain ⟨-, -, -, hfault⟩ := h
    exact hfault.elim
  | ok x after =>
    rw [hrun] at h
    obtain ⟨-, -, -, hx⟩ := h
    exact ⟨x, after, rfl, hx⟩

theorem Quiet.pure {x : β} (h : Q x) : Quiet (Pure.pure x) Q := Ensures.pure h

theorem Quiet.bind {a : Activity α} {f : α → Activity β} {R : α → Prop} (ha : Quiet a R)
    (hf : ∀ x, R x → Quiet (f x) Q) : Quiet (a >>= f) Q := Quiet.before ha hf

theorem Quiet.mono {a : Activity β} {R : β → Prop} (ha : Quiet a R) (h : ∀ x, R x → Q x) : Quiet a Q :=
  Ensures.mono ha fun x _ => h x

theorem Quiet.throw {fault : Fault} (h : fault.Tolerated) : Quiet (throw fault : Activity β) Q :=
  Ensures.throw h

theorem Quiet.yields {a : Activity β} (ha : Quiet a Q) : a.Yields Q := by
  intro before x after hrun
  have ha := ha before
  rw [hrun] at ha
  obtain ⟨-, -, -, hx⟩ := ha
  exact hx

/-- A notice that is not for the observers. -/
theorem Quiet.report {notice : Notice} (h : notice.moment? = none) : Quiet (report notice) fun _ => True := by
  intro notices
  refine ⟨#[notice], Array.push_eq_append, ?_, trivial⟩
  intro pre c post hc
  simp [moments, h] at hc

/-- A question that has an answer. -/
theorem Quiet.answer {r : Except Fault β} {x : β} (hr : r = .ok x) (h : Q x) : Quiet (quietly r) Q := by
  subst hr
  exact Quiet.pure h

theorem Quiet.question {r : Except Fault β} (h : Meets r Q) : Quiet (quietly r) Q := by
  cases r with
  | ok x => exact Quiet.pure (h.1 x rfl)
  | error fault => exact Quiet.throw (h.2 fault rfl)

end Quiet

end Activity

end FiniteDomain
