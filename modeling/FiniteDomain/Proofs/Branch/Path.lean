import FiniteDomain.Branch.Alternative
import FiniteDomain.Branch.Path

/-!
# What a path leaves open

The refutations on a path that were not tried yet are what is left to search once its node is done. What was refuted
before a split at a bound is closed. The nogoods read off a path forbid just what is closed (`nogoods_forbid_iff`), so
they hold of every assignment that is left there or at the node itself (`nogoods_hold`).
-/

namespace FiniteDomain

/-- The assignment is one of the alternative being tried of each decision. -/
def OnPath (path : List Decision) (a : Assignment) : Prop := ∀ d ∈ path, d.Holds a

/-- The assignment is one of a refutation that was not tried yet. The deepest decision comes first. -/
def Remains : List Decision → Assignment → Prop
  | [], _ => False
  | d :: rest, a => (d.tried = 1 ∧ ¬d.Holds a ∧ OnPath rest a) ∨ Remains rest a

theorem onPath_nil (a : Assignment) : OnPath [] a := fun _ h => absurd h List.not_mem_nil

theorem onPath_cons {d : Decision} {path : List Decision} {a : Assignment} :
    OnPath (d :: path) a ↔ d.Holds a ∧ OnPath path a := List.forall_mem_cons

theorem not_onPath_of_remains {path : List Decision} {a : Assignment} (h : Remains path a) : ¬OnPath path a := by
  induction path with
  | nil => exact h.elim
  | cons d rest ih =>
    rw [onPath_cons]
    rintro ⟨hd, hrest⟩
    rcases h with ⟨-, hn, -⟩ | h
    · exact hn hd
    · exact ih h hrest

theorem remains_iff {path : List Decision} {a : Assignment} : Remains path a ↔
    ∃ deeper d upper, path = deeper ++ d :: upper ∧ d.tried = 1 ∧ ¬d.Holds a ∧ OnPath upper a := by
  induction path with
  | nil => simp [Remains]
  | cons d rest ih =>
    constructor
    · rintro (⟨ht, hn, hup⟩ | h)
      · exact ⟨[], d, rest, rfl, ht, hn, hup⟩
      · obtain ⟨deeper, e, upper, rfl, hrest⟩ := ih.mp h
        exact ⟨d :: deeper, e, upper, rfl, hrest⟩
    · rintro ⟨deeper, e, upper, heq, hrest⟩
      cases deeper with
      | nil =>
        cases heq
        exact .inl hrest
      | cons f deeper =>
        cases heq
        exact .inr (ih.mpr ⟨deeper, e, upper, rfl, hrest⟩)

namespace Decision

/-- The assignment is one of the first alternative. -/
def First (d : Decision) (a : Assignment) : Prop := d.split.FirstHolds d.value (a d.var)

instance (d : Decision) (a : Assignment) : Decidable (d.First a) :=
  inferInstanceAs (Decidable (d.split.FirstHolds d.value (a d.var)))

/-- The decision splits at a bound, so that neither alternative is about one value only. -/
def AtBound (d : Decision) : Prop := d.split = .lower ∨ d.split = .upper

instance (d : Decision) : Decidable d.AtBound := inferInstanceAs (Decidable (d.split = .lower ∨ d.split = .upper))

instance (d : Decision) (a : Assignment) : Decidable (d.Holds a) := by
  unfold Holds
  infer_instance

variable {d : Decision} {l : Literal} {a : Assignment}

theorem literal_holds_iff (h : d.literal? = some l) : l.Holds a ↔ d.split.FirstHolds d.value (a d.var) := by
  rw [literal?] at h
  split at h <;> rename_i hs <;> cases h <;> simp [Literal.Holds, hs, Split.FirstHolds]

theorem literal?_eq_none_iff : d.literal? = none ↔ d.AtBound := by
  rw [literal?, AtBound]
  cases d.split <;> simp

theorem var_of_literal (h : d.literal? = some l) : l.var = d.var := by
  rw [literal?] at h
  split at h <;> cases h <;> rfl

theorem holds_first (ht : d.tried = 1) : d.Holds a ↔ d.split.FirstHolds d.value (a d.var) := by
  rw [Holds, if_pos (by omega)]

theorem holds_second (ht : d.tried = 2) : d.Holds a ↔ ¬d.split.FirstHolds d.value (a d.var) := by
  rw [Holds, if_neg (by omega)]

/-- The refutation is the complement of the first alternative. -/
theorem holds_next (ht : d.tried = 1) : ({ d with tried := d.tried + 1 } : Decision).Holds a ↔ ¬d.Holds a := by
  rw [holds_first ht, holds_second (by simp [ht])]

end Decision

namespace DecisionPath

/-- The decisions from the deepest up. -/
def fromDeepest (p : DecisionPath) : List Decision := p.decisions.toList.reverse

variable {p : DecisionPath} {d : Decision}

@[simp] theorem fromDeepest_push (p : DecisionPath) (d : Decision) : (p.push d).fromDeepest = d :: p.fromDeepest := by
  simp [fromDeepest, push]

theorem last?_eq (p : DecisionPath) : p.last? = p.fromDeepest.head? := by
  rw [last?, fromDeepest, List.head?_reverse, Array.getLast?_toList]

@[simp] theorem fromDeepest_parent (p : DecisionPath) : p.parent.fromDeepest = p.fromDeepest.tail := by
  simp [fromDeepest, parent, List.tail_reverse]

theorem fromDeepest_eq_nil (h : p.last? = none) : p.fromDeepest = [] := by
  rwa [last?_eq, List.head?_eq_none_iff] at h

theorem fromDeepest_eq_cons (h : p.last? = some d) : p.fromDeepest = d :: p.parent.fromDeepest := by
  rw [last?_eq] at h
  obtain ⟨rest, hpath⟩ := List.head?_eq_some_iff.mp h
  rw [fromDeepest_parent, hpath]
  rfl

@[simp] theorem fromDeepest_replaceLast (p : DecisionPath) (d : Decision) :
    (p.replaceLast d).fromDeepest = d :: p.fromDeepest.tail := by
  rw [replaceLast, fromDeepest_push, fromDeepest_parent]

/-- The nogoods below some literals have those and literals of the decisions. -/
theorem literals_of_nogoodsBelow {path : List Decision} {above : List Literal} :
    ∀ g ∈ nogoodsBelow above path, ∀ l ∈ g.literals, l ∈ above ∨ ∃ d ∈ path, d.literal? = some l := by
  induction path generalizing above with
  | nil => exact fun g hg => absurd hg List.not_mem_nil
  | cons d rest ih =>
    rw [nogoodsBelow]
    split
    · exact fun g hg => absurd hg List.not_mem_nil
    · rename_i k hk
      have hlast : ∀ l ∈ above ++ [k], l ∈ above ∨ ∃ e ∈ d :: rest, e.literal? = some l := by
        intro l hl
        rcases List.mem_append.mp hl with hl | hl
        · exact .inl hl
        · exact .inr ⟨d, List.mem_cons_self, List.mem_singleton.mp hl ▸ hk⟩
      have hdeeper : ∀ l, (∃ e ∈ rest, e.literal? = some l) → ∃ e ∈ d :: rest, e.literal? = some l :=
        fun l ⟨e, he, hl⟩ => ⟨e, List.mem_cons_of_mem d he, hl⟩
      split
      · exact fun g hg l hl => (ih g hg l hl).elim (hlast l) fun h => .inr (hdeeper l h)
      · intro g hg l hl
        rcases List.mem_cons.mp hg with rfl | hg
        · exact hlast l hl
        · exact (ih g hg l hl).imp_right (hdeeper l)

/-- The nogoods of a path are about the variables of its decisions. -/
theorem vars_of_nogoods : ∀ g ∈ p.nogoods, ∀ l ∈ g.literals, ∃ d ∈ p.fromDeepest, l.var = d.var := by
  intro g hg l hl
  obtain ⟨d, hd, hliteral⟩ := (literals_of_nogoodsBelow g hg l hl).resolve_left List.not_mem_nil
  exact ⟨d, List.mem_reverse.mpr hd, Decision.var_of_literal hliteral⟩

/-! ### What is closed -/

/-- The assignment is one of a first alternative that was refuted, and of the alternatives being tried above it. No
decision down to that one splits at a bound. The decisions come from the root down. -/
def Closed (path : List Decision) (a : Assignment) : Prop :=
  ∃ above d below, path = above ++ d :: below ∧ (∀ e ∈ d :: above, ¬e.AtBound) ∧ d.tried = 2 ∧ d.First a ∧ OnPath above a

theorem not_closed_nil (a : Assignment) : ¬Closed [] a := by
  rintro ⟨above, d, below, h, -⟩
  simp at h

theorem closed_cons {d : Decision} {path : List Decision} {a : Assignment} :
    Closed (d :: path) a ↔ ¬d.AtBound ∧ (d.tried = 2 ∧ d.First a ∨ d.Holds a ∧ Closed path a) := by
  constructor
  · rintro ⟨above, e, below, heq, hvalues, htried, hfirst, hpath⟩
    obtain ⟨he, habove⟩ := List.forall_mem_cons.mp hvalues
    cases above with
    | nil =>
      cases heq
      exact ⟨he, .inl ⟨htried, hfirst⟩⟩
    | cons f above =>
      cases heq
      obtain ⟨hf, hrest⟩ := List.forall_mem_cons.mp habove
      obtain ⟨hholds, hpath⟩ := onPath_cons.mp hpath
      exact ⟨hf, .inr ⟨hholds, above, e, below, rfl, List.forall_mem_cons.mpr ⟨he, hrest⟩, htried, hfirst, hpath⟩⟩
  · rintro ⟨hd, ⟨htried, hfirst⟩ | ⟨hholds, above, e, below, rfl, hvalues, htried, hfirst, hpath⟩⟩
    · exact ⟨[], d, path, rfl, by simpa using hd, htried, hfirst, onPath_nil a⟩
    · obtain ⟨he, habove⟩ := List.forall_mem_cons.mp hvalues
      refine ⟨d :: above, e, below, rfl, ?_, htried, hfirst, onPath_cons.mpr ⟨hholds, hpath⟩⟩
      exact List.forall_mem_cons.mpr ⟨he, List.forall_mem_cons.mpr ⟨hd, habove⟩⟩

/-- The nogoods below some literals forbid what satisfies these and is closed. A refuted decision leaves no literal to
those below it; what takes its first alternative all the same is forbidden by its own nogood. -/
theorem exists_nogoodsBelow_iff {a : Assignment} {path : List Decision} {above : List Literal}
    (ht : ∀ d ∈ path, d.tried = 1 ∨ d.tried = 2) :
    (∃ g ∈ nogoodsBelow above path, ∀ l ∈ g.literals, l.Holds a) ↔ (∀ l ∈ above, l.Holds a) ∧ Closed path a := by
  induction path generalizing above with
  | nil => simp [nogoodsBelow, not_closed_nil]
  | cons d rest ih =>
    obtain ⟨hd, hrest⟩ := List.forall_mem_cons.mp ht
    rw [nogoodsBelow, closed_cons]
    cases hl : d.literal? with
    | none => simp [Decision.literal?_eq_none_iff.mp hl]
    | some l =>
      have hbound : ¬d.AtBound := fun h => by simp [Decision.literal?_eq_none_iff.mpr h] at hl
      have hfirst : l.Holds a ↔ d.First a := Decision.literal_holds_iff hl
      have habove : (∀ k ∈ above ++ [l], k.Holds a) ↔ (∀ k ∈ above, k.Holds a) ∧ d.First a := by
        rw [List.forall_mem_append, List.forall_mem_singleton, hfirst]
      rcases hd with h1 | h2
      · have hon : d.onFirst = true := by simp [Decision.onFirst, h1]
        have hholds : d.Holds a ↔ d.First a := Decision.holds_first h1
        simp only [hon, if_true, ih hrest, habove, h1, hholds, hbound]
        simp [and_assoc]
      · have hon : d.onFirst = false := by simp [Decision.onFirst, h2]
        have hholds : d.Holds a ↔ ¬d.First a := Decision.holds_second h2
        simp only [hon, Bool.false_eq_true, if_false, List.mem_cons, or_and_right, exists_or, exists_eq_left, ih hrest,
          habove, h2, hholds, hbound]
        by_cases h : d.First a <;> simp +contextual [h]

/-- What is left at the node of a path or in the refutations still to be tried is not closed. -/
theorem Closed.not_left {path : List Decision} {a : Assignment} (h : Closed path a) :
    ¬OnPath path a ∧ ¬Remains path.reverse a := by
  obtain ⟨above, d, below, rfl, -, htried, hfirst, habove⟩ := h
  have hd : ¬d.Holds a := fun hholds => (Decision.holds_second htried).mp hholds hfirst
  refine ⟨fun hpath => hd (hpath d (by simp)), fun hremains => ?_⟩
  obtain ⟨deeper, e, upper, heq, he1, hen, hupper⟩ := remains_iff.mp hremains
  have heq : above ++ d :: below = upper.reverse ++ e :: deeper.reverse := by
    simpa using congrArg List.reverse heq
  -- The refutation to be tried is at `d` itself, below it or above it.
  rcases List.append_eq_append_iff.mp heq with ⟨l, hupper', hrest⟩ | ⟨l, habove', hrest⟩
  · rcases List.cons_eq_append_iff.mp hrest with ⟨-, hrest⟩ | ⟨l, rfl, -⟩
    · obtain ⟨rfl, -⟩ := List.cons.inj hrest
      omega
    · exact hd (hupper d (List.mem_reverse.mp (hupper' ▸ by simp)))
  · rcases List.cons_eq_append_iff.mp hrest with ⟨-, hrest⟩ | ⟨l, rfl, -⟩
    · obtain ⟨rfl, -⟩ := List.cons.inj hrest
      omega
    · exact hen (habove e (habove' ▸ by simp))

/-- **The nogoods of a path rule out nothing that is left** at its node or in its untried refutations. -/
theorem nogoods_hold {a : Assignment} (ht : ∀ d ∈ p.fromDeepest, d.tried = 1 ∨ d.tried = 2)
    (h : OnPath p.fromDeepest a ∨ Remains p.fromDeepest a) : ∀ g ∈ p.nogoods, g.Holds a := by
  intro g hg hall
  have ht : ∀ d ∈ p.fromRoot, d.tried = 1 ∨ d.tried = 2 := fun d hd => ht d (List.mem_reverse.mpr hd)
  obtain ⟨hpath, hremains⟩ := ((exists_nogoodsBelow_iff ht).mp ⟨g, hg, hall⟩).2.not_left
  exact h.elim (fun h => hpath fun d hd => h d (List.mem_reverse.mpr hd)) hremains

/-- **The nogoods of a path forbid what is closed, and nothing else**: an assignment satisfies all literals of one of them
just if it takes a refuted first alternative, at a decision that comes before any that splits at a bound, and above it the
alternatives being tried. None that keeps to the path is forbidden. -/
theorem nogoods_forbid_iff (p : DecisionPath) (ht : ∀ d ∈ p.fromRoot, d.tried = 1 ∨ d.tried = 2) (a : Assignment) :
    ((∃ g ∈ p.nogoods, ∀ l ∈ g.literals, l.Holds a) ↔
      ∃ above d below, p.fromRoot = above ++ d :: below ∧ (∀ e ∈ d :: above, ¬e.AtBound) ∧ d.tried = 2 ∧ d.First a ∧
        ∀ e ∈ above, e.Holds a) ∧
      ((∀ d ∈ p.fromRoot, d.Holds a) → ∀ g ∈ p.nogoods, ¬∀ l ∈ g.literals, l.Holds a) := by
  have hiff : (∃ g ∈ p.nogoods, ∀ l ∈ g.literals, l.Holds a) ↔ Closed p.fromRoot a :=
    (exists_nogoodsBelow_iff ht).trans (by simp)
  refine ⟨hiff, fun hpath g hg hall => ?_⟩
  exact (hiff.mp ⟨g, hg, hall⟩).not_left.1 hpath

/-- The third decision is the first of these to forbid the assignment. Below the split nothing is read off, though its
first alternative was refuted as well. -/
theorem nogoods_forbid_third :
    let p : DecisionPath := ⟨#[⟨⟨0⟩, 1, .assign, 2⟩, ⟨⟨1⟩, 2, .remove, 1⟩, ⟨⟨2⟩, 3, .remove, 2⟩, ⟨⟨0⟩, 5, .lower, 2⟩,
      ⟨⟨1⟩, 4, .assign, 2⟩]⟩
    let a : Assignment := fun x => if x = ⟨2⟩ then 5 else 0
    (∀ d ∈ p.fromRoot, d.tried = 1 ∨ d.tried = 2) ∧ (∃ g ∈ p.nogoods, ∀ l ∈ g.literals, l.Holds a) ∧
      ¬∀ d ∈ p.fromRoot, d.Holds a := by
  intro p a
  have ht : ∀ d ∈ p.fromRoot, d.tried = 1 ∨ d.tried = 2 := by decide
  have hforbidden : ∃ g ∈ p.nogoods, ∀ l ∈ g.literals, l.Holds a :=
    (nogoods_forbid_iff p ht a).1.mpr
      ⟨[⟨⟨0⟩, 1, .assign, 2⟩, ⟨⟨1⟩, 2, .remove, 1⟩], ⟨⟨2⟩, 3, .remove, 2⟩, [⟨⟨0⟩, 5, .lower, 2⟩, ⟨⟨1⟩, 4, .assign, 2⟩],
        rfl, by decide, rfl, by decide, by decide⟩
  obtain ⟨g, hg, hall⟩ := hforbidden
  exact ⟨ht, ⟨g, hg, hall⟩, fun hpath => (nogoods_forbid_iff p ht a).2 hpath g hg hall⟩

end DecisionPath

end FiniteDomain
