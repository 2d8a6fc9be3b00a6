import FiniteDomain.Proofs.Search.Moves
import FiniteDomain.Proofs.Search.Invariant
import Mathlib.Data.Set.Finite.Range

/-!
# What a search can still cost

A decision divides the assignments on the path, so that a tree over some of them has at most twice as many nodes.
Each turn is paid for by the nodes that can still be opened before the search is done or restarts.

* `Quest.share`: the assignments at the start that are on a path;
* `SearchState.cost`: what the turns before the next restart can cost in all, where a turn that opens a node costs
  one and every other a given weight;
* `step_cost`: a turn takes its price off the cost.
-/

namespace FiniteDomain

/-! ### Assignments -/

namespace Model

variable {m : Model}

/-- The values of the assignments over the domains. -/
def tuples (m : Model) : Set (Array Int) := {values | ∃ a, m.Allows a ∧ m.valuesOf a = values}

/-- The number of assignments over the domains. -/
noncomputable def breadth (m : Model) : Nat := m.tuples.ncard

/-- An assignment chooses a value for each variable. -/
theorem tuples_eq_range (m : Model) :
    m.tuples = Set.range fun g : (i : Fin m.vars.size) → {v // m.Has ⟨i⟩ v} => Array.ofFn fun i => (g i : Int) := by
  ext values
  constructor
  · rintro ⟨a, ha, rfl⟩
    refine ⟨fun i => ⟨a ⟨i⟩, ha _ (decide_eq_true i.2)⟩, Array.ext (by simp) fun i _ h => ?_⟩
    rw [getElem_valuesOf h, Array.getElem_ofFn]
  · rintro ⟨g, rfl⟩
    refine ⟨fun x => if h : x.index < m.vars.size then g ⟨x.index, h⟩ else 0, fun x hx => ?_, ?_⟩
    · have hlt : x.index < m.vars.size := of_decide_eq_true hx
      simp only [dif_pos hlt]
      exact (g ⟨x.index, hlt⟩).2
    · refine Array.ext (by simp) fun i h hlt => ?_
      rw [getElem_valuesOf h, Array.getElem_ofFn, dif_pos]

theorem finite_tuples (m : Model) : m.tuples.Finite := by
  have hvalues : ∀ i : Fin m.vars.size, Finite {v // m.Has ⟨i⟩ v} := fun i => (m.finite_has ⟨i⟩).to_subtype
  rw [tuples_eq_range]
  exact Set.finite_range _

/-- The number of assignments is the product of the numbers of values. -/
theorem breadth_eq (m : Model) : m.breadth = ∏ i : Fin m.vars.size, m.count ⟨i⟩ := by
  have hinjective : Function.Injective fun g : (i : Fin m.vars.size) → {v // m.Has ⟨i⟩ v} =>
      Array.ofFn fun i => (g i : Int) := by
    intro g h heq
    refine funext fun i => Subtype.ext ?_
    simpa using congrArg (fun values : Array Int => values[i.1]?) heq
  rw [breadth, tuples_eq_range, ← Nat.card_coe_set_eq, Nat.card_range_of_injective hinjective, Nat.card_pi]
  exact Finset.prod_congr rfl fun i _ => Nat.card_coe_set_eq _

theorem breadth_le {k : Nat} (h : ∀ x, m.owns x = true → m.count x ≤ k) : m.breadth ≤ k ^ m.vars.size := by
  rw [breadth_eq]
  refine Nat.le_trans (Finset.prod_le_pow_card _ _ k fun i _ => h ⟨i⟩ (decide_eq_true i.2)) ?_
  rw [Finset.card_univ, Fintype.card_fin]

end Model

namespace Quest

variable {q : Quest} {path rest : List Decision} {d : Decision}

/-- The values of the assignments at the start that are on a path. -/
def tuplesOn (q : Quest) (path : List Decision) : Set (Array Int) :=
  {values | ∃ a, q.start.Allows a ∧ OnPath path a ∧ q.start.valuesOf a = values}

/-- The number of assignments at the start that are on a path. -/
noncomputable def share (q : Quest) (path : List Decision) : Nat := (q.tuplesOn path).ncard

theorem finite_tuplesOn (q : Quest) (path : List Decision) : (q.tuplesOn path).Finite :=
  q.start.finite_tuples.subset fun _ ⟨a, ha, _, heq⟩ => ⟨a, ha, heq⟩

theorem share_nil (q : Quest) : q.share [] = q.start.breadth := by
  refine congrArg Set.ncard (Set.ext fun values => ?_)
  exact ⟨fun ⟨a, ha, _, heq⟩ => ⟨a, ha, heq⟩, fun ⟨a, ha, heq⟩ => ⟨a, ha, onPath_nil a, heq⟩⟩

theorem share_pos {a : Assignment} (ha : q.start.Allows a) (hp : OnPath path a) : 0 < q.share path :=
  (Set.ncard_pos (q.finite_tuplesOn path)).mpr ⟨_, a, ha, hp, rfl⟩

/-- The alternatives of a decision divide the assignments above it. -/
theorem share_add_le (hx : q.start.owns d.var = true) :
    q.share ({ d with tried := 1 } :: rest) + q.share ({ d with tried := 2 } :: rest) ≤ q.share rest := by
  have hdisjoint : Disjoint (q.tuplesOn ({ d with tried := 1 } :: rest)) (q.tuplesOn ({ d with tried := 2 } :: rest)) := by
    refine Set.disjoint_left.mpr ?_
    rintro _ ⟨a, -, hp, rfl⟩ ⟨b, -, hp', heq⟩
    have hfirst := (Decision.holds_first rfl).mp (onPath_cons.mp hp).1
    have hsecond := (Decision.holds_second rfl).mp (onPath_cons.mp hp').1
    rw [← Model.valuesOf_eq_iff.mp heq _ hx] at hfirst
    exact hsecond hfirst
  have hunion : q.tuplesOn ({ d with tried := 1 } :: rest) ∪ q.tuplesOn ({ d with tried := 2 } :: rest) ⊆
      q.tuplesOn rest := by
    rintro _ (⟨a, ha, hp, heq⟩ | ⟨a, ha, hp, heq⟩)
    · exact ⟨a, ha, (onPath_cons.mp hp).2, heq⟩
    · exact ⟨a, ha, (onPath_cons.mp hp).2, heq⟩
  rw [share, share, ← Set.ncard_union_eq hdisjoint (q.finite_tuplesOn _) (q.finite_tuplesOn _)]
  exact Set.ncard_le_ncard hunion (q.finite_tuplesOn _)

end Quest

section Nodes

variable [Tolerance] {q : Quest} {r : Roster} {L : Assignment → Prop} {path : List Decision} {t : Store Datum}
  {d : Decision}

theorem Node.share_pos (h : Node q r L path t) : 0 < q.share path := by
  obtain ⟨a, ha⟩ := h.settles.wellFormed.exists_allows
  obtain ⟨hstart, hp⟩ := h.sound a ha
  exact Quest.share_pos hstart hp

/-- Both alternatives of a decision have an assignment. -/
theorem Node.share_alternatives_pos (h : Node q r L path t) (hd : d.Parts (q.modelAt t)) :
    0 < q.share ({ d with tried := 1 } :: path) ∧ 0 < q.share ({ d with tried := 2 } :: path) := by
  have hw := h.settles.wellFormed
  constructor
  · obtain ⟨v, hv, hfirst⟩ := hd.first
    obtain ⟨a, ha, rfl⟩ := hw.exists_allows_eq hv
    obtain ⟨hstart, hp⟩ := h.sound a ha
    exact Quest.share_pos hstart (onPath_cons.mpr ⟨(Decision.holds_first rfl).mpr hfirst, hp⟩)
  · obtain ⟨v, hv, hsecond⟩ := hd.second
    obtain ⟨a, ha, rfl⟩ := hw.exists_allows_eq hv
    obtain ⟨hstart, hp⟩ := h.sound a ha
    exact Quest.share_pos hstart (onPath_cons.mpr ⟨(Decision.holds_second rfl).mpr hsecond, hp⟩)

end Nodes

/-! ### Prices -/

/-- The most that a tree over so many assignments can cost, if a turn that opens a node costs one and every other
turn `k`: of a node that is branched on the turn, the turn down, the turn up to the refutation, and the turn up
from there. -/
def toll (k b : Nat) : Nat := (2 + 3 * k) * b - (1 + 3 * k)

theorem toll_pos (k : Nat) {b : Nat} (hb : 0 < b) : 0 < toll k b := by
  have := Nat.mul_le_mul_left (2 + 3 * k) (show 1 ≤ b from hb)
  simp only [toll]
  omega

theorem toll_add_le (k : Nat) {b b1 b2 : Nat} (h1 : 0 < b1) (h2 : 0 < b2) (hle : b1 + b2 ≤ b) :
    toll k b1 + toll k b2 + (1 + 3 * k) ≤ toll k b := by
  have hmul := Nat.mul_le_mul_left (2 + 3 * k) hle
  have h1 := Nat.mul_le_mul_left (2 + 3 * k) (show 1 ≤ b1 from h1)
  have h2 := Nat.mul_le_mul_left (2 + 3 * k) (show 1 ≤ b2 from h2)
  rw [Nat.mul_add] at hmul
  simp only [toll]
  omega

namespace Quest

variable {q : Quest} {k : Nat}

/-- What is still to be paid once the node below a path is left. -/
noncomputable def dues (q : Quest) (k : Nat) : List Decision → Nat
  | [] => k
  | d :: rest =>
    if d.tried = 1 then toll k (q.share ({ d with tried := 2 } :: rest)) + 2 * k + q.dues k rest
    else k + q.dues k rest

theorem le_dues (q : Quest) (k : Nat) (path : List Decision) : k ≤ q.dues k path := by
  cases path with
  | nil => exact Nat.le_refl k
  | cons d rest =>
    rw [dues]
    split <;> omega

end Quest

/-- What a turn costs. -/
def Turn.price (k : Nat) : Turn → Nat
  | node => 1
  | down | up => k
  | root | restart | stop => 0

namespace SearchState

variable {σ : Type}

/-- What the turns before the next restart can cost in all. -/
noncomputable def cost (q : Quest) (k : Nat) (s : SearchState σ) : Nat :=
  match s.turn with
  | .node => toll k (q.share s.path.fromDeepest) + q.dues k s.path.fromDeepest
  | .down => toll k (q.share s.path.fromDeepest.tail) - 1 + q.dues k s.path.fromDeepest.tail
  | .up => q.dues k s.path.fromDeepest
  | .root | .restart | .stop => 0

section Cost

variable {q : Quest} {s : SearchState σ} {path : List Decision} (k : Nat)

theorem cost_node (h : s.turn = .node) (hp : s.path.fromDeepest = path) :
    s.cost q k = toll k (q.share path) + q.dues k path := by
  rw [cost, h, hp]

theorem cost_down (h : s.turn = .down) {d : Decision} (hp : s.path.fromDeepest = d :: path) :
    s.cost q k = toll k (q.share path) - 1 + q.dues k path := by
  rw [cost, h, hp]
  rfl

theorem cost_up (h : s.turn = .up) (hp : s.path.fromDeepest = path) : s.cost q k = q.dues k path := by
  rw [cost, h, hp]

theorem cost_restart (h : s.turn = .restart) : s.cost q k = 0 := by
  rw [cost, h]

theorem cost_stop (h : s.turn = .stop) : s.cost q k = 0 := by
  rw [cost, h]

end Cost

variable [Tolerance] {q : Quest} {P : σ → Prop} {r : Roster} {shown : List Moment} {s s' : SearchState σ}

theorem price_le_cost (h : s.Stands q P r shown) (k : Nat) : s.turn.price k ≤ s.cost q k := by
  cases hturn : s.turn with
  | root | restart | stop => exact Nat.zero_le _
  | node =>
    simp only [Stands, hturn] at h
    have hpos := toll_pos k h.2.2.1.share_pos
    rw [cost_node k hturn rfl]
    exact Nat.le_trans hpos (Nat.le_add_right _ _)
  | down =>
    rw [cost, hturn]
    exact Nat.le_trans (q.le_dues k _) (Nat.le_add_left _ _)
  | up =>
    rw [cost_up k hturn rfl]
    exact q.le_dues k _

/-- **A turn takes its price off the cost**, unless the search goes back to the root. -/
theorem step_cost (h : s.Stands q P r shown) (hmoves : Moves q.task s s') (hturn : s.turn ≠ .restart) (k : Nat) :
    s'.cost q k + s.turn.price k ≤ s.cost q k := by
  cases hmoves with
  | stop next =>
    rw [cost_stop k next, Nat.zero_add]
    exact price_le_cost h k
  | due _ next =>
    rw [cost_restart k next, Nat.zero_add]
    exact price_le_cost h k
  | decide turn next d path =>
    simp only [Stands, turn] at h
    have hpos := toll_pos k h.2.2.1.share_pos
    have hpath : s'.path.fromDeepest = d :: s.path.fromDeepest := by rw [path, DecisionPath.fromDeepest_push]
    rw [cost_down k next hpath, cost_node k turn rfl, turn, Turn.price]
    omega
  | find turn next path =>
    simp only [Stands, turn] at h
    have hpos := toll_pos k h.2.2.1.share_pos
    have hle : s'.cost q k ≤ q.dues k s.path.fromDeepest := by
      split at next
      · rw [cost_restart k next]
        exact Nat.zero_le _
      · rw [cost_up k next (by rw [path])]
    rw [cost_node k turn rfl, turn, Turn.price]
    omega
  | enter turn next d rest path tried path' =>
    have hle : s'.cost q k ≤ toll k (q.share ({ d with tried := d.tried + 1 } :: rest)) +
        q.dues k ({ d with tried := d.tried + 1 } :: rest) := by
      rcases next with next | next
      · exact Nat.le_of_eq (cost_node k next path')
      · exact Nat.le_trans (Nat.le_of_eq (cost_up k next path')) (Nat.le_add_left _ _)
    rcases turn with turn | turn
    · -- the first alternative: the turns up to the refutation and from there are still to come
      simp only [Stands, turn, path] at h
      obtain ⟨e, upper, heq, -, -, hnode, hsplits⟩ := h
      obtain ⟨rfl, rfl⟩ := List.cons.inj heq
      obtain ⟨h1, h2⟩ := hnode.share_alternatives_pos hsplits.toParts
      have hadd := toll_add_le k h1 h2 (Quest.share_add_le hsplits.owns)
      simp only [hsplits.untried, Nat.zero_add, Quest.dues, if_pos] at hle
      rw [cost_down k turn path, turn, Turn.price]
      omega
    · -- the refutation
      simp only [Stands, turn, path] at h
      obtain ⟨-, u, -, hrung, -⟩ := h
      have h1 : d.tried = 1 := by
        have := tried turn
        have := hrung.tried
        omega
      have hdues : q.dues k (d :: rest) = toll k (q.share ({ d with tried := 2 } :: rest)) + 2 * k + q.dues k rest :=
        if_pos h1
      simp only [h1, Nat.reduceAdd, Quest.dues, show ¬(2 = 1) by decide, if_false] at hle
      rw [cost_up k turn path, turn, Turn.price, hdues]
      omega
  | close turn next d rest path tried path' =>
    have hdues : q.dues k (d :: rest) = k + q.dues k rest := if_neg (by omega)
    rw [cost_up k next path', cost_up k turn path, turn, Turn.price, hdues]
    omega
  | restart turn => exact absurd turn hturn

end SearchState

end FiniteDomain
