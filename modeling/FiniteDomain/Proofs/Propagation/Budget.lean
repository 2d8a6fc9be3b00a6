import FiniteDomain.Proofs.Propagation.Wiring
import Mathlib.Algebra.Order.BigOperators.Group.Finset

/-!
# The budget of a propagation

What is still to be run is what waits now, and for each change still to be looked at and each value that can
still go, those who watch its variable. A run takes one entry off the agenda, and each change that it makes
takes a value away, so this *effort* falls with every run and is never more than the budget.

* `absorb_effort`: looking at the changes only moves effort to the agenda;
* `effort_run`: a run lowers it;
* `effort_le_budget`.
-/

namespace FiniteDomain

namespace Network

/-- The number of places at which a variable is watched. -/
def audience (n : Network) (i : Nat) : Nat := (n.watchers[i]?.getD #[]).size

/-- The number of those who wait. -/
def load (n : Network) : Nat := n.agenda.ids.length

/-- The number of runs that are waiting or can still be called for. -/
noncomputable def effort (n : Network) : Nat :=
  n.load + ∑ i ∈ Finset.range n.model.vars.size, (n.model.changes ⟨i⟩ + n.model.count ⟨i⟩) * n.audience i

/-- No change still to be looked at is one of a variable outside the model. -/
def Tracked (n : Network) : Prop := ∀ e ∈ n.model.events, e.var.index < n.model.vars.size

/-- Without effort nobody waits. -/
theorem isEmpty_of_effort {n : Network} (h : n.effort ≤ 0) : n.agenda.ids = [] ∧ n.agenda.isEmpty = true := by
  have hids : n.agenda.ids = [] :=
    List.eq_nil_of_length_eq_zero (Nat.eq_zero_of_add_eq_zero_right (Nat.le_zero.mp h))
  refine ⟨hids, ?_⟩
  rw [Agenda.isEmpty, List.isEmpty_iff]
  exact List.map_eq_nil_iff.mp hids

/-! ### Waking -/

/-- From the first network to the second at most so many came to the agenda, and nothing else changed that effort
depends on. -/
structure Loads (k : Nat) (n n' : Network) : Prop where
  watchers : n'.watchers = n.watchers
  model : n'.model = n.model
  load : n'.load ≤ n.load + k

variable {n n' n'' : Network} {j k : Nat}

theorem Loads.refl (n : Network) : Loads 0 n n := ⟨rfl, rfl, Nat.le_refl _⟩

theorem Loads.mono (h : Loads j n n') (hjk : j ≤ k) : Loads k n n' := by
  have := h.load
  exact ⟨h.watchers, h.model, by omega⟩

theorem Loads.trans (h1 : Loads j n n') (h2 : Loads k n' n'') : Loads (j + k) n n'' := by
  have := h1.load
  have := h2.load
  exact ⟨h2.watchers.trans h1.watchers, h2.model.trans h1.model, by omega⟩

theorem length_insertEntry (entry : Priority × PropId) (l : List (Priority × PropId)) :
    (Agenda.insertEntry entry l).length = l.length + 1 := by
  induction l with
  | nil => rfl
  | cons e rest ih =>
    rw [Agenda.insertEntry]
    split <;> simp [ih]

theorem wake_loads (n : Network) (id : PropId) (p : Post) : Loads 1 n (n.wake id p) := by
  rw [wake]
  split
  · refine ⟨rfl, rfl, Nat.le_of_eq ?_⟩
    simp [load, Agenda.ids, Agenda.enqueue, length_insertEntry]
  · exact ⟨rfl, rfl, Nat.le_succ _⟩

theorem notify_loads (n : Network) (e : Event) (w : Watcher) : Loads 1 n (n.notify e w) := by
  have hrefl : Loads 1 n n := (Loads.refl n).mono (Nat.zero_le 1)
  rw [notify]
  split
  · exact hrefl
  · split
    · exact hrefl
    · split
      · exact wake_loads n _ _
      · exact hrefl

theorem distribute_loads (n : Network) (e : Event) : Loads (n.audience e.var.index) n (n.distribute e) := by
  have haux : ∀ (l : List Watcher) (n : Network), Loads l.length n (l.foldl (fun n w => n.notify e w) n) := by
    intro l
    induction l with
    | nil => exact fun n => .refl n
    | cons w rest ih =>
      intro n
      rw [List.foldl_cons, List.length_cons, Nat.add_comm]
      exact (notify_loads n e w).trans (ih _)
  rw [distribute, audience]
  split
  · rename_i ws hws
    rw [hws, ← Array.foldl_toList]
    exact haux ws.toList n
  · rename_i hws
    rw [hws]
    exact .refl n

/-! ### Looking at the changes -/

/-- Each change calls for those who watch its variable. -/
theorem foldl_distribute_load (l : List Event) (n : Network) (hl : ∀ e ∈ l, e.var.index < n.model.vars.size) :
    ∃ k, Loads k n (l.foldl distribute n) ∧
      k = ∑ i ∈ Finset.range n.model.vars.size, (l.countP fun e => e.var = ⟨i⟩) * n.audience i := by
  induction l generalizing n with
  | nil => exact ⟨0, .refl n, by simp⟩
  | cons e rest ih =>
    obtain ⟨he, hrest⟩ := List.forall_mem_cons.mp hl
    have h1 := distribute_loads n e
    have hsize : (n.distribute e).model.vars.size = n.model.vars.size := by rw [h1.model]
    have haudience : ∀ i, (n.distribute e).audience i = n.audience i := fun i => by rw [audience, audience, h1.watchers]
    obtain ⟨k, hk, heq⟩ := ih (n.distribute e) (by rwa [hsize])
    refine ⟨_, h1.trans hk, ?_⟩
    have hself : ∑ i ∈ Finset.range n.model.vars.size, (if e.var = ⟨i⟩ then 1 else 0) * n.audience i =
        n.audience e.var.index := by
      rw [Finset.sum_eq_single e.var.index]
      · rw [if_pos rfl, Nat.one_mul]
      · intro i _ hne
        rw [if_neg fun hi => hne (by rw [hi]), Nat.zero_mul]
      · exact fun hn => absurd (Finset.mem_range.mpr he) hn
    simp only [List.countP_cons, Nat.add_mul, Finset.sum_add_distrib, decide_eq_true_eq, hself, heq, hsize, haudience]
    exact Nat.add_comm _ _

/-- **Looking at the changes** only moves effort to the agenda. -/
theorem absorb_effort (h : n.Tracked) : n.absorb.effort ≤ n.effort := by
  obtain ⟨k, hk, heq⟩ := foldl_distribute_load n.model.events.toList { n with model := n.model.clearEvents }
    fun e he => h e (Array.mem_toList_iff.mp he)
  have habsorb : n.absorb = n.model.events.toList.foldl distribute { n with model := n.model.clearEvents } := by
    rw [absorb, ← Array.foldl_toList]
  rw [← habsorb] at hk
  have hload : n.absorb.load ≤ n.load + k := hk.load
  have haudience : ∀ i, n.absorb.audience i = n.audience i := fun i => by rw [audience, audience, hk.watchers]
  have hsum : n.effort = n.load + k + ∑ i ∈ Finset.range n.model.vars.size, n.model.count ⟨i⟩ * n.audience i := by
    simp only [effort, Nat.add_mul, Finset.sum_add_distrib, heq]
    exact (Nat.add_assoc _ _ _).symm
  have hclear : n.absorb.effort = n.absorb.load +
      ∑ i ∈ Finset.range n.model.vars.size, n.model.count ⟨i⟩ * n.audience i := by
    simp only [effort, hk.model, haudience]
    congr 1
    refine Finset.sum_congr rfl fun i _ => ?_
    rw [show n.model.clearEvents.changes ⟨i⟩ = 0 from rfl, Nat.zero_add]
    rfl
  omega

/-! ### Runs -/

/-- **A run lowers the effort**: it takes an entry off the agenda, and pays for each change with a value. -/
theorem effort_run {id : PropId} {agenda : Agenda} (hnext : n.agenda.next? = some (id, agenda))
    (hagenda : n'.agenda = agenda) (hwatchers : n'.watchers = n.watchers) (hvars : n'.model.vars = n.model.vars)
    (hspends : ∀ x, n'.model.changes x + n'.model.count x ≤ n.model.changes x + n.model.count x) :
    n'.effort < n.effort := by
  have hload : n'.load + 1 = n.load := by
    rw [load, load, hagenda, Agenda.ids_of_next? hnext, List.length_cons]
  have haudience : ∀ i, n'.audience i = n.audience i := fun i => by rw [audience, audience, hwatchers]
  have hsum : ∑ i ∈ Finset.range n.model.vars.size, (n'.model.changes ⟨i⟩ + n'.model.count ⟨i⟩) * n.audience i ≤
      ∑ i ∈ Finset.range n.model.vars.size, (n.model.changes ⟨i⟩ + n.model.count ⟨i⟩) * n.audience i :=
    Finset.sum_le_sum fun i _ => Nat.mul_le_mul_right _ (hspends ⟨i⟩)
  simp only [effort, hvars, haudience]
  omega

/-- Changes that were paid for are changes of variables of the model. -/
theorem tracked_of_spends (hevents : n.model.events = #[]) (hvars : n'.model.vars = n.model.vars)
    (hspends : ∀ x, n'.model.changes x + n'.model.count x ≤ n.model.changes x + n.model.count x) : n'.Tracked := by
  intro e he
  refine Classical.byContradiction fun hn => ?_
  have hnone : n.model.count e.var = 0 := by
    refine (Set.ncard_eq_zero (n.model.finite_has e.var)).mpr (Set.eq_empty_of_forall_notMem fun v hv => hn ?_)
    rw [hvars]
    exact of_decide_eq_true (Model.Has.owns hv)
  have hzero : n.model.changes e.var = 0 := by rw [Model.changes, hevents]; rfl
  have hpos : 0 < n'.model.changes e.var :=
    List.countP_pos_iff.mpr ⟨e, Array.mem_toList_iff.mpr he, decide_eq_true rfl⟩
  have := hspends e.var
  omega

/-! ### The budget -/

theorem sum_le_foldr {α : Type} (f : α × Nat → Nat) (g : Nat → Nat) (l : List α) (start rest : Nat)
    (h : ∀ e ∈ l.zipIdx start, g e.2 ≤ f e) :
    rest + ∑ i ∈ Finset.range l.length, g (start + i) ≤ (l.zipIdx start).foldr (fun e sum => f e + sum) rest := by
  induction l generalizing start with
  | nil => simp
  | cons x l ih =>
    rw [List.zipIdx_cons] at h ⊢
    obtain ⟨hx, hl⟩ := List.forall_mem_cons.mp h
    have hx : g start ≤ f (x, start) := hx
    have ih := ih (start + 1) hl
    have hshift : ∑ i ∈ Finset.range l.length, g (start + (i + 1)) = ∑ i ∈ Finset.range l.length, g (start + 1 + i) :=
      Finset.sum_congr rfl fun i _ => congrArg g (by omega)
    rw [List.length_cons, Finset.sum_range_succ', List.foldr_cons, hshift, Nat.add_zero, ← Nat.add_assoc]
    exact Nat.le_trans (Nat.add_le_add ih hx) (Nat.le_of_eq (Nat.add_comm _ _))

/-- **The budget covers the effort**, once all changes were looked at. -/
theorem effort_le_budget (hevents : n.model.events = #[]) : n.effort ≤ n.budget := by
  refine Nat.le_trans (Nat.le_of_eq ?_) (sum_le_foldr (fun e => width n.model e.1 * (n.watchers[e.2]?.getD #[]).size)
    (fun i => n.model.count ⟨i⟩ * n.audience i) n.model.vars.toList 0 n.agenda.entries.length ?_)
  · simp only [effort, load, Agenda.ids, List.length_map, Array.length_toList, Nat.zero_add]
    congr 1
    refine Finset.sum_congr rfl fun i _ => ?_
    rw [Model.changes, hevents, show (#[] : Array Event).toList.countP _ = 0 from rfl, Nat.zero_add]
  · rintro ⟨y, i⟩ hmem
    have hy : n.model.vars[(VarId.mk i).index]? = some y := by
      rw [← Array.getElem?_toList]
      exact List.mk_mem_zipIdx_iff_getElem?.mp hmem
    refine Nat.mul_le_mul_right _ (Model.count_le_span (fun v hv => ?_) fun v hv => ?_)
    · exact ((Model.has_iff hy).mp hv).within.1
    · exact ((Model.has_iff hy).mp hv).within.2

end Network

end FiniteDomain
