import FiniteDomain.Proofs.Constraint.Loops
import FiniteDomain.Proofs.Constraint.Soundness
import FiniteDomain.Proofs.Propagation.Fixpoint
import FiniteDomain.Proofs.Search.Traceless

/-!
# Propagation comes to an end

From whatever use a network comes, if its domains are well-formed and all that is posted are constraints, then a
propagation ends. Each execution takes one entry off the agenda, and whoever comes to it anew was called for by a change
that took a value away. So the budget is enough, and with more of it nothing would be different. Within an execution
the same holds of the loops of distances and sums.

An end need not be a result. A sum without room for its constant ends the session instead.

* `Model.Spends`: changes that are paid for with values;
* `Staffed`: what an execution needs, and `Staffed.execute`, what it leaves;
* `Staffed.drain_ends`: executions until none waits, by induction on the effort, and `Staffed.budget_suffices`;
* `drain_of_le`: more fuel makes no difference;
* `Attained.sited`: in a network in use all posts fit the model;
* `Attained.propagate_ends`.
-/

namespace FiniteDomain

open Activity

namespace Tolerance

/-- Under a condition a result that left its range is put up with. -/
@[reducible]
def roomyIf (P : Prop) : Tolerance := ⟨fun fault => fault = .overflow ∧ P⟩

end Tolerance

namespace Model

/-- From a model to one as narrow or narrower, each change of a variable was paid for with one of its values. -/
structure Spends (m m' : Model) : Prop extends Within m m' where
  pays : ∀ x, m'.changes x + m'.count x ≤ m.changes x + m.count x

namespace Spends

variable {m m' m'' : Model}

theorem trans (h1 : Spends m m') (h2 : Spends m' m'') : Spends m m'' :=
  ⟨h1.toWithin.trans h2.toWithin, fun x => (h2.pays x).trans (h1.pays x)⟩

theorem of_narrows {p : Cause → Prop} (h : Narrows p m m') : Spends m m' := ⟨h.within, h.spends⟩

/-- The domains stay, and no change was added. -/
theorem of_agrees (h : m.WellFormed) (ha : m.Agrees m') (hchanges : ∀ x, m'.changes x ≤ m.changes x) : Spends m m' := by
  refine ⟨(Recounts.of_agrees h ha).toWithin, fun x => ?_⟩
  rw [ha.count_eq]
  exact Nat.add_le_add_right (hchanges x) _

theorem clearEvents (h : m.WellFormed) : Spends m m.clearEvents :=
  .of_agrees h (.clearEvents h) fun _ => Nat.zero_le _

theorem setCell (h : m.WellFormed) {cell : Nat} (hc : ¬m.Owns cell) (value : Datum) : Spends m (m.setCell cell value) :=
  .of_agrees h (.setCell h hc value) fun _ => Nat.le_refl _

end Spends

end Model

/-- The constraint can be run on the model for an entry on the roll. -/
structure Enrolment.Serves [Tolerance] (e : Enrolment) (c : Constraint) (m : Model) : Prop where
  propagator : e.propagator = c.propagator
  proper : c.Proper
  scope : ∀ x ∈ c.propagator.scope, m.owns x = true
  apart : ¬m.Owns e.active
  room : Fault.overflow.Tolerated ∨ c.HasRoom m

theorem Enrolment.Serves.within [Tolerance] {e : Enrolment} {c : Constraint} {m m' : Model} (h : e.Serves c m)
    (hn : m.Within m') : e.Serves c m' := by
  refine ⟨h.propagator, h.proper, fun x hx => (hn.owns_eq x).trans (h.scope x hx), ?_,
    h.room.imp_right fun hroom => hroom.of_narrower hn.has⟩
  rw [Model.Owns, hn.vars]
  exact h.apart

namespace Network

variable {n n' : Network}

/-! ### One execution -/

/-- What is posted can be run: it is all of constraints that fit the model. -/
structure Staffed [Tolerance] (n : Network) : Prop where
  lawful : n.Lawful
  wellFormed : n.model.WellFormed
  serves : ∀ e ∈ n.roll, e.removed = false → ∃ c, e.Serves c n.model

section Staffed

variable [Tolerance]

theorem Staffed.evolve (h : n.Staffed) (hcoherent : n'.Coherent) (hevolves : Evolves n n')
    (hn : n.model.Within n'.model) : n'.Staffed := by
  refine ⟨h.lawful.evolve hevolves hcoherent, hn.wellFormed, fun e he hlive => ?_⟩
  obtain ⟨c, hc⟩ := h.serves e (hevolves.roll ▸ he) hlive
  exact ⟨c, hc.within hn⟩

theorem runPasses_spends {e : Enrolment} {c : Constraint} {m : Model} (h : e.Serves c m) (hw : m.WellFormed)
    (id : PropId) (full : Bool) (pending : List (Nat × EventMask)) :
    (runPasses e.propagator e.active id full pending m).Quiet fun s => m.Spends s.2 := by
  have hpasses : passes e.propagator full pending = c.propagator.run := by
    rw [passes, h.propagator, Constraint.not_reacts, Bool.not_false, Bool.or_true, if_pos rfl]
  rw [runPasses, hpasses]
  refine .bind (.report rfl) fun _ _ => ?_
  refine Quiet.bind (Constraint.filter_holds { self := id, model := m } hw h.scope h.proper h.room rfl) ?_
  rintro ⟨outcome, self, m', passive⟩ hends
  cases outcome with
  | error c => exact .bind (.report rfl) fun _ _ => .pure (.of_narrows hends.1)
  | ok u =>
    have hs : m.Spends m' := .of_narrows hends.1.narrows
    cases passive with
    | false => exact .pure hs
    | true =>
      refine .bind (.report rfl) fun _ _ => .pure (hs.trans (.setCell hs.wellFormed ?_ _))
      exact (h.within hs.toWithin).apart

/-- What an execution has done: there is less left to do. -/
structure Eases (n n' : Network) : Prop where
  spends : n.model.Spends n'.model
  executions : n'.executions = n.executions + 1
  effort : n'.effort < n.effort

/-- **An execution ends** and leaves less to do. -/
theorem Staffed.execute (h : n.Staffed) (hf : n.failed = false) {id : PropId} {agenda : Agenda}
    (hnext : n.agenda.next? = some (id, agenda)) : (Network.execute { n with agenda } id).Quiet fun s =>
      Eases n s.2 ∧ s.2.Staffed ∧ (s.1 = .ok () → s.2.failed = false) := by
  have heases : (Network.execute { n with agenda } id).Quiet fun s => Eases n s.2 := by
    obtain ⟨p, hp, hstate⟩ := h.lawful.coherent.queues.exists_next? hnext
    obtain ⟨c, hc⟩ := h.serves p.enrolment (Array.mem_map_of_mem (Array.mem_of_getElem? hp))
      (decide_eq_false (by simp [hstate]))
    simp only [Network.execute, hp]
    refine Quiet.bind (onModel_quiet { n with agenda } (runPasses_spends hc h.wellFormed id p.full p.pendingList)) ?_
    rintro ⟨outcome, -⟩ ⟨m', hspends, rfl⟩
    have hless : ∀ n' : Network, n'.agenda = agenda → n'.watchers = n.watchers → n'.model = m' →
        n'.executions = n.executions + 1 → Eases n n' := by
      rintro n' hagenda hwatchers rfl hexecutions
      exact ⟨hspends, hexecutions, effort_run hnext hagenda hwatchers hspends.vars hspends.pays⟩
    cases outcome with
    | ok u => exact .pure (hless _ rfl rfl rfl rfl)
    | error c => exact .pure (hless _ rfl rfl rfl rfl)
  have hevolves := @Gives.yields _ .worldly _ _ (h.lawful.execute hnext)
  refine ((heases.and hevolves).and (h.lawful.coherent.execute hf hnext)).mono ?_
  rintro s - ⟨⟨heases, hevolves⟩, hcoherent, -, hcalm, -⟩
  exact ⟨heases, h.evolve hcoherent hevolves heases.spends.toWithin, hcalm⟩

/-- Looking at the changes leaves the domains as they are. -/
theorem Staffed.absorb (h : n.Staffed) (hf : n.failed = false) : n.absorb.Staffed ∧ n.model.Spends n.absorb.model := by
  have hspends : n.model.Spends n.absorb.model := by
    rw [absorb_reschedules n]
    exact .clearEvents h.wellFormed
  exact ⟨h.evolve (h.lawful.coherent.absorb hf) (.absorb n) hspends.toWithin, hspends⟩

/-! ### Executions until none waits -/

/-- **Executions come to an end**: no more of them follow on each other than there is effort for. -/
theorem Staffed.drain_ends {fuel : Nat} (h : n.Staffed) (hf : n.failed = false) (hevents : n.model.events = #[])
    (hfuel : n.effort ≤ fuel) :
    (n.drain fuel).Quiet fun s => n.model.Within s.2.model ∧ s.2.executions ≤ n.executions + n.effort := by
  have hstop : n.model.Within n.model ∧ n.executions ≤ n.executions + n.effort :=
    ⟨.refl h.wellFormed, Nat.le_add_right _ _⟩
  induction fuel generalizing n with
  | zero =>
    rw [drain, if_pos (isEmpty_of_effort hfuel).2]
    exact .pure hstop
  | succ fuel ih =>
    rw [drain]
    split
    · exact .pure hstop
    · rename_i id agenda hnext
      refine Quiet.bind (h.execute hf hnext) ?_
      rintro ⟨outcome, n1⟩ hstep
      obtain ⟨heases, hstaffed, hcalm⟩ : Eases n n1 ∧ n1.Staffed ∧ (outcome = .ok () → n1.failed = false) := hstep
      have hdone := heases.executions
      have hless := heases.effort
      cases outcome with
      | error c => exact .pure ⟨heases.spends.toWithin, show n1.executions ≤ _ by omega⟩
      | ok u =>
        have hframe := absorb_reschedules n1
        have hcalm' : n1.absorb.failed = false := by
          rw [hframe]
          exact hcalm rfl
        have hdone' : n1.absorb.executions = n1.executions := by rw [hframe]
        have hless' := absorb_effort (tracked_of_spends hevents heases.spends.vars heases.spends.pays)
        obtain ⟨hstaffed', hspends⟩ := hstaffed.absorb (hcalm rfl)
        refine (ih hstaffed' hcalm' (events_absorb n1) (by omega)
          ⟨.refl hstaffed'.wellFormed, Nat.le_add_right _ _⟩).mono ?_
        rintro s ⟨hin, hle⟩
        exact ⟨(heases.spends.trans hspends).toWithin.trans hin, by omega⟩

/-- So does a propagation: the budget is enough. -/
theorem Staffed.budget_suffices (h : n.Staffed) (hf : n.failed = false) :
    (n.start.absorb.drain n.start.absorb.budget).Quiet fun s =>
      n.model.Within s.2.model ∧ s.2.executions ≤ n.executions + n.start.absorb.budget := by
  have hf : n.start.failed = false := (failed_start n).trans hf
  have hstart : n.start.Staffed := h.evolve h.lawful.coherent.start (.start n) (by
    rw [model_start]
    exact .refl h.wellFormed)
  obtain ⟨habsorb, hspends⟩ := hstart.absorb hf
  have hframe := absorb_reschedules n.start
  have hexecutions : n.start.absorb.executions = n.executions := by
    rw [hframe]
    exact executions_start n
  have heffort := effort_le_budget (events_absorb n.start)
  rw [model_start] at hspends
  refine (habsorb.drain_ends (by rw [hframe]; exact hf) (events_absorb _) heffort).mono ?_
  rintro s ⟨hin, hle⟩
  exact ⟨hspends.toWithin.trans hin, by omega⟩

end Staffed

theorem propagate_eq (hf : n.failed = false) : n.propagate = n.start.absorb.drain n.start.absorb.budget := by
  rw [propagate, hf]
  rfl

/-- Executions that came to an end leave nothing to do for more fuel. -/
theorem drain_of_le {before : Array Notice} {fuel more : Nat}
    (h : ∀ after, n.drain fuel before ≠ .error .outOfFuel after) (hle : fuel ≤ more) :
    n.drain more before = n.drain fuel before := by
  induction fuel generalizing n before more with
  | zero =>
    have hempty : n.agenda.entries = [] := by
      refine Classical.byContradiction fun hne => h before ?_
      rw [drain, if_neg (by simpa [Agenda.isEmpty] using hne)]
      rfl
    cases more with
    | zero => rfl
    | succ more => simp only [drain, Agenda.next?, Agenda.isEmpty, hempty, List.isEmpty_nil, if_true]
  | succ fuel ih =>
    obtain ⟨more, rfl⟩ : ∃ k, more = k + 1 := ⟨more - 1, by omega⟩
    cases hnext : n.agenda.next? with
    | none => simp only [drain, hnext]
    | some next =>
      obtain ⟨id, agenda⟩ := next
      simp only [drain, hnext] at h ⊢
      refine run_bind_congr fun x middle hrun => ?_
      rw [run_bind_of_ok hrun] at h
      obtain ⟨outcome, n'⟩ := x
      cases outcome with
      | error c => rfl
      | ok u => exact ih h (by omega)

/-! ### Networks in use -/

/-- The variables of a post that was not removed are variables of the model, and its cell is none of a domain. -/
structure Sited (n : Network) : Prop where
  scope : ∀ e ∈ n.roll, e.removed = false → ∀ x ∈ e.propagator.scope, n.model.owns x = true
  apart : ∀ e ∈ n.roll, e.removed = false → ¬n.model.Owns e.active

namespace Sited

/-- The model was edited, and nobody came to the roll. -/
theorem edited (h : n.Sited) (hn : n.Founded) {P : Nat → Prop} (he : n.model.Edited P n'.model)
    (hroll : ∀ e ∈ n'.roll, e.removed = false → e ∈ n.roll) : n'.Sited := by
  refine ⟨fun e hmem hlive x hx => ?_, fun e hmem hlive hc => ?_⟩
  · obtain ⟨y, hy⟩ := Model.owns_iff.mp (h.scope e (hroll e hmem hlive) hlive x hx)
    exact Model.owns_iff.mpr ⟨y, he.vars _ y hy⟩
  · have hmem := hroll e hmem hlive
    rcases he.owns _ hc with hc | hc
    · exact h.apart e hmem hlive hc
    · exact Nat.lt_irrefl _ (Nat.lt_of_lt_of_le (hn.housed e hmem) hc)

theorem evolve (h : n.Sited) (hn : n.Founded) (he : Evolves n n') : n'.Sited :=
  h.edited hn ((he.model.mono fun _ => Or.symm).edited hn.separate) fun _ hmem _ => he.roll ▸ hmem

theorem post (h : n.Sited) (hn : n.Founded) {p : Propagator} (hp : p.Lawful) :
    (n.post p).Yields fun s => s.2.Sited := by
  rintro before ⟨id, n'⟩ after hrun
  obtain ⟨-, -, hroll, hmodel⟩ := @Gives.yields _ .worldly _ _ (hn.lawful.post hp) _ _ _ hrun
  have hvars : n'.model.vars = n.model.vars := by rw [hmodel]
  have howns : ∀ c, n'.model.Owns c ↔ n.model.Owns c := fun c => by rw [Model.Owns, Model.Owns, hvars]
  refine ⟨fun e he hlive x hx => ?_, fun e he hlive hc => ?_⟩ <;> rw [hroll] at he
  · rw [Model.owns, hvars]
    rcases Array.mem_push.mp he with he | rfl
    · exact h.scope e he hlive x hx
    · exact owns_of_post hrun x hx
  · rcases Array.mem_push.mp he with he | rfl
    · exact h.apart e he hlive ((howns _).mp hc)
    · exact Nat.lt_irrefl _ (hn.separate.housed _ ((howns _).mp hc))

theorem unpost (h : n.Sited) (hn : n.Founded) (id : PropId) : (n.unpost id).Yields Sited := by
  intro before n' after hrun
  obtain ⟨-, hroll, hmodel, -⟩ := @Gives.yields _ .worldly _ _ (hn.lawful.unpost id) _ _ _ hrun
  have hsame : n.model.Edited (fun _ => False) n'.model := by
    rw [hmodel]
    exact hn.separate.keep .refl n.model.events n.model.generated
  refine h.edited hn hsame fun e he hlive => ?_
  obtain ⟨i, hi⟩ := Array.getElem?_of_mem he
  rw [hroll, Array.getElem?_modify] at hi
  split at hi
  · obtain ⟨d, -, rfl⟩ := Option.map_eq_some_iff.mp hi
    cases hlive
  · exact Array.mem_of_getElem? hi

theorem returns (h : n.Sited) (hn : n.Founded) (hr : n.Returns n') : n'.Sited := by
  obtain ⟨values, hmodel⟩ := hr.model
  have hedited : n.model.Edited (fun _ => False) n'.model := by
    rw [hmodel]
    exact hn.separate.keep (.grow values .refl) #[] n.model.generated
  refine h.edited hn hedited fun e he hlive => ?_
  obtain ⟨i, hi⟩ := Array.getElem?_of_mem he
  by_cases hlt : i < n.posts.size
  · exact Array.mem_of_getElem? ((hr.roll i hlt).symm.trans hi)
  · rw [hr.removed i e (Nat.le_of_not_lt hlt) hi] at hlive
    cases hlive

end Sited

/-- **In every network in use the posts fit the model.** -/
theorem Attained.sited (h : n.Attained) : n.Sited := by
  induction h with
  | new name => exact ⟨by simp [roll], by simp [roll]⟩
  | edit h he ih => exact ih.edited h.founded (he.spec h.founded.separate) fun _ hmem _ => hmem
  | post h hl hp ih => exact ih.post h.founded hl _ _ _ hp
  | unpost h hu ih => exact ih.unpost h.founded _ _ _ _ hu
  | start h ih => exact ih.evolve h.founded (.start _)
  | scheduleAll h ih => exact ih.evolve h.founded (.scheduleAll _)
  | propagate h hp ih =>
    obtain ⟨-, he⟩ := @Gives.yields _ .worldly _ _ h.founded.lawful.propagate _ _ _ hp
    exact ih.evolve h.founded he
  | flush h ih => exact ih.evolve h.founded (.flush _)
  | takeLast h ih => exact ⟨ih.scope, ih.apart⟩
  | search h hs hrun ih => exact ih.returns h.founded (SearchState.run_returns hs (h.founded.stays _) hrun)

/-- All that is posted and was not removed is of constraints that can be put together. -/
def Constrained (n : Network) : Prop :=
  ∀ p ∈ n.posts, p.state ≠ .removed → ∃ c : Constraint, c.Proper ∧ p.propagator = c.propagator

theorem constrained_iff : n.Constrained ↔
    ∀ e ∈ n.roll, e.removed = false → ∃ c : Constraint, c.Proper ∧ e.propagator = c.propagator := by
  constructor
  · intro h e he hlive
    obtain ⟨p, hp, rfl⟩ := Array.mem_map.mp he
    exact h p hp (of_decide_eq_false hlive)
  · exact fun h p hp hlive => h p.enrolment (Array.mem_map_of_mem hp) (decide_eq_false hlive)

/-- Another constraint can be posted. -/
theorem Constrained.post (h : n.Constrained) (hw : n.model.WellFormed) (hn : n.Lawful) {c : Constraint}
    (hproper : c.Proper) : (n.post c.propagator).Yields fun s => s.2.Constrained ∧ s.2.model.WellFormed := by
  intro before s after hrun
  obtain ⟨-, -, hroll, hmodel⟩ := @Gives.yields _ .worldly _ _ (hn.post c.lawful) _ _ _ hrun
  refine ⟨constrained_iff.mpr fun e he hlive => ?_, ?_⟩
  · rw [hroll] at he
    rcases Array.mem_push.mp he with he | rfl
    · exact constrained_iff.mp h e he hlive
    · exact ⟨c, hproper, rfl⟩
  · rw [hmodel]
    exact (Model.Agrees.grow hw _).wellFormed hw

/-- A constraint that is posted leaves no room between its constant and some sum in range. -/
def Cramped (n : Network) : Prop :=
  ∃ p ∈ n.posts, p.state ≠ .removed ∧ ∃ c : Constraint, p.propagator = c.propagator ∧ ¬c.HasRoom n.model

/-- The ways in which a propagation ends. -/
inductive Ends (n : Network) :
    EStateM.Result Fault (Array Notice) (Except Contradiction Unit × Network) → Prop
  | refused {after : Array Notice} : n.failed = true → Ends n (.error .failedNetwork after)
  | returned {outcome : Except Contradiction Unit} {n' : Network} {after : Array Notice} : n.model.Within n'.model →
      n'.executions ≤ n.executions + n.start.absorb.budget → Ends n (.ok (outcome, n') after)
  | overflowed {after : Array Notice} : n.Cramped → Ends n (.error .overflow after)

/-- A propagation ends, with more fuel in the same way, and so does each loop in it, on whatever narrower model it
runs. -/
structure Halts (n : Network) : Prop where
  ends : ∀ before, n.Ends (n.propagate before)
  enough : n.failed = false → ∀ fuel before, n.start.absorb.budget ≤ fuel →
    n.start.absorb.drain fuel before = n.propagate before
  loops : ∀ p ∈ n.posts, p.state ≠ .removed → ∀ c : Constraint, c.Proper → p.propagator = c.propagator →
    ∀ m, n.model.Within m → c.Loops m

/-- Everything posted can be run, if results beyond their range are put up with where there is no room. -/
theorem Attained.staffed (h : n.Attained) (hw : n.model.WellFormed) (hposts : n.Constrained) :
    @Staffed (.roomyIf n.Cramped) n := by
  let := Tolerance.roomyIf n.Cramped
  refine ⟨h.founded.lawful, hw, fun e he hlive => ?_⟩
  obtain ⟨p, hp, rfl⟩ := Array.mem_map.mp he
  have hremoved : p.state ≠ .removed := of_decide_eq_false hlive
  obtain ⟨c, hproper, hpropagator⟩ := hposts p hp hremoved
  have hpropagator : p.enrolment.propagator = c.propagator := hpropagator
  refine ⟨c, hpropagator, hproper, hpropagator ▸ h.sited.scope _ he hlive, h.sited.apart _ he hlive, ?_⟩
  by_cases hroom : c.HasRoom n.model
  · exact .inr hroom
  · exact .inl ⟨rfl, p, hp, hremoved, c, hpropagator, hroom⟩

/-- **Propagation ends**, in every network in use whose domains are well-formed and in which constraints are posted.
Either it is refused, as the last one failed, or it returns after no more executions than the budget allows for, or a
sum without room for its constant ends the session. -/
theorem Attained.propagate_ends (h : n.Attained)
    (hd : ∀ (i : Nat) (y : Variable), n.model.vars[i]? = some y → y.domain.WellFormed n.model.store)
    (hposts : n.Constrained) : n.Halts := by
  let := Tolerance.roomyIf n.Cramped
  have hw := h.founded.separate.wellFormed hd
  have hstaffed := h.staffed hw hposts
  refine ⟨fun before => ?_, fun hf fuel before hfuel => ?_, fun p hp hlive c hproper hpropagator m hin => ?_⟩
  · cases hf : n.failed with
    | true =>
      rw [Network.propagate, hf]
      exact .refused hf
    | false =>
      have hends := hstaffed.budget_suffices hf before
      rw [propagate_eq hf]
      generalize n.start.absorb.drain n.start.absorb.budget before = result at hends
      cases result with
      | ok s after =>
        obtain ⟨-, -, -, hin, hle⟩ := hends
        exact .returned hin hle
      | error fault after =>
        obtain ⟨-, -, -, rfl, hcramped⟩ := hends
        exact .overflowed hcramped
  · rw [propagate_eq hf]
    refine drain_of_le (fun after hrun => ?_) hfuel
    have hends := hstaffed.budget_suffices hf before
    rw [hrun] at hends
    obtain ⟨-, -, -, hfault, -⟩ := hends
    cases hfault
  · refine c.loops hin.wellFormed hproper fun x hx => ?_
    have hmem : p.enrolment ∈ n.roll := Array.mem_map_of_mem hp
    rw [hin.owns_eq]
    rw [← hpropagator] at hx
    exact h.sited.scope _ hmem (decide_eq_false hlive) x hx

/-- Two variables whose sum is to be large, and which are to keep a distance. -/
def spread? : Option Network := do
  let (x, m) ← (Model.newBounded { name := "spread" } "x" 0 10).toOption
  let (y, m) ← (m.newEnumerated "y" 0 10).toOption
  let d ← (← (Distance.ofModel m x y .eq 3).toOption).toOption
  let l ← (Linear.ofLists [1, 1] [x, y] .ge 17).toOption
  let (_, n) ← (post { model := m } (Constraint.distance d).propagator).outcome?
  let (_, n) ← (n.post (Constraint.linear l).propagator).outcome?
  return n

theorem spread_attained (h : spread? = some n) : n.Attained ∧ n.Constrained ∧ n.model.WellFormed := by
  simp only [spread?, Option.bind_eq_bind, Option.bind_eq_some_iff, toOption_eq_some] at h
  obtain ⟨⟨x, m⟩, hx, ⟨y, m'⟩, hy, _, hresult, d, rfl, l, hl, ⟨id, n₁⟩, hpost₁, ⟨id', n₂⟩, hpost₂, ⟨⟩⟩ := h
  obtain ⟨_, hpost₁⟩ := outcome?_eq_some hpost₁
  obtain ⟨_, hpost₂⟩ := outcome?_eq_some hpost₂
  have hd : (Constraint.distance d).MadeFor m' := ⟨x, y, .eq, 3, by decide, hresult⟩
  have hl : (Constraint.linear l).MadeFor m' := ⟨[1, 1], [x, y], .ge, 17, hl⟩
  have hw : m'.WellFormed := by
    refine Model.History.wellFormed (.create (.create (.start "spread") (.newBounded ?_ ?_ hx)) (.newEnumerated ?_ ?_ ?_ hy)) ?_
    all_goals simp [Value.Fits, Value.least, Value.greatest]
  have h₀ : Attained { model := m' } := ((Attained.new "spread").edit (.newBounded hx)).edit (.newEnumerated hy)
  have h₁ := h₀.post (Constraint.lawful _) hpost₁
  have hnone : Constrained { model := m' } := fun p hp => by simp at hp
  obtain ⟨hc₁, hw₁⟩ := hnone.post hw h₀.founded.lawful hd.proper _ _ _ hpost₁
  exact ⟨h₁.post (Constraint.lawful _) hpost₂, hc₁.post hw₁ h₁.founded.lawful hl.proper _ _ _ hpost₂⟩

/-- The distance runs before the sum and after it, until there are three executions. -/
theorem propagate_ends_of_spread : ∃ (n n' : Network) (after : Array Notice), n.Attained ∧
    (∀ (i : Nat) (y : Variable), n.model.vars[i]? = some y → y.domain.WellFormed n.model.store) ∧ n.Constrained ∧
      n.Halts ∧ n.propagate #[] = .ok (.ok (), n') after ∧ n'.executions = 3 := by
  have heval : spread?.bind (fun n => n.propagate.outcome?.map fun s =>
      (s.1.toBool, s.2.executions)) = some (true, 3) := by
    decide +kernel
  obtain ⟨n, hn, heval⟩ := Option.bind_eq_some_iff.mp heval
  obtain ⟨⟨outcome, n'⟩, hrun, heval⟩ := Option.map_eq_some_iff.mp heval
  obtain ⟨after, hrun⟩ := outcome?_eq_some hrun
  obtain ⟨houtcome, hexecutions⟩ := Prod.mk.inj heval
  obtain ⟨hattained, hconstrained, hw⟩ := spread_attained hn
  cases outcome with
  | error c => cases houtcome
  | ok u =>
    exact ⟨n, n', after, hattained, hw.domains, hconstrained, hattained.propagate_ends hw.domains hconstrained, hrun,
      hexecutions⟩

/-- The least value, to be taken twice with the least coefficient. -/
def least? : Option Network := do
  let (x, m) := Model.newConstant { name := "least" } Value.least
  let c ← (Linear.ofLists [Value.least, Value.least] [x, x] .ge 0).toOption
  let (_, n) ← (post { model := m } (Constraint.linear c).propagator).outcome?
  return n

theorem least_attained (h : least? = some n) : n.Attained ∧ n.Constrained ∧ n.model.WellFormed := by
  simp only [least?, Option.bind_eq_bind, Option.bind_eq_some_iff, toOption_eq_some] at h
  obtain ⟨c, hc, ⟨id, n⟩, hpost, ⟨⟩⟩ := h
  obtain ⟨_, hpost⟩ := outcome?_eq_some hpost
  have hw : (Model.newConstant { name := "least" } Value.least).2.WellFormed :=
    Model.History.wellFormed (.create (.start "least") (.newConstant (by decide))) (by simp)
  have h₀ := (Attained.new "least").edit (.newConstant Value.least)
  have hnone : Constrained { model := (Model.newConstant { name := "least" } Value.least).2 } := fun p hp => by simp at hp
  have hproper : (Constraint.linear c).Proper := Linear.coefficient_ne_zero_of_ofLists hc
  exact ⟨h₀.post (Constraint.lawful _) hpost, hnone.post hw h₀.founded.lawful hproper _ _ _ hpost⟩

/-- There the first execution ends the session. -/
theorem propagate_overflows_of_least : ∃ (n : Network) (after : Array Notice), n.Attained ∧
    (∀ (i : Nat) (y : Variable), n.model.vars[i]? = some y → y.domain.WellFormed n.model.store) ∧ n.Constrained ∧
      n.failed = false ∧ n.propagate #[] = .error .overflow after := by
  have heval : least?.bind (fun n => n.propagate.fault?.map fun fault => (n.failed, fault)) = some (false, .overflow) := by
    decide +kernel
  obtain ⟨n, hn, heval⟩ := Option.bind_eq_some_iff.mp heval
  obtain ⟨fault, hfault, heval⟩ := Option.map_eq_some_iff.mp heval
  obtain ⟨hf, rfl⟩ := Prod.mk.inj heval
  obtain ⟨after, hrun⟩ := fault?_eq_some hfault
  obtain ⟨hattained, hconstrained, hw⟩ := least_attained hn
  exact ⟨n, after, hattained, hw.domains, hconstrained, hf, hrun⟩

end Network

end FiniteDomain
