import FiniteDomain.Proofs.Propagation.Settling
import FiniteDomain.Proofs.Solver.Reachable

/-!
# Networks that are driven by decisions

Constraints are posted on the variables of a model. Then the network is propagated, and from then on decisions and
propagations follow on each other. A propagation without a contradiction ends in a fixpoint: another run of a
constraint that is awake changes nothing.

Only disequalities that wait for instantiations do not always keep to this. From a domain that admits no holes a
forbidden value can be removed once a bound has come to it, and of that they do not hear.

* `Assembled`: networks before the first propagation, with the constraints that are posted;
* `Driven`: what comes of them by decisions and propagations;
* `Driven.reaches_fixpoint`: what another run of a constraint does after a propagation.
-/

namespace FiniteDomain

open Activity

namespace Network

variable {n n' : Network} {r : Roster} {posted : Postings} {before after : Array Notice}

/-! ### Before the first propagation -/

/-- The networks that come about before anything is propagated, with the constraints that are posted. -/
inductive Assembled : Network → Postings → Prop
  | new (name : String) : Assembled { model := { name } } fun _ => none
  | edit {n : Network} {posted : Postings} {m : Model} : Assembled n posted →
      n.model.Edit (fun c => ∀ p ∈ n.posts, p.active ≠ c) m → Assembled { n with model := m } posted
  | post {n n' : Network} {posted : Postings} {c : Constraint} {id : PropId} {before after : Array Notice} :
      Assembled n posted → c.MadeFor n.model → n.postConstraint c before = .ok (id, n') after →
      Assembled n' (posted.insert id c)

/-- Nothing was propagated yet, and what the constraints were told of the domains is so. -/
structure Fresh (r : Roster) (n : Network) : Prop where
  reachable : n.Reachable
  lawful : n.Lawful
  unstarted : n.started = false
  ready : n.Ready r
  informed : ∀ id e, r id = some e → e.constraint.Informed n.model

namespace Fresh

theorem edit (h : n.Fresh r) {m : Model} (he : n.model.Edit (fun c => ∀ p ∈ n.posts, p.active ≠ c) m) :
    Fresh r { n with model := m } := by
  have hvars := (he.spec h.ready.separate).vars
  exact ⟨h.reachable.change m, h.lawful.withModel m, h.unstarted, h.ready.edit he,
    fun id e hid => (h.informed id e hid).of_vars hvars⟩

theorem post (h : n.Fresh r) {c : Constraint} (hproper : c.Proper) (hinformed : c.Informed n.model) {id : PropId}
    (hp : n.post c.propagator before = .ok (id, n') after) :
    n'.Fresh (r.insert id ⟨c, n.model.store.slots.size⟩) := by
  have hposted := h.ready.wired.posted hp
  obtain ⟨hlawful, -⟩ := @Gives.yields _ .worldly _ _ (h.lawful.post c.lawful) _ _ _ hp
  refine ⟨h.reachable.post hp, hlawful, hposted.started_eq.trans h.unstarted, h.ready.post hproper hposted, ?_⟩
  intro j e he
  have hvars : n'.model.vars = n.model.vars := by rw [hposted.model_eq]
  rcases Roster.insert_cases he with ⟨-, rfl⟩ | ⟨-, he⟩
  · exact hinformed.of_vars fun _ _ hy => hvars ▸ hy
  · exact (h.informed j e he).of_vars fun _ _ hy => hvars ▸ hy

theorem balanced (h : n.Fresh r)
    (hd : ∀ (i : Nat) (y : Variable), n.model.vars[i]? = some y → y.domain.WellFormed n.model.store) :
    n.Balanced r := by
  refine ⟨h.reachable, h.lawful, h.ready.wired.enrols, ?_, fun hst => ?_⟩
  · exact ⟨h.ready.separate.wellFormed hd,
      fun id e he => ⟨h.ready.scope id e he, h.ready.proper id e he, h.informed id e he⟩, h.ready.apart,
      h.ready.distinct⟩
  · rw [h.unstarted] at hst
    cases hst

end Fresh

theorem Assembled.exists_fresh (h : n.Assembled posted) : ∃ r, n.Fresh r ∧ r.postings = posted := by
  induction h with
  | new name =>
    refine ⟨_, ⟨.new { name }, ?_, rfl, ready_empty name, fun _ _ he => by cases he⟩, rfl⟩
    exact ⟨(Reachable.new { name }).coherent, fun e he => by simp [roll] at he⟩
  | edit _ he ih =>
    obtain ⟨r, hr, rfl⟩ := ih
    exact ⟨r, hr.edit he, rfl⟩
  | post _ hc hp ih =>
    obtain ⟨r, hr, rfl⟩ := ih
    exact ⟨_, hr.post hc.proper hc.informed hp, Roster.postings_insert r _ _⟩

/-! ### Decisions and propagations -/

/-- The networks that come of these by decisions and by propagations without a contradiction, once all domains are
well-formed. -/
inductive Driven : Network → Postings → Prop
  | start {n : Network} {posted : Postings} : Assembled n posted →
      (∀ (i : Nat) (y : Variable), n.model.vars[i]? = some y → y.domain.WellFormed n.model.store) → Driven n posted
  | decide {n n' : Network} {posted : Postings} {x : VarId} {μ : Mutation} {outcome : Except Contradiction Bool}
      {before after : Array Notice} : Driven n posted → n.narrow x μ .decision before = .ok (outcome, n') after →
      Driven n' posted
  | propagate {n n' : Network} {posted : Postings} {before after : Array Notice} : Driven n posted →
      n.propagate before = .ok (.ok (), n') after → Driven n' posted

theorem Driven.exists_balanced (h : n.Driven posted) : ∃ r, n.Balanced r ∧ r.postings = posted := by
  induction h with
  | start h hd =>
    obtain ⟨r, hr, rfl⟩ := h.exists_fresh
    exact ⟨r, hr.balanced hd, rfl⟩
  | decide _ hrun ih =>
    obtain ⟨r, hr, rfl⟩ := ih
    exact ⟨r, hr.narrow (fun _ hc => by cases hc) hrun, rfl⟩
  | propagate _ hrun ih =>
    obtain ⟨r, hr, rfl⟩ := ih
    exact ⟨r, (hr.propagate hrun).1, rfl⟩

/-- Decisions, each after a propagation without a contradiction. -/
def decideAll (n : Network) : List (VarId × Mutation) → Option Network
  | [] => some n
  | (x, μ) :: rest => do
    let (outcome, n) ← n.propagate.outcome?
    outcome.toOption
    let (_, n) ← (n.narrow x μ .decision).outcome?
    n.decideAll rest

theorem Driven.decideAll {decisions : List (VarId × Mutation)} (h : n.Driven posted)
    (hn : n.decideAll decisions = some n') : n'.Driven posted := by
  induction decisions generalizing n with
  | nil =>
    cases hn
    exact h
  | cons d rest ih =>
    simp only [Network.decideAll, Option.bind_eq_bind, Option.bind_eq_some_iff] at hn
    obtain ⟨⟨outcome, n1⟩, hrun, _, hok, ⟨_, n2⟩, hnarrow, hn⟩ := hn
    obtain rfl := toOption_eq_some.mp hok
    obtain ⟨_, hrun⟩ := outcome?_eq_some hrun
    obtain ⟨_, hnarrow⟩ := outcome?_eq_some hnarrow
    exact ih ((h.propagate hrun).decide hnarrow) hn

/-- Two variables of which the second admits holes or does not, and a constraint on their distance. -/
def couple? (holes : Bool) (relation : Relation) (constant : Int) : Option Network := do
  let (x, m) ← (Model.newBounded { name := "couple" } "x" 0 10).toOption
  let (y, m) ← (if holes then m.newEnumerated "y" 0 10 else m.newBounded "y" 0 10).toOption
  let c ← (← (Distance.ofModel m x y relation constant).toOption).toOption
  let (_, n) ← (postConstraint { model := m } (.distance c)).outcome?
  return n

theorem driven_of_couple {holes : Bool} {relation : Relation} {constant : Int} (hfits : Value.Fits constant)
    (h : couple? holes relation constant = some n) :
    ∃ posted, n.Driven posted ∧
      ∀ id c, posted id = some c → ∃ d, c = .distance d ∧ d.relation.toRelation = relation := by
  simp only [couple?, Option.bind_eq_bind, Option.bind_eq_some_iff, toOption_eq_some] at h
  obtain ⟨⟨x, m⟩, hx, ⟨y, m'⟩, hy, _, hresult, c, rfl, ⟨id, _⟩, hpost, ⟨⟩⟩ := h
  obtain ⟨log, hpost⟩ := outcome?_eq_some hpost
  have hmade : (Constraint.distance c).MadeFor m' := ⟨x, y, relation, constant, hfits, hresult⟩
  obtain ⟨values, hcreates, hedit⟩ : ∃ values, m.Creates values m' ∧ ∀ P, m.Edit P m' := by
    cases holes with
    | true =>
      have hy : m.newEnumerated "y" 0 10 = .ok (y, m') := hy
      exact ⟨_, .newEnumerated (by decide) (by decide) (by decide) hy, fun _ => .newEnumerated hy⟩
    | false =>
      have hy : m.newBounded "y" 0 10 = .ok (y, m') := hy
      exact ⟨_, .newBounded (by decide) (by decide) hy, fun _ => .newBounded hy⟩
  have hhistory := ((Model.History.start "couple").create (.newBounded (by decide) (by decide) hx)).create hcreates
  have hbase : (Solver.ofModel m').Reachable fun _ => none := .edit (.edit (.new "couple") (.newBounded hx)) (hedit _)
  have hposted := (Solver.suits_ofModel hhistory (by simp)).post hbase (c := .distance c) trivial hpost
  have hassembled : Assembled { model := m' } fun _ => none := .edit (.edit (.new "couple") (.newBounded hx)) (hedit _)
  refine ⟨_, .start (hassembled.post hmade hpost) hposted.domains, fun j d hd => ?_⟩
  rw [Postings.insert] at hd
  split at hd <;> cases hd
  exact ⟨c, rfl, (Distance.ofModel_eq_ok hresult).1⟩

/-- **A propagation without a contradiction ends in a fixpoint.** Another run of a constraint that is awake ends in
no contradiction and changes nothing, except that a disequality that waits for instantiations may find a value to
remove at the bound of an interval. -/
theorem Driven.reaches_fixpoint (h : n.Driven posted) (hrun : n.propagate before = .ok (.ok (), n') after)
    {id : PropId} {p : Post} (hp : n'.posts[id.index]? = some p) (hactive : n'.isActive p = true) :
    ∃ c, posted id = some c ∧ p.propagator = c.propagator ∧ p.propagator.run.Succeeds n'.model ∧
      (c.Clear n'.model → p.propagator.run.Leaves n'.model) := by
  obtain ⟨r, hbalanced, rfl⟩ := h.exists_balanced
  obtain ⟨hbalanced, hstills⟩ := hbalanced.propagate hrun
  obtain ⟨hlive, hflag⟩ := (Bool.and_eq_true _ _).mp hactive
  obtain ⟨e, he, hpropagator, hcell⟩ := hbalanced.enrols.exists_member hp (of_decide_eq_true hlive)
  have hw := hbalanced.seats.wellFormed
  have hseated := hbalanced.seats.seated id e he
  have hstill := hstills id e he (hcell ▸ hflag)
  refine ⟨e.constraint, Roster.postings_eq_some.mpr ⟨e, he, rfl⟩, hpropagator, ?_, fun hclear => ?_⟩
  · rw [hpropagator]
    exact hstill.succeeds hw hseated
  · rw [hpropagator]
    exact hstill.leaves hw hseated hclear

/-- An equality has removed the values without support, and another run would find no more. -/
theorem reaches_fixpoint_of_couple : ∃ (n n' : Network) (posted : Postings) (after : Array Notice) (p : Post),
    n.Driven posted ∧ n.propagate #[] = .ok (.ok (), n') after ∧ n'.posts[0]? = some p ∧ n'.isActive p = true ∧
      n'.model.values ⟨1⟩ = .ok #[7, 8] ∧ p.propagator.run.Leaves n'.model := by
  have heval : ((couple? true .eq 2).bind (·.decideAll [(⟨0⟩, .atLeast 9)])).bind (fun n =>
      n.propagate.outcome?.map fun s =>
        (s.1.toBool, s.2.posts[0]?.map s.2.isActive, (s.2.model.values ⟨1⟩).toOption)) =
      some (true, some true, some #[7, 8]) := by
    decide +kernel
  obtain ⟨n, hn, heval⟩ := Option.bind_eq_some_iff.mp heval
  obtain ⟨n₀, hcouple, hn⟩ := Option.bind_eq_some_iff.mp hn
  obtain ⟨posted, hdriven, hdistance⟩ := driven_of_couple (by decide) hcouple
  have hdriven := hdriven.decideAll hn
  obtain ⟨⟨outcome, n'⟩, hrun, heval⟩ := Option.map_eq_some_iff.mp heval
  obtain ⟨after, hrun⟩ := outcome?_eq_some hrun
  simp only [Prod.mk.injEq, Option.map_eq_some_iff, toOption_eq_some] at heval
  obtain ⟨houtcome, ⟨p, hp, hactive⟩, hvalues⟩ := heval
  cases outcome with
  | error c => cases houtcome
  | ok u =>
    have hp' : n'.posts[(⟨0⟩ : PropId).index]? = some p := hp
    obtain ⟨c, hc, -, -, hleaves⟩ := hdriven.reaches_fixpoint hrun hp' hactive
    obtain ⟨d, rfl, hrelation⟩ := hdistance _ c hc
    refine ⟨n, n', posted, after, p, hdriven, hrun, hp, hactive, hvalues, hleaves fun hne => ?_⟩
    rw [hne] at hrelation
    cases hrelation

/-- A bound has come to the value that a disequality forbids, and only another run removes it. -/
theorem misses_fixpoint_of_couple : ∃ (n n' : Network) (posted : Postings) (after : Array Notice) (p : Post),
    n.Driven posted ∧ n.propagate #[] = .ok (.ok (), n') after ∧ n'.posts[0]? = some p ∧ n'.isActive p = true ∧
      ¬p.propagator.run.Leaves n'.model := by
  have heval : ((couple? false .ne 2).bind (·.decideAll [(⟨0⟩, .assign 3), (⟨1⟩, .atLeast 5)])).bind (fun n =>
      n.propagate.outcome?.bind fun s => s.2.posts[0]?.bind fun p =>
        (p.propagator.run.run { self := ⟨0⟩, model := s.2.model }).outcome?.map fun t =>
          (s.1.toBool, s.2.isActive p, (s.2.model.lb ⟨1⟩).toOption, (t.2.model.lb ⟨1⟩).toOption)) =
      some (true, true, some 5, some 6) := by
    decide +kernel
  obtain ⟨n, hn, heval⟩ := Option.bind_eq_some_iff.mp heval
  obtain ⟨n₀, hcouple, hn⟩ := Option.bind_eq_some_iff.mp hn
  obtain ⟨posted, hdriven, -⟩ := driven_of_couple (by decide) hcouple
  have hdriven := hdriven.decideAll hn
  obtain ⟨⟨outcome, n'⟩, hrun, heval⟩ := Option.bind_eq_some_iff.mp heval
  obtain ⟨after, hrun⟩ := outcome?_eq_some hrun
  obtain ⟨p, hp, heval⟩ := Option.bind_eq_some_iff.mp heval
  obtain ⟨⟨result, t⟩, hagain, heval⟩ := Option.map_eq_some_iff.mp heval
  obtain ⟨_, hagain⟩ := outcome?_eq_some hagain
  simp only [Prod.mk.injEq, toOption_eq_some] at heval
  obtain ⟨houtcome, hactive, hbefore, hafter⟩ := heval
  cases outcome with
  | error c => cases houtcome
  | ok u =>
    refine ⟨n, n', posted, after, p, hdriven, hrun, hp, hactive, fun hleaves => ?_⟩
    obtain ⟨passive, _, hsame⟩ := hleaves { self := ⟨0⟩, model := n'.model } rfl #[]
    cases hsame.symm.trans hagain
    cases hbefore.symm.trans hafter

end Network

end FiniteDomain
