import FiniteDomain.Proofs.Search.Termination
import FiniteDomain.Proofs.Solver.Answers

/-!
# Searches that come to an end

A search ends if its restarts wait, at last, for as many nodes as a tree over all assignments can have. A policy
whose thresholds do not grow may restart for ever.

* `answer_ends`: every search of a solver that can be searched without a fault ends;
* `answer_never_ends`: unless it restarts too often.
-/

namespace FiniteDomain

namespace Solver

variable {s : Solver} {posted : Postings} {r : Roster}

/-- The solver can be searched without a fault: its domains are well-formed, no sum of a linear constraint comes too
close to an end of the range of sums, and if a strategy was set for it, it is a heuristic on variables of the
model. -/
structure Prepared (s : Solver) (posted : Postings) : Prop where
  domains : ∀ (i : Nat) (y : Variable), s.network.model.vars[i]? = some y → y.domain.WellFormed s.network.model.store
  mirrored : ∀ id c, posted id = some c → c.Mirrored s.network.model
  hasRoom : ∀ id c, posted id = some c → c.HasRoom s.network.model
  heuristic : ∀ b, s.brancher = some b → ∃ h, b = .heuristic h ∧ ∀ x ∈ h.vars, s.network.model.owns x = true

theorem Prepared.serves (hs : s.Prepared posted) : @Serves .strict s posted := by
  let := Tolerance.strict
  refine ⟨hs.domains, hs.mirrored, fun id c hc => .inr (hs.hasRoom id c hc), fun b hb => ?_⟩
  obtain ⟨h, rfl, hvars⟩ := hs.heuristic b hb
  exact fun x hx => .inr (hvars x hx)

/-! ### The pair -/

theorem pair?_eq_map (config : SearchConfig) : pair? config = (pair? {}).map fun s => { s with config } := by
  simp only [pair?, Option.bind_eq_bind]
  cases (Model.newBounded { name := "pair" } "x" 0 1).toOption with
  | none => rfl
  | some e =>
    simp only [Option.bind_some]
    cases (e.2.newBounded "y" 0 1).toOption with
    | none => rfl
    | some e' =>
      simp only [Option.bind_some]
      cases EStateM.run (Network.postConstraint { model := e'.2 } (.unequalSum ⟨e.1, e'.1, 1, (false, false)⟩)) #[] with
      | ok => rfl
      | error => rfl

theorem pair_bounds {config : SearchConfig} (h : pair? config = some s) :
    s.config = config ∧ s.brancher = none ∧ s.network.model.vars.size = 2 ∧
      ∀ i < 2, s.network.model.lb ⟨i⟩ = .ok 0 ∧ s.network.model.ub ⟨i⟩ = .ok 1 := by
  rw [pair?_eq_map] at h
  obtain ⟨s, hs, rfl⟩ := Option.map_eq_some_iff.mp h
  have heval : (pair? {}).map (fun s => (s.network.model.vars.size, s.brancher.isNone,
      [0, 1].map fun i => ((s.network.model.lb ⟨i⟩).toOption, (s.network.model.ub ⟨i⟩).toOption))) =
        some (2, true, [(some 0, some 1), (some 0, some 1)]) := by
    decide +kernel
  rw [hs] at heval
  simp only [Option.map_some, Option.some.injEq, Prod.mk.injEq, List.map_cons, List.map_nil, List.cons.injEq,
    toOption_eq_some, Option.isNone_iff_eq_none] at heval
  obtain ⟨hsize, hnone, hx, hy, -⟩ := heval
  refine ⟨rfl, hnone, hsize, fun i hi => ?_⟩
  obtain rfl | rfl : i = 0 ∨ i = 1 := by omega
  · exact hx
  · exact hy

/-- The pair can be searched, and zero for both variables is a solution. -/
theorem pair_prepared {config : SearchConfig} (h : pair? config = some s) :
    ∃ posted, s.Reachable posted ∧ s.Prepared posted ∧ s.network.model.breadth ≤ 4 ∧
      s.network.model.Allows (fun _ => 0) ∧ ∀ id c, posted id = some c → c.Admits fun _ => 0 := by
  obtain ⟨posted, hr, hsuits, hposted⟩ := pair_posted h
  obtain ⟨-, hbrancher, hsize, hbounds⟩ := pair_bounds h
  obtain ⟨r, hn, rfl⟩ := hr.exists_ready
  have hw := hn.separate.wellFormed hsuits.domains
  have hlt : ∀ x, s.network.model.owns x = true → x.index < 2 := fun x hx => hsize ▸ of_decide_eq_true hx
  refine ⟨r.postings, hr, ⟨hsuits.domains, ?_, ?_, fun b hb => ?_⟩, ?_, ?_, ?_⟩
  · intro id c hc
    obtain ⟨x, y, e, rfl⟩ := hposted id c hc
    trivial
  · intro id c hc
    obtain ⟨x, y, e, rfl⟩ := hposted id c hc
    trivial
  · rw [hbrancher] at hb
    cases hb
  · have hcount : ∀ x, s.network.model.owns x = true → s.network.model.count x ≤ 2 := by
      intro x hx
      obtain ⟨hl, hu⟩ := hbounds x.index (hlt x hx)
      obtain ⟨l, hl', -, hge⟩ := hw.lb_spec hx
      obtain ⟨u, hu', -, hle⟩ := hw.ub_spec hx
      cases hl.symm.trans hl'
      cases hu.symm.trans hu'
      exact Model.count_le_span hge hle
    have hle := Model.breadth_le hcount
    rwa [hsize] at hle
  · intro x hx
    obtain ⟨l, hl, hhas, -⟩ := hw.lb_spec hx
    cases (hbounds x.index (hlt x hx)).1.symm.trans hl
    exact hhas
  · intro id c hc
    obtain ⟨x, y, e, rfl⟩ := hposted id c hc
    exact show (0 : Int) + 0 ≠ 1 by decide

/-! ### Searches that end -/

theorem search_ends (hn : s.network.Ready r) (hs : s.Prepared r.postings) {task : SearchTask}
    (hconfig : task.config.problem? = none) (ho : ∀ o, task.objective = some o → s.network.model.owns o.var = true)
    {k : Nat} (hwaits : task.config.restart.Waits k (2 * s.network.model.breadth))
    (signals : Array Notice → Signals) {fuel : Nat}
    (hfuel : (k + s.network.model.breadth + 1) * (5 * s.network.model.breadth) ≤ fuel) :
    ∃ result s' log, s.search task (.recording signals) fuel #[] = (.ok (.ok result, s'), log) := by
  let := Tolerance.strict
  have hserves := hs.serves
  obtain ⟨⟨result, network, brancher⟩, log, hrun⟩ : ∃ e log, SearchState.run task Brancher.strategy
      (.recording signals) fuel s.network (s.brancher.getD s.defaultBrancher) #[] = (.ok e, log) :=
    SearchState.run_ends (fun _ h => h) ho (Brancher.strategy_splits _) (hserves.begins hn task)
      hserves.brancher_suits hwaits hfuel
  refine ⟨result, { s with network, brancher := s.brancher.map fun _ => brancher }, log, ?_⟩
  rw [search, hconfig]
  simp only [hrun]

theorem restart_taskOf (s : Solver) (request : Request) : (s.taskOf request).config.restart = s.config.restart := by
  cases request <;> rfl

/-- **Every search ends**, whatever was posted, whichever heuristic is followed and whatever the signals: there is
a number of turns within which it comes to a result. Only a policy with thresholds has to reach twice the number of
assignments with them. -/
theorem answer_ends (hr : s.Reachable posted) (hs : s.Prepared posted) {request : Request}
    (hconfig : (s.taskOf request).config.problem? = none)
    (ho : ∀ o, (s.taskOf request).objective = some o → s.network.model.owns o.var = true)
    (hluby : ∀ scale, s.config.restart = .luby scale → 2 * s.network.model.breadth ≤ thresholdLimit)
    (hgeometric : ∀ scale factor, s.config.restart = .geometric scale factor →
      ∃ restarts, 2 * s.network.model.breadth ≤ geometricThreshold scale factor restarts) :
    ∃ turns, ∀ (signals : Array Notice → Signals) (fuel : Nat), turns ≤ fuel → ∃ result s' log,
      s.answer request (.recording signals) fuel #[] = (.ok (.ok result, s'), log) := by
  obtain ⟨r, hn, rfl⟩ := hr.exists_ready
  have hpolicy : (s.taskOf request).config.restart.problem? = none := by
    rw [SearchConfig.problem?] at hconfig
    split at hconfig
    · cases hconfig
    · exact hconfig
  rw [restart_taskOf] at hpolicy
  obtain ⟨k, hwaits⟩ := RestartPolicy.exists_waits hpolicy hluby hgeometric
  refine ⟨(k + s.network.model.breadth + 1) * (5 * s.network.model.breadth), fun signals fuel hfuel => ?_⟩
  rw [answer_eq_search request ho]
  exact search_ends hn hs hconfig ho (by rwa [restart_taskOf]) signals hfuel

/-- A configuration whose thresholds double. -/
def doubling : SearchConfig := { restart := .geometric 1 2.0, nogoodsOnRestart := true }

set_option maxRecDepth 20000 in
/-- A search for all solutions of the pair ends, after three restarts at the latest. -/
theorem answer_ends_of_pair : ∃ (s : Solver) (posted : Postings), pair? doubling = some s ∧
    s.Reachable posted ∧ s.Prepared posted ∧
      ∃ turns, ∀ (signals : Array Notice → Signals) (fuel : Nat), turns ≤ fuel → ∃ result s' log,
        s.answer .findAll (.recording signals) fuel #[] = (.ok (.ok result, s'), log) := by
  have hsome : (pair? doubling).isSome = true := by decide +kernel
  obtain ⟨s, hs⟩ := Option.isSome_iff_exists.mp hsome
  obtain ⟨posted, hr, hprepared, hbreadth, -⟩ := pair_prepared hs
  obtain ⟨hconfig, -⟩ := pair_bounds hs
  have hthreshold : geometricThreshold 1 2.0 3 = 8 := by
    rw [geometricThreshold, powerTimes, powerTimes]
    decide +kernel
  refine ⟨s, posted, hs, hr, hprepared, answer_ends hr hprepared ?_ (fun o ho => by cases ho) ?_ ?_⟩
  · rw [taskOf, hconfig]
    exact Option.isNone_iff_eq_none.mp (by decide +kernel)
  · intro scale hscale
    rw [hconfig] at hscale
    cases hscale
  · intro scale factor hgeometric
    rw [hconfig] at hgeometric
    cases hgeometric
    exact ⟨3, by omega⟩

/-! ### Searches that do not end -/

/-- **A search that restarts at every node does not end** if it has no limits and there is something to find. -/
theorem answer_never_ends (hr : s.Reachable posted) (hs : s.Prepared posted) {request : Request}
    (hconfig : (s.taskOf request).config.problem? = none) (hlimits : (s.taskOf request).config.Unlimited)
    (ho : ∀ o, (s.taskOf request).objective = some o → s.network.model.owns o.var = true)
    (hpolicy : s.config.restart.Impatient) {signals : Array Notice → Signals}
    (hsignals : ∀ log, (signals log).cancelled = false) {a : Assignment} (hallows : s.network.model.Allows a)
    (hadmits : ∀ id c, posted id = some c → c.Admits a) (fuel : Nat) :
    ∃ log, s.answer request (.recording signals) fuel #[] = (.error .outOfFuel, log) := by
  obtain ⟨r, hn, rfl⟩ := hr.exists_ready
  let := Tolerance.strict
  have hserves := hs.serves
  have hgoal : Quest.Goal ⟨s.taskOf request, s.network.model, r⟩ a :=
    ⟨hallows, fun id e he => hadmits id _ (Roster.postings_eq_some.mpr ⟨e, he, rfl⟩)⟩
  obtain ⟨log, hrun⟩ := SearchState.run_impatient (fun _ h => h) ho (Brancher.strategy_splits _) hlimits
    (by rwa [restart_taskOf]) hsignals (hserves.begins hn (s.taskOf request)) hserves.brancher_suits hgoal fuel
  refine ⟨log, ?_⟩
  rw [answer_eq_search request ho, search, hconfig]
  simp only [hrun]

/-- A configuration that restarts at every node. -/
def impatient : SearchConfig := { restart := .geometric 1 1.0 }

set_option maxRecDepth 20000 in
/-- A search for a solution of the pair need not end, although the configuration is accepted. -/
theorem solve_never_ends_of_pair : ∃ (s : Solver) (posted : Postings), pair? impatient = some s ∧
    s.Reachable posted ∧ s.Prepared posted ∧ (s.taskOf .solve).config.problem? = none ∧
      ∀ fuel, ∃ log, s.answer .solve (.recording fun _ => {}) fuel #[] = (.error .outOfFuel, log) := by
  have hsome : (pair? impatient).isSome = true := by decide +kernel
  obtain ⟨s, hs⟩ := Option.isSome_iff_exists.mp hsome
  obtain ⟨posted, hr, hprepared, -, hallows, hadmits⟩ := pair_prepared hs
  obtain ⟨hconfig, -⟩ := pair_bounds hs
  have hproblem : (s.taskOf .solve).config.problem? = none := by
    rw [taskOf, hconfig]
    exact Option.isNone_iff_eq_none.mp (by decide +kernel)
  refine ⟨s, posted, hs, hr, hprepared, hproblem, fun fuel => ?_⟩
  refine answer_never_ends hr hprepared hproblem ?_ (fun o ho => by cases ho) ?_ (fun _ => rfl) hallows hadmits fuel
  · rw [taskOf, hconfig]
    exact ⟨rfl, rfl, rfl⟩
  · rw [hconfig]
    exact RestartPolicy.impatient_geometric_one

end Solver

end FiniteDomain
