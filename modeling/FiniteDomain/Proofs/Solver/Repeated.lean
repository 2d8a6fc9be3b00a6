import FiniteDomain.Proofs.Search.Again
import FiniteDomain.Proofs.Solver.Reachable

/-!
# Repeated searches

A solver that is asked the same twice in a row gives the same answer.

* `Solver.answer_eq_ok`: when a request is answered;
* `Solver.Repeatable`, `Solver.repeated_answers`: the second answer.
-/

namespace FiniteDomain

open SearchState (rooted)

/-- A heuristic that picks nothing at random. -/
def Brancher.Plain : Brancher → Prop
  | heuristic g => g.Plain
  | script _ => False

namespace Solver

variable {μ ν : Type} {s s' : Solver} {request : Request} {o : Observer μ} {o' : Observer ν} {fuel : Nat} {m m₁ : μ}
  {result : SearchResult}

/-- **When a request is answered**: the configuration is accepted, the variable of the objective is known, and the search
comes to an end. -/
theorem answer_eq_ok : s.answer request o fuel m = (.ok (.ok result, s'), m₁) ↔
    (∀ o, (s.taskOf request).objective = some o → s.network.model.owns o.var = true) ∧
      (s.taskOf request).config.problem? = none ∧
      ∃ network brancher, SearchState.run (s.taskOf request) Brancher.strategy o fuel s.network
        (s.brancher.getD s.defaultBrancher) m = (.ok (result, network, brancher), m₁) ∧
        s' = { s with network, brancher := s.brancher.map fun _ => brancher } := by
  have hsearch : ∀ task, s.search task o fuel m = (.ok (.ok result, s'), m₁) ↔ task.config.problem? = none ∧
      ∃ network brancher, SearchState.run task Brancher.strategy o fuel s.network
        (s.brancher.getD s.defaultBrancher) m = (.ok (result, network, brancher), m₁) ∧
        s' = { s with network, brancher := s.brancher.map fun _ => brancher } := by
    intro task
    rw [search]
    constructor
    · intro h
      split at h
      · cases h
      · rename_i hproblem
        dsimp only at h
        split at h
        · cases h
        · rename_i result network brancher m₁ hrun
          cases h
          exact ⟨hproblem, network, brancher, hrun, rfl⟩
    · rintro ⟨hproblem, network, brancher, hrun, rfl⟩
      rw [hproblem]
      dsimp only
      rw [hrun]
  constructor
  · intro h
    have ho : ∀ o, (s.taskOf request).objective = some o → s.network.model.owns o.var = true := by
      cases request with
      | solve | findAll => exact fun o ho => by cases ho
      | findBest objective =>
        rw [answer, findBest] at h
        split at h
        · rename_i howns
          rintro _ ⟨⟩
          exact howns
        · cases h
    rw [answer_eq_search request ho] at h
    exact ⟨ho, (hsearch _).mp h⟩
  · rintro ⟨ho, hanswered⟩
    rw [answer_eq_search request ho]
    exact (hsearch _).mpr hanswered

/-- A solver whose searches can be repeated. Its constraints are shipped ones, the strategy picks nothing at random, no
time limit is set, and those that already wait do not stand in front of others that were posted before them. -/
structure Repeatable (s : Solver) : Prop where
  attained : s.network.Attained
  shipped : s.network.Shipped
  plain : ∀ b, s.brancher = some b → b.Plain
  untimed : s.config.timeLimitMs = none
  inLine : (rooted s.network).agenda.InLine

/-- The heuristic that a search follows. -/
theorem Repeatable.exists_heuristic (h : s.Repeatable) :
    ∃ g : Heuristic, g.Plain ∧ s.brancher.getD s.defaultBrancher = .heuristic g := by
  cases hb : s.brancher with
  | none =>
    refine ⟨.ofSeed s.network.model.allVars.toList .inputOrder .min (s.config.seed.getD 0), ⟨?_, ?_⟩, rfl⟩ <;>
    · rw [Heuristic.ofSeed]
      nofun
  | some b =>
    cases b with
    | heuristic g => exact ⟨g, h.plain _ hb, rfl⟩
    | script answers => exact (h.plain _ hb).elim

theorem Repeatable.timeLimitMs_taskOf (h : s.Repeatable) (request : Request) :
    (s.taskOf request).config.timeLimitMs = none := by
  cases request <;> exact h.untimed

/-- What a search leaves of the solver can be searched again, and the next search follows the same heuristic. -/
theorem Repeatable.after (h : s.Repeatable) {g : Heuristic} (hg : g.Plain)
    (hb : s.brancher.getD s.defaultBrancher = .heuristic g) (ho : ∀ m, (o.signals m).cancelled = false)
    {network : Network} {brancher : Brancher}
    (hrun : SearchState.run (s.taskOf request) Brancher.strategy o fuel s.network (.heuristic g) m =
      (.ok (result, network, brancher), m₁))
    (hopened : 0 < result.measures.nodes ∨ result.stopped ≠ none) :
    let t : Solver := { s with network, brancher := s.brancher.map fun _ => brancher }
    t.Repeatable ∧ t.network.model.vars = s.network.model.vars ∧
      Brancher.Twins g (.heuristic g) (t.brancher.getD t.defaultBrancher) := by
  have hs := Brancher.strategy_lawful
  have hreturns := SearchState.run_returns hs (h.attained.founded.stays _) hrun
  obtain ⟨hline, c, htwins⟩ := h.attained.inLine_after h.shipped h.inLine hs (Brancher.strategy_echoes hg)
    (h.timeLimitMs_taskOf request) ho (.refl g) hrun hopened
  intro t
  have hvars : t.network.model.vars = s.network.model.vars := by
    obtain ⟨values, hmodel⟩ := hreturns.model
    show network.model.vars = s.network.model.vars
    rw [hmodel]
  refine ⟨⟨h.attained.search hs hrun, h.shipped.learns hreturns.learns, fun b hset => ?_, h.untimed, hline⟩, hvars, ?_⟩
  · obtain ⟨_, -, rfl⟩ := Option.map_eq_some_iff.mp hset
    obtain ⟨draws, -⟩ := htwins
    exact ⟨hg.varSelector, hg.valSelector⟩
  · cases hset : s.brancher with
    | none =>
      -- without a strategy of its own the solver makes a new one, of the same variables
      have hdefault : t.defaultBrancher = s.defaultBrancher := by
        rw [defaultBrancher, defaultBrancher, Model.allVars, Model.allVars, hvars]
      rw [hset] at hb
      rw [show t.brancher = none from congrArg (Option.map _) hset, Option.getD_none, hdefault,
        show s.defaultBrancher = .heuristic g from hb]
      exact .refl g
    | some b =>
      rw [show t.brancher = some brancher from congrArg (Option.map _) hset]
      exact htwins.of_heuristic

/-- **The second answer is the first one**, but for the time: the status, why the search stopped, the solutions in their
order, and what was counted. The first search went on beyond its root; one that fails there leaves full passes to the
next. Nobody cancels, whoever listens. The same holds of the next answer. -/
theorem repeated_answers (h : s.Repeatable) (ho : ∀ m, (o.signals m).cancelled = false)
    (ho' : ∀ m, (o'.signals m).cancelled = false) (hanswer : s.answer request o fuel m = (.ok (.ok result, s'), m₁))
    (hopened : 0 < result.measures.nodes ∨ result.stopped ≠ none) (m' : ν) :
    s'.Repeatable ∧ ∃ result' s'' m₁', s'.answer request o' fuel m' = (.ok (.ok result', s''), m₁') ∧
      result' = { result with measures := { result.measures with elapsedMs := result'.measures.elapsedMs } } := by
  obtain ⟨howns, hconfig, network, brancher, hrun, rfl⟩ := answer_eq_ok.mp hanswer
  obtain ⟨g, hg, hb⟩ := h.exists_heuristic
  rw [hb] at hrun
  obtain ⟨hagain, hvars, hnext⟩ := h.after hg hb ho hrun hopened
  obtain ⟨result', network', brancher', m₁', hrun', heq⟩ := h.attained.search_again h.shipped h.inLine
    Brancher.strategy_lawful (Brancher.strategy_echoes hg) (h.timeLimitMs_taskOf request) ho ho' (.refl g) hrun hopened
    hnext m'
  have htask : taskOf { s with network, brancher := s.brancher.map fun _ => brancher } request = s.taskOf request := by
    cases request <;> rfl
  refine ⟨hagain, result', _, m₁', answer_eq_ok.mpr ⟨fun o ho => ?_, htask ▸ hconfig, network', brancher', ?_, rfl⟩, heq⟩
  · rw [htask] at ho
    rw [Model.owns, hvars]
    exact howns o ho
  · rw [htask]
    exact hrun'

/-- A variable from zero to three, with a bound below and then one above. -/
def window? (low : Int) (config : SearchConfig) : Option Solver := do
  let (x, m) ← (Model.newBounded { name := "window" } "x" 0 3).toOption
  let (_, n) ← (Network.postConstraint { model := m } (.linear ⟨[⟨1, x⟩], .ge, low⟩)).outcome?
  let (_, n) ← (n.postConstraint (.linear ⟨[⟨1, x⟩], .le, 3⟩)).outcome?
  return { network := n, config }

/-- Without a time limit it can be searched repeatedly, provided that nobody waits. -/
theorem window_repeatable {low : Int} {config : SearchConfig} (h : window? low config = some s)
    (htime : config.timeLimitMs = none) (hfailed : s.network.failed = false)
    (hempty : s.network.agenda.isEmpty = true) : s.Repeatable := by
  simp only [window?, Option.bind_eq_bind, Option.bind_eq_some_iff, toOption_eq_some] at h
  obtain ⟨⟨x, m⟩, hx, ⟨_, n⟩, hlow, ⟨_, n'⟩, hhigh, h⟩ := h
  cases h
  obtain ⟨_, hlow⟩ := Activity.outcome?_eq_some hlow
  obtain ⟨_, hhigh⟩ := Activity.outcome?_eq_some hhigh
  have hmodel := (Network.Attained.new "window").edit (.newBounded hx)
  have hposted := hmodel.post (Constraint.lawful _) hlow
  have hattained := hposted.post (Constraint.lawful _) hhigh
  have hempty' : Network.Shipped { model := m } := by simp [Network.Shipped]
  have hshipped := hempty'.post hmodel.founded.lawful _ _ _ _ hlow
  exact ⟨hattained, hshipped.post hposted.founded.lawful _ _ _ _ hhigh, nofun, htime,
    Network.inLine_rooted hattained.founded.lawful.coherent hfailed hempty⟩

set_option maxRecDepth 20000 in
/-- There are three numbers from one to three. Each restart leaves a post behind that was removed, and the second search
finds the same three. -/
theorem repeated_answers_of_window : ∃ (s s' s'' : Solver) (result result' : SearchResult) (log log' : Array Notice),
    s.Repeatable ∧ s.answer .findAll .recorder 100 #[] = (.ok (.ok result, s'), log) ∧
      result.measures.nodes = 5 ∧ result.measures.solutions = 3 ∧ s'.network.posts.size = s.network.posts.size + 3 ∧
      s'.Repeatable ∧ s'.answer .findAll .recorder 100 #[] = (.ok (.ok result', s''), log') ∧
      result' = { result with measures := { result.measures with elapsedMs := result'.measures.elapsedMs } } := by
  have heval : (window? 1 { restart := .onSolution }).bind (fun s =>
      (s.answer .findAll .recorder 100 #[]).1.toOption.bind fun r => r.1.toOption.map fun result =>
        ((s.network.failed, s.network.agenda.isEmpty), (result.measures.nodes, result.measures.solutions),
          s.network.posts.size, r.2.network.posts.size)) = some ((false, true), (5, 3), 2, 5) := by
    decide +kernel
  obtain ⟨s, hs, heval⟩ := Option.bind_eq_some_iff.mp heval
  obtain ⟨⟨answer, s'⟩, hanswer, heval⟩ := Option.bind_eq_some_iff.mp heval
  obtain ⟨result, hresult, hcounts⟩ := Option.map_eq_some_iff.mp heval
  rw [toOption_eq_some] at hanswer hresult
  obtain rfl : answer = .ok result := hresult
  simp only [Prod.mk.injEq] at hcounts
  obtain ⟨⟨hfailed, hempty⟩, ⟨hnodes, hsolutions⟩, hbefore, hafter⟩ := hcounts
  have hrepeatable := window_repeatable hs rfl hfailed hempty
  have ho : ∀ log, (Observer.recorder.signals log).cancelled = false := fun _ => rfl
  have hanswer : s.answer .findAll .recorder 100 #[] = (.ok (.ok result, s'), _) := Prod.ext hanswer rfl
  have hopened : 0 < result.measures.nodes := by
    rw [hnodes]
    decide
  obtain ⟨hagain, result', s'', log', hanswer', heq⟩ := repeated_answers hrepeatable ho ho hanswer (.inl hopened) #[]
  exact ⟨s, s', s'', result, result', _, log', hrepeatable, hanswer, hnodes, hsolutions, by rw [hafter, hbefore], hagain,
    hanswer', heq⟩

/-- There is no number from five to three. The first search fails in the propagator that was posted first. The other one
still owes a full pass then, stands in front in the second search, and is run in vain before that fails too. -/
theorem counts_differ_of_window : ∃ (s s' s'' : Solver) (result result' : SearchResult) (log log' : Array Notice),
    s.Repeatable ∧ s.answer .findAll .recorder 100 #[] = (.ok (.ok result, s'), log) ∧
      s'.answer .findAll .recorder 100 #[] = (.ok (.ok result', s''), log') ∧
      result.measures.propagations = 1 ∧ result'.measures.propagations = 2 := by
  have heval : (window? 5 {}).bind (fun s => (s.answer .findAll .recorder 100 #[]).1.toOption.bind fun r =>
      (r.2.answer .findAll .recorder 100 #[]).1.toOption.bind fun r' => r.1.toOption.bind fun result =>
        r'.1.toOption.map fun result' => ((s.network.failed, s.network.agenda.isEmpty),
          result.measures.propagations, result'.measures.propagations)) = some ((false, true), 1, 2) := by
    decide +kernel
  obtain ⟨s, hs, heval⟩ := Option.bind_eq_some_iff.mp heval
  obtain ⟨⟨answer, s'⟩, hanswer, heval⟩ := Option.bind_eq_some_iff.mp heval
  obtain ⟨⟨answer', s''⟩, hanswer', heval⟩ := Option.bind_eq_some_iff.mp heval
  obtain ⟨result, hresult, heval⟩ := Option.bind_eq_some_iff.mp heval
  obtain ⟨result', hresult', hcounts⟩ := Option.map_eq_some_iff.mp heval
  rw [toOption_eq_some] at hanswer hanswer' hresult hresult'
  obtain rfl : answer = .ok result := hresult
  obtain rfl : answer' = .ok result' := hresult'
  simp only [Prod.mk.injEq] at hcounts
  obtain ⟨⟨hfailed, hempty⟩, hcount, hcount'⟩ := hcounts
  exact ⟨s, s', s'', result, result', _, _, window_repeatable hs rfl hfailed hempty, Prod.ext hanswer rfl,
    Prod.ext hanswer' rfl, hcount, hcount'⟩

end Solver

end FiniteDomain
