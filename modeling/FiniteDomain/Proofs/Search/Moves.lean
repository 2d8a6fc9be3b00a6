import FiniteDomain.Proofs.Activity
import FiniteDomain.Proofs.Branch.Path
import FiniteDomain.Search.Run

/-!
# What a turn does to the path

Whatever a turn comes to, it changes the path at its end only, and it counts what restarts go by.

* `recordSolution_eq`: what is done at a solution, part by part;
* `SearchState.Moves`: the ways in which a turn moves the search;
* `step_moves`: there are no others.
-/

namespace FiniteDomain

open Activity

namespace SearchState

variable {σ : Type} {task : SearchTask} {s s' s'' : SearchState σ}

/-- What restarts and the end of a search go by. -/
structure Account where
  found : Array Solution
  best : Option Int
  stopped : Option StopReason
  restarts : Nat
  nodes : Nat

def account (s : SearchState σ) : Account :=
  ⟨s.found, s.measures.best, s.stopped, s.measures.restarts, s.nodesSinceRestart⟩

/-- The ways in which a turn moves the search. -/
inductive Moves (task : SearchTask) (s s' : SearchState σ) : Prop
  /-- The search stops. -/
  | stop (next : s'.turn = .stop)
  /-- The node is left because a restart is due. -/
  | due (turn : s.turn = .node) (next : s'.turn = .restart) (path : s'.path = s.path)
      (account : s'.account = { s.account with nodes := s.nodesSinceRestart + 1 })
      (due : task.config.restart.isDue s.measures.restarts (s.nodesSinceRestart + 1) = true)
  /-- A decision is taken. -/
  | decide (turn : s.turn = .node) (next : s'.turn = .down) (d : Decision) (path : s'.path = s.path.push d)
      (account : s'.account = { s.account with nodes := s.nodesSinceRestart + 1 })
  /-- A solution is found. -/
  | find (turn : s.turn = .node) (next : s'.turn = if task.config.restart.atSolutions then .restart else .up)
      (path : s'.path = s.path) (found : s'.found.size = s.found.size + 1)
      (restarts : s'.measures.restarts = s.measures.restarts) (nodes : s'.nodesSinceRestart = s.nodesSinceRestart + 1)
  /-- The next alternative is tried. -/
  | enter (turn : s.turn = .down ∨ s.turn = .up) (next : s'.turn = .node ∨ s'.turn = .up) (d : Decision)
      (rest : List Decision) (path : s.path.fromDeepest = d :: rest) (tried : s.turn = .up → d.tried < 2)
      (path' : s'.path.fromDeepest = { d with tried := d.tried + 1 } :: rest) (account : s'.account = s.account)
  /-- The decision is done with. -/
  | close (turn : s.turn = .up) (next : s'.turn = .up) (d : Decision) (rest : List Decision)
      (path : s.path.fromDeepest = d :: rest) (tried : ¬d.tried < 2) (path' : s'.path.fromDeepest = rest)
      (account : s'.account = s.account)
  /-- The search is back at the root. -/
  | restart (turn : s.turn = .restart) (next : s'.turn = .node) (path' : s'.path.fromDeepest = [])
      (account : s'.account = { s.account with restarts := s.measures.restarts + 1, nodes := 0 })

theorem Moves.ne_root (h : Moves task s s') : s'.turn ≠ .root := by
  cases h with
  | stop next | due _ next | decide _ next | close _ next | restart _ next =>
    rw [next]
    nofun
  | find _ next =>
    rw [next]
    split <;> nofun
  | enter _ next => rcases next with next | next <;> simp [next]

/-! ### Parts of turns -/

/-- Unless the next solution must be better anyway, a search with restarts forbids to find one again. -/
def forbid (task : SearchTask) (s : SearchState σ) (solution : Solution) : Activity (SearchState σ) :=
  if task.config.restart.isEnabled && task.objective.isNone then s.record (blocking s.network.model solution) else pure s

/-- The search keeps a solution, and stops or goes on elsewhere. -/
def keep (task : SearchTask) (s : SearchState σ) (solution : Solution) : SearchState σ :=
  if reached task.config.solutionLimit s.measures.solutions then
    { s with found := s.found.push solution, stopped := some .solutionLimit, turn := .stop }
  else
    { s with
      found := s.found.push solution
      turn := if task.config.restart.atSolutions then .restart else .up }

/-- What is done at a solution: it is checked, handed out, forbidden and kept. -/
theorem recordSolution_eq (task : SearchTask) (s : SearchState σ) : recordSolution task s = (do
    match ← Activity.quietly s.network.findViolated with
    | some (id, p) => throw (Fault.violated p.propagator.name id)
    | none =>
      let objective ← Activity.quietly (objectiveValue task s.network.model)
      let solution ← Activity.quietly (Solution.capture s.network.model objective)
      let measures := { s.measures with
        solutions := s.measures.solutions + 1
        best := objective <|> s.measures.best }
      Activity.report (.solutionFound measures.solutions objective s.path.depth)
      SearchState.tell { s with measures } (.solution solution)
      let s ← forbid task { s with measures } solution
      return s.keep task solution) := by
  have hkeep : ∀ (s : SearchState σ) (solution : Solution), (pure (s.keep task solution) : Activity (SearchState σ)) =
      if reached task.config.solutionLimit s.measures.solutions then
        pure { s with found := s.found.push solution, stopped := some .solutionLimit, turn := .stop }
      else pure { s with
        found := s.found.push solution
        turn := if task.config.restart.atSolutions then .restart else .up } := by
    intro s solution
    rw [keep, apply_ite pure]
  rw [recordSolution]
  refine bind_congr fun violated => ?_
  cases violated with
  | some e => rfl
  | none =>
    refine bind_congr fun objective => bind_congr fun solution => bind_congr fun _ => bind_congr fun _ => ?_
    simp only [hkeep, forbid]
    split <;> rfl

theorem fail_yields (s : SearchState σ) (c : Contradiction) :
    (s.fail c).Yields fun s' => s'.account = s.account ∧ s'.path = s.path ∧ s'.turn = s.turn := by
  rw [fail]
  exact .skip fun _ => .skip fun _ => .pure ⟨rfl, rfl, rfl⟩

theorem settle_yields (s : SearchState σ) (outcome : Except Contradiction Unit) :
    (s.settle outcome).Yields fun s' => s'.account = s.account ∧ s'.path = s.path ∧ (s'.turn = .node ∨ s'.turn = .up) := by
  cases outcome with
  | ok u => exact .pure ⟨rfl, rfl, .inl rfl⟩
  | error c =>
    refine .bind (fail_yields s c) ?_
    rintro s' ⟨haccount, hpath, -⟩
    exact .pure ⟨haccount, hpath, .inr rfl⟩

theorem takeNext_yields (n : Network) (d : Decision) :
    (n.takeNext d).Yields fun e => e.2.1 = { d with tried := d.tried + 1 } := by
  rw [Network.takeNext, Network.onModel]
  refine .bind (R := fun e => e.1.2 = { d with tried := d.tried + 1 }) ?_ ?_
  · refine .bind (R := fun e => e.1.2 = { d with tried := d.tried + 1 }) ?_ fun e he => .pure he
    refine .bind (R := fun e => e.2.1 = { d with tried := d.tried + 1 }) ?_ fun e he => .pure he
    rw [Decision.takeNext]
    split
    · exact .skip fun _ => .skip fun _ => .pure rfl
    · exact .throw
  · exact fun e he => .pure he

theorem branch_yields (task : SearchTask) (s : SearchState σ) (d : Decision) :
    (s.branch task d).Yields fun e => e.2.account = s.account ∧
      e.2.path = s.path.replaceLast { d with tried := d.tried + 1 } := by
  rw [branch]
  refine .skip fun n => .bind (takeNext_yields n d) ?_
  rintro ⟨outcome, d', n'⟩ rfl
  cases outcome with
  | error c => exact .pure ⟨rfl, rfl⟩
  | ok u => exact .skip fun _ => .pure ⟨rfl, rfl⟩

/-- The next alternative of the deepest decision is tried. -/
theorem enter_yields (task : SearchTask) {d : Decision} {rest : List Decision} (hpath : s.path.fromDeepest = d :: rest) :
    (s.branch task d >>= fun e => e.2.settle e.1).Yields fun s' => s'.account = s.account ∧
      s'.path.fromDeepest = { d with tried := d.tried + 1 } :: rest ∧ (s'.turn = .node ∨ s'.turn = .up) := by
  refine .bind (branch_yields task s d) ?_
  rintro ⟨outcome, s1⟩ ⟨haccount, hpath1⟩
  refine fun before s' after hs' => ?_
  obtain ⟨haccount', hpath', hturn⟩ := settle_yields s1 outcome before s' after hs'
  have hpath1 : s1.path = s.path.replaceLast { d with tried := d.tried + 1 } := hpath1
  refine ⟨haccount'.trans haccount, ?_, hturn⟩
  rw [hpath', hpath1, DecisionPath.fromDeepest_replaceLast, hpath]
  rfl

/-! ### Turns -/

theorem propagateRoot_yields (task : SearchTask) (s : SearchState σ) : (propagateRoot task s).Yields fun s' =>
    s'.account = s.account ∧ s'.path = s.path ∧ (s'.turn = .node ∨ s'.turn = .stop) := by
  rw [propagateRoot]
  refine .skip fun n => .skip fun e => ?_
  obtain ⟨outcome, n'⟩ := e
  cases outcome with
  | ok u => exact .skip fun _ => .pure ⟨rfl, rfl, .inl rfl⟩
  | error c =>
    refine .bind (fail_yields _ c) ?_
    rintro s' ⟨haccount, hpath, -⟩
    exact .pure ⟨haccount, hpath, .inr rfl⟩

theorem record_yields (s : SearchState σ) (nogood : Nogood) :
    (s.record nogood).Yields fun s' => s'.account = s.account ∧ s'.path = s.path := by
  rw [record]
  exact .skip fun _ => .pure ⟨rfl, rfl⟩

theorem recordAll_yields (s : SearchState σ) (nogoods : List Nogood) :
    (s.recordAll nogoods).Yields fun s' => s'.account = s.account ∧ s'.path = s.path := by
  induction nogoods generalizing s with
  | nil => exact .pure ⟨rfl, rfl⟩
  | cons g rest ih =>
    rw [recordAll]
    refine .bind (record_yields s g) ?_
    rintro s1 ⟨haccount1, hpath1⟩ before s' after hs'
    obtain ⟨haccount, hpath⟩ := ih s1 before s' after hs'
    exact ⟨haccount.trans haccount1, hpath.trans hpath1⟩

theorem forbid_yields (task : SearchTask) (s : SearchState σ) (solution : Solution) :
    (s.forbid task solution).Yields fun s' => s'.account = s.account ∧ s'.path = s.path := by
  rw [forbid]
  split
  · exact record_yields s _
  · exact .pure ⟨rfl, rfl⟩

theorem recordSolution_yields (task : SearchTask) (s : SearchState σ) : (recordSolution task s).Yields fun s' =>
    s'.turn = .stop ∨ s'.turn = (if task.config.restart.atSolutions then .restart else .up) ∧ s'.path = s.path ∧
      s'.found.size = s.found.size + 1 ∧ s'.measures.restarts = s.measures.restarts ∧
      s'.nodesSinceRestart = s.nodesSinceRestart := by
  rw [recordSolution_eq]
  refine .skip fun violated => ?_
  split
  · exact .throw
  refine .skip fun objective => .skip fun solution => .skip fun _ => .skip fun _ => ?_
  refine .bind (forbid_yields task _ solution) ?_
  rintro s1 ⟨haccount, hpath⟩
  have hfound : s1.found = s.found := congrArg Account.found haccount
  refine .pure ?_
  rw [keep]
  split
  · exact .inl rfl
  · exact .inr ⟨rfl, hpath, by rw [Array.size_push, hfound], congrArg Account.restarts haccount,
      congrArg Account.nodes haccount⟩

theorem openNode_moves (hturn : s.turn = .node) (strategy : Strategy σ) (signals : Signals) :
    (openNode task strategy signals s).Yields (Moves task s) := by
  rw [openNode]
  split
  · exact .skip fun _ => .pure (.stop rfl)
  · refine .skip fun _ => ?_
    dsimp only
    split
    · rename_i hdue
      exact .pure (.due hturn rfl rfl rfl hdue)
    · refine .skip fun next => ?_
      obtain ⟨d?, b⟩ := next
      cases d? with
      | some d => exact .pure (.decide hturn rfl d rfl rfl)
      | none =>
        intro before s' after hs'
        rcases recordSolution_yields task _ before s' after hs' with h | ⟨hnext, hpath, hfound, hrestarts, hnodes⟩
        · exact .stop h
        · exact .find hturn hnext hpath hfound hrestarts hnodes

theorem goDown_moves (hturn : s.turn = .down) : (s.goDown task).Yields (Moves task s) := by
  rw [goDown, DecisionPath.last?_eq]
  cases hpath : s.path.fromDeepest with
  | nil => exact .throw
  | cons d rest =>
    refine .skip fun _ before s' after hs' => ?_
    obtain ⟨haccount, hpath', hnext⟩ := enter_yields (s := { s with measures := { s.measures with
      decisions := s.measures.decisions + 1
      maxDepth := max s.measures.maxDepth s.path.depth } }) task hpath before s' after hs'
    exact .enter (.inl hturn) hnext d rest hpath (fun h => by rw [hturn] at h; cases h) hpath'
      haccount

theorem goUp_moves (hturn : s.turn = .up) : (s.goUp task).Yields (Moves task s) := by
  rw [goUp, DecisionPath.last?_eq]
  cases hpath : s.path.fromDeepest with
  | nil => exact .pure (.stop rfl)
  | cons d rest =>
    refine .skip fun n => ?_
    dsimp only [List.head?_cons]
    split
    · rename_i hnext
      refine .skip fun _ before s' after hs' => ?_
      obtain ⟨haccount, hpath', hturn'⟩ := enter_yields (s := { s with
        network := n
        measures := { s.measures with backtracks := s.measures.backtracks + 1 } }) task hpath before s' after hs'
      exact .enter (.inr hturn) hturn' d rest hpath (fun _ => of_decide_eq_true hnext) hpath'
        haccount
    · rename_i hnext
      refine .pure (.close hturn hturn d rest hpath (fun hlt => hnext (decide_eq_true hlt)) ?_ rfl)
      rw [DecisionPath.fromDeepest_parent, hpath]
      rfl

theorem restart_yields (task : SearchTask) (strategy : Strategy σ) (s : SearchState σ) :
    (s.restart task strategy).Yields fun s' =>
      s'.account = { s.account with restarts := s.measures.restarts + 1, nodes := 0 } ∧ s'.path.fromDeepest = [] ∧
        (s'.turn = .node ∨ s'.turn = .stop) := by
  rw [restart]
  refine .skip fun _ => .skip fun _ => .skip fun _ => .skip fun n => ?_
  refine .bind (recordAll_yields _ _) ?_
  rintro s1 ⟨haccount, hpath⟩
  have hroot : s1.path.fromDeepest = [] := by rw [hpath]; rfl
  refine .skip fun e => ?_
  obtain ⟨outcome, n'⟩ := e
  cases outcome with
  | ok u =>
    exact .skip fun _ => .pure ⟨haccount, hroot, .inl rfl⟩
  | error c =>
    refine .bind (fail_yields _ c) ?_
    rintro s2 ⟨haccount2, hpath2, -⟩
    refine .skip fun _ => .pure ⟨haccount2.trans haccount, ?_, .inr rfl⟩
    show s2.path.fromDeepest = []
    rw [hpath2]
    exact hroot

/-- **A turn moves the search in one of these ways.** -/
theorem step_moves (hroot : s.turn ≠ .root) (strategy : Strategy σ) (signals : Signals) :
    (s.step task strategy signals).Yields (Moves task s) := by
  rw [step]
  cases hturn : s.turn with
  | root => exact absurd hturn hroot
  | node => exact openNode_moves hturn strategy signals
  | down => exact goDown_moves hturn
  | up => exact goUp_moves hturn
  | restart =>
    intro before s' after hs'
    obtain ⟨haccount, hpath, hnext | hstop⟩ := restart_yields task strategy s before s' after hs'
    · exact .restart hturn hnext hpath haccount
    · exact .stop hstop
  | stop => exact .pure (.stop hturn)

end SearchState

end FiniteDomain
