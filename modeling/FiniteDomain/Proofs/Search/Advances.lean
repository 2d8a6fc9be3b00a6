import FiniteDomain.Proofs.Branch.Path
import FiniteDomain.Proofs.Propagation.Discreet
import FiniteDomain.Proofs.Search.Leaving
import FiniteDomain.Proofs.Search.Run

/-!
# What a turn comes to

What propagation does to the network left open, a turn is one of few: what it counts, which turn is next, and which
calls of the observers it makes can be told from the state before.

* `SearchState.Advances`: the turns, and the calls that each makes;
* `SearchState.Tells`: the calls that a turn may make, also one that a fault ends;
* `step_advances`: as long as the propagators are discreet, there are no other turns and no other calls;
* `Reaches.keeps`: what every such turn keeps of a state and the calls made so far, holds throughout a run.
-/

namespace FiniteDomain

open Activity

/-- The call neither takes an alternative nor goes back to the root. -/
def Callback.IsAside : Callback → Prop
  | down _ | up _ | restarted _ => False
  | _ => True

namespace SearchState

variable {σ : Type} {task : SearchTask} {strategy : Strategy σ} {s s' : SearchState σ} {shown : List Moment}

/-- A failure was counted. -/
def failing (s : SearchState σ) : SearchState σ := { s with measures := { s.measures with fails := s.measures.fails + 1 } }

/-- A node was counted. -/
def opening (s : SearchState σ) : SearchState σ :=
  { s with
    measures := { s.measures with nodes := s.measures.nodes + 1 }
    nodesSinceRestart := s.nodesSinceRestart + 1 }

/-- The next alternative of a decision, which is the deepest, is the one being tried. -/
def trying (s : SearchState σ) (d : Decision) : SearchState σ :=
  { s with path := s.path.replaceLast { d with tried := d.tried + 1 } }

/-- A propagation ended: the node is opened next, or a failure is counted and the search goes on elsewhere. -/
inductive Arrives (s : SearchState σ) (elsewhere : Turn) : SearchState σ → List Moment → Prop
  | node (network : Network) : Arrives s elsewhere { s with network, turn := .node } []
  | failure (network : Network) (c : Contradiction) (m : Model) :
      Arrives s elsewhere { s.failing with network, turn := elsewhere } [(.contradiction c, m)]

/-- The turns of a search, and the calls that each makes. -/
inductive Advances (task : SearchTask) (strategy : Strategy σ) (s : SearchState σ) : SearchState σ → List Moment → Prop
  /-- The root is propagated. -/
  | root (turn : s.turn = .root) (network : Network) (root : Nat) :
      Advances task strategy s { s with network, root, turn := .node } [(.rootPropagated, network.model)]
  /-- There is nothing to search. -/
  | barren (turn : s.turn = .root) (network : Network) (root : Nat) (c : Contradiction) (m : Model) :
      Advances task strategy s { s.failing with network, root, turn := .stop } [(.contradiction c, m)]
  /-- A limit was reached. -/
  | limited (turn : s.turn = .node) (reason : StopReason) :
      Advances task strategy s { s with stopped := some reason, turn := .stop } []
  /-- The node is left because a restart is due. -/
  | due (turn : s.turn = .node)
      (due : task.config.restart.isDue s.measures.restarts (s.nodesSinceRestart + 1) = true) :
      Advances task strategy s { s.opening with turn := .restart } [(.nodeOpened s.path.depth, s.network.model)]
  /-- A decision is taken. -/
  | decide (turn : s.turn = .node) {d : Decision} {brancher : σ}
      (chosen : nextDecision strategy s = .ok (some d, brancher)) :
      Advances task strategy s { s.opening with brancher, path := s.path.push d, turn := .down }
        [(.nodeOpened s.path.depth, s.network.model)]
  /-- A solution is found. -/
  | find (turn : s.turn = .node) {brancher : σ} (chosen : nextDecision strategy s = .ok (none, brancher))
      (network : Network) (recorded : Array PropId) (solution : Solution) (best : Option Int)
      {stopped : Option StopReason} {next : Turn}
      (after : stopped = some .solutionLimit ∧ next = .stop ∨
        stopped = s.stopped ∧ next = if task.config.restart.atSolutions then .restart else .up) :
      Advances task strategy s
        { s.opening with
          measures := { s.opening.measures with solutions := s.measures.solutions + 1, best }
          brancher, network, recorded
          found := s.found.push solution
          stopped
          turn := next }
        [(.nodeOpened s.path.depth, s.network.model), (.solution solution, s.network.model)]
  /-- The first alternative is tried. -/
  | down (turn : s.turn = .down) {d : Decision} (last : s.path.last? = some d) (next : d.tried < 2) (maxDepth : Nat)
      {s' : SearchState σ} {shown : List Moment}
      (arrives : Arrives { s.trying d with
        measures := { s.measures with decisions := s.measures.decisions + 1, maxDepth } } .up s' shown) :
      Advances task strategy s s' ((.down d, s.network.model) :: shown)
  /-- The refutation is tried. -/
  | up (turn : s.turn = .up) {d : Decision} (last : s.path.last? = some d) (next : d.tried < 2) {m : Model}
      (pop : s.network.model.popWorld = .ok m) {s' : SearchState σ} {shown : List Moment}
      (arrives : Arrives { s.trying d with
        measures := { s.measures with backtracks := s.measures.backtracks + 1 } } .up s' shown) :
      Advances task strategy s s' ((.up d, m) :: shown)
  /-- The decision is done with. -/
  | close (turn : s.turn = .up) {d : Decision} (last : s.path.last? = some d) (next : ¬d.tried < 2) (network : Network) :
      Advances task strategy s
        { s with
          network
          measures := { s.measures with backtracks := s.measures.backtracks + 1 }
          path := s.path.parent } []
  /-- There is no decision left. -/
  | done (turn : s.turn = .up) (last : s.path.last? = none) : Advances task strategy s { s with turn := .stop } []
  /-- The search is back at the root. -/
  | restart (turn : s.turn = .restart) (m : Model) (recorded : Array PropId) {s' : SearchState σ} {shown : List Moment}
      (arrives : Arrives { s with
        path := {}
        nodesSinceRestart := 0
        measures := { s.measures with restarts := s.measures.restarts + 1 }
        brancher := strategy.restarted s.brancher (s.measures.restarts + 1)
        recorded } .stop s' shown) :
      Advances task strategy s s' ((.restarted (s.measures.restarts + 1), m) :: shown)

/-- The call takes an alternative, or goes back to the root: a turn of the state may begin with it. -/
inductive Opens (s : SearchState σ) : Moment → Prop
  | down (turn : s.turn = .down) {d : Decision} (last : s.path.last? = some d) : Opens s (.down d, s.network.model)
  | up (turn : s.turn = .up) {d : Decision} (last : s.path.last? = some d) (next : d.tried < 2) {m : Model}
      (pop : s.network.model.popWorld = .ok m) : Opens s (.up d, m)
  | restart (turn : s.turn = .restart) (k : Nat) (m : Model) : Opens s (.restarted k, m)

/-- A turn of the state may make the call after the others. -/
def Tells (s : SearchState σ) (before : List Moment) (c : Moment) : Prop := c.1.IsAside ∨ before = [] ∧ s.Opens c

/-! ### Parts of turns -/

section Parts

variable {G : List Moment → Moment → Prop} (hG : ∀ before c, c.1.IsAside → G before c)

theorem Arrives.of_network {network : Network} {elsewhere : Turn} (h : Arrives { s with network } elsewhere s' shown) :
    Arrives s elsewhere s' shown := by
  cases h with
  | node network => exact .node network
  | failure network c m => exact .failure network c m

include hG in
theorem fail_tells (h : s.network.Discreet) (c : Contradiction) : @Ensures _ .lenient G (s.fail c) fun s' shown =>
    ∃ network m, network.Discreet ∧ s' = { s.failing with network } ∧ shown = [(.contradiction c, m)] := by
  let := Tolerance.lenient
  rw [fail]
  refine Quiet.before (.report rfl) fun _ _ => ?_
  exact .bind (.tell (hG _ _ trivial) rfl) fun _ new hnew =>
    .pure ⟨s.network.flush.takeLast.2, _, h.flush, rfl, hnew⟩

include hG in
theorem settle_tells (h : s.network.Discreet) (outcome : Except Contradiction Unit) :
    @Ensures _ .lenient G (s.settle outcome) fun s' shown => s'.network.Discreet ∧ Arrives s .up s' shown := by
  let := Tolerance.lenient
  cases outcome with
  | ok u => exact .pure ⟨h, .node s.network⟩
  | error c =>
    refine .bind (fail_tells hG h c) ?_
    rintro _ _ ⟨network, m, hn, rfl, rfl⟩
    exact .pure ⟨hn, .failure network c m⟩

theorem branch_quiet (h : s.network.Discreet) (task : SearchTask) (d : Decision) :
    @Quiet _ .lenient (s.branch task d) fun r =>
      d.tried < 2 ∧ ∃ network : Network, network.Discreet ∧ r.2 = { s.trying d with network } := by
  let := Tolerance.lenient
  rw [branch]
  refine .bind (h.mapModel _) ?_
  rintro _ ⟨h1, -⟩
  refine .bind (h1.takeNext d) ?_
  rintro ⟨outcome, _, n⟩ ⟨h2, hnext, rfl⟩
  cases outcome with
  | error c => exact .pure ⟨hnext, n, h2, rfl⟩
  | ok u => exact .bind (h2.improveAndPropagate _ _ _) fun r h3 => .pure ⟨hnext, r.2, h3, rfl⟩

include hG in
/-- The next alternative of the deepest decision is tried. -/
theorem enter_tells (h : s.network.Discreet) (task : SearchTask) (d : Decision) :
    @Ensures _ .lenient G (s.branch task d >>= fun r => r.2.settle r.1) fun s' shown =>
      s'.network.Discreet ∧ d.tried < 2 ∧ Arrives (s.trying d) .up s' shown := by
  let := Tolerance.lenient
  refine Quiet.before (branch_quiet h task d) ?_
  rintro ⟨outcome, _⟩ ⟨hnext, network, hn, rfl⟩
  exact (settle_tells hG (s := { s.trying d with network }) hn outcome).mono fun s' shown hs =>
    ⟨hs.1, hnext, hs.2.of_network⟩

theorem record_quiet (h : s.network.Discreet) (nogood : Nogood) : @Quiet _ .lenient (s.record nogood) fun s' =>
    ∃ network recorded, network.Discreet ∧ s' = { s with network, recorded } := by
  let := Tolerance.lenient
  exact .bind (h.post nogood.discreet) fun r hr => .pure ⟨r.2, _, hr, rfl⟩

theorem forbid_quiet (h : s.network.Discreet) (task : SearchTask) (solution : Solution) :
    @Quiet _ .lenient (s.forbid task solution) fun s' =>
      ∃ network recorded, network.Discreet ∧ s' = { s with network, recorded } := by
  let := Tolerance.lenient
  rw [forbid]
  split
  · exact record_quiet h _
  · exact .pure ⟨s.network, s.recorded, h, rfl⟩

theorem recordAll_quiet (h : s.network.Discreet) (nogoods : List Nogood) :
    @Quiet _ .lenient (s.recordAll nogoods) fun s' =>
      ∃ network recorded, network.Discreet ∧ s' = { s with network, recorded } := by
  let := Tolerance.lenient
  induction nogoods generalizing s with
  | nil => exact .pure ⟨s.network, s.recorded, h, rfl⟩
  | cons nogood rest ih =>
    refine .bind (record_quiet h nogood) ?_
    rintro _ ⟨network, recorded, hn, rfl⟩
    exact ih hn

end Parts

/-! ### Turns -/

theorem propagateRoot_tells (h : s.network.Discreet) (hturn : s.turn = .root) :
    @Ensures _ .lenient s.Tells (propagateRoot task s) fun s' shown =>
      s'.network.Discreet ∧ Advances task strategy s s' shown := by
  let := Tolerance.lenient
  rw [propagateRoot]
  refine Quiet.before (h.mapModel _) ?_
  rintro n ⟨hn, -⟩
  refine Quiet.before (hn.start.scheduleAll.improveAndPropagate _ _ _) ?_
  rintro ⟨outcome, n'⟩ hn'
  cases outcome with
  | ok u =>
    refine .bind (R := fun _ new => new = [(.rootPropagated, n'.model)]) (.tell (.inl trivial) rfl) ?_
    rintro _ _ rfl
    exact .pure ⟨hn', .root hturn n' _⟩
  | error c =>
    refine .bind (fail_tells (fun _ _ => .inl) (s := { s with network := n', root := _ }) hn' c) ?_
    rintro _ _ ⟨network, m, hnetwork, rfl, rfl⟩
    exact .pure ⟨hnetwork, .barren hturn network _ c m⟩

/-- A solution is handed out after the node was opened. -/
theorem recordSolution_tells (h : s.network.Discreet) {brancher : σ} (hturn : s.turn = .node)
    (hchosen : nextDecision strategy s = .ok (none, brancher)) {G : List Moment → Moment → Prop}
    (hG : ∀ before c, c.1.IsAside → G before c) :
    @Ensures _ .lenient G (recordSolution task { s.opening with brancher }) fun s' shown =>
      s'.network.Discreet ∧ Advances task strategy s s' ((.nodeOpened s.path.depth, s.network.model) :: shown) := by
  let := Tolerance.lenient
  rw [recordSolution_eq]
  refine Quiet.before (.question (.lenient _)) fun violated _ => ?_
  split
  · exact .throw trivial
  refine Quiet.before (.question (.lenient _)) fun objective _ => Quiet.before (.question (.lenient _)) fun solution _ => ?_
  refine Quiet.before (.report rfl) fun _ _ => ?_
  refine .bind (R := fun _ new => new = [(.solution solution, s.network.model)]) (.tell (hG _ _ trivial) rfl) ?_
  rintro _ _ rfl
  refine Quiet.before (forbid_quiet (s := { s.opening with measures := _, brancher }) h task solution) ?_
  rintro _ ⟨network, recorded, hn, rfl⟩
  refine .pure ?_
  rw [keep]
  split
  · exact ⟨hn, .find hturn hchosen network recorded solution _ (.inl ⟨rfl, rfl⟩)⟩
  · exact ⟨hn, .find hturn hchosen network recorded solution _ (.inr ⟨rfl, rfl⟩)⟩

theorem openNode_tells (h : s.network.Discreet) (hturn : s.turn = .node) (signals : Signals) :
    @Ensures _ .lenient s.Tells (openNode task strategy signals s) fun s' shown =>
      s'.network.Discreet ∧ Advances task strategy s s' shown := by
  let := Tolerance.lenient
  rw [openNode]
  split
  · exact Quiet.before (.report rfl) fun _ _ => .pure ⟨h, .limited hturn _⟩
  · refine .bind (R := fun _ new => new = [(.nodeOpened s.path.depth, s.network.model)]) (.tell (.inl trivial) rfl) ?_
    rintro _ _ rfl
    dsimp only
    split
    · rename_i hdue
      exact .pure ⟨h, .due hturn hdue⟩
    · have hchosen : Meets (nextDecision strategy s) fun r => nextDecision strategy s = .ok r :=
        ⟨fun _ hr => hr, fun _ _ => trivial⟩
      refine Quiet.before (.question hchosen) ?_
      rintro ⟨d?, brancher⟩ hchosen
      cases d? with
      | some d => exact .pure ⟨h, .decide hturn hchosen⟩
      | none => exact recordSolution_tells h hturn hchosen fun _ _ => .inl

theorem goDown_tells (h : s.network.Discreet) (hturn : s.turn = .down) :
    @Ensures _ .lenient s.Tells (goDown task s) fun s' shown =>
      s'.network.Discreet ∧ Advances task strategy s s' shown := by
  let := Tolerance.lenient
  rw [goDown]
  split
  · exact .throw trivial
  · rename_i d hd
    refine .bind (R := fun _ new => new = [(.down d, s.network.model)]) (.tell (.inr ⟨rfl, .down hturn hd⟩) rfl) ?_
    rintro _ _ rfl
    have henter := enter_tells (G := fun before c => s.Tells ([(.down d, s.network.model)] ++ before) c)
      (fun _ _ => .inl) (s := { s with measures := { s.measures with
        decisions := s.measures.decisions + 1
        maxDepth := max s.measures.maxDepth s.path.depth } }) h task d
    refine henter.mono ?_
    rintro s' shown ⟨hn, hnext, harrives⟩
    exact ⟨hn, .down hturn hd hnext _ harrives⟩

theorem goUp_tells (h : s.network.Discreet) (hturn : s.turn = .up) :
    @Ensures _ .lenient s.Tells (goUp task s) fun s' shown =>
      s'.network.Discreet ∧ Advances task strategy s s' shown := by
  let := Tolerance.lenient
  rw [goUp]
  split
  · rename_i hlast
    exact .pure ⟨h, .done hturn hlast⟩
  · rename_i d hd
    refine Quiet.before (h.mapModel _) ?_
    rintro _ ⟨hn, m, hpop, rfl⟩
    dsimp only
    split
    · rename_i hnext
      have hnext : d.tried < 2 := of_decide_eq_true hnext
      refine .bind (R := fun _ new => new = [(.up d, m)]) (.tell (.inr ⟨rfl, .up hturn hd hnext hpop⟩) rfl) ?_
      rintro _ _ rfl
      have henter := enter_tells (G := fun before c => s.Tells ([(.up d, m)] ++ before) c)
        (fun _ _ => .inl) (s := { s with
          network := { s.network with model := m }
          measures := { s.measures with backtracks := s.measures.backtracks + 1 } }) hn task d
      refine henter.mono ?_
      rintro s' shown ⟨hn, -, harrives⟩
      exact ⟨hn, .up hturn hd hnext hpop harrives.of_network⟩
    · rename_i hnext
      exact .pure ⟨hn, .close hturn hd (fun hlt => hnext (decide_eq_true hlt)) _⟩

theorem restart_tells (h : s.network.Discreet) (hturn : s.turn = .restart) :
    @Ensures _ .lenient s.Tells (restart task strategy s) fun s' shown =>
      s'.network.Discreet ∧ Advances task strategy s s' shown := by
  let := Tolerance.lenient
  rw [restart]
  refine Quiet.before (h.mapModel _) ?_
  rintro n ⟨hn, -⟩
  refine Quiet.before (.report rfl) fun _ _ => ?_
  refine .bind (R := fun _ new => new = [(.restarted (s.measures.restarts + 1), n.flush.model)])
    (.tell (.inr ⟨rfl, .restart hturn _ _⟩) rfl) ?_
  rintro _ _ rfl
  refine Quiet.before (hn.flush.mapModel _) ?_
  rintro n1 ⟨hn1, -⟩
  refine Quiet.before (recordAll_quiet (s := { s with
    network := n1
    path := {}
    nodesSinceRestart := 0
    measures := { s.measures with restarts := s.measures.restarts + 1 }
    brancher := strategy.restarted s.brancher (s.measures.restarts + 1) }) hn1 _) ?_
  rintro _ ⟨n2, recorded, hn2, rfl⟩
  refine Quiet.before (hn2.improveAndPropagate _ _ _) ?_
  rintro ⟨outcome, n3⟩ hn3
  cases outcome with
  | ok u =>
    refine Quiet.before (Network.Discreet.mapModel hn3 _) ?_
    rintro n4 ⟨hn4, -⟩
    exact .pure ⟨hn4, .restart hturn _ recorded (.node n4)⟩
  | error c =>
    refine .bind (fail_tells (fun _ _ => .inl) (s := { s with
      network := n3
      path := {}
      nodesSinceRestart := 0
      measures := { s.measures with restarts := s.measures.restarts + 1 }
      brancher := strategy.restarted s.brancher (s.measures.restarts + 1)
      recorded }) hn3 c) ?_
    rintro _ _ ⟨n4, m, hn4, rfl, rfl⟩
    refine Quiet.before (hn4.mapModel _) ?_
    rintro n5 ⟨hn5, -⟩
    exact .pure ⟨hn5, .restart hturn _ recorded (.failure n5 c m)⟩

/-- **What a turn comes to**, and which calls of the observers it makes. -/
theorem step_advances (task : SearchTask) (strategy : Strategy σ) (h : s.network.Discreet) (hturn : s.turn ≠ .stop)
    (signals : Signals) : @Ensures _ .lenient s.Tells (s.step task strategy signals) fun s' shown =>
      s'.network.Discreet ∧ Advances task strategy s s' shown := by
  rw [step]
  cases hs : s.turn with
  | root => exact propagateRoot_tells h hs
  | node => exact openNode_tells h hs signals
  | down => exact goDown_tells h hs
  | up => exact goUp_tells h hs
  | restart => exact restart_tells h hs
  | stop => exact absurd hs hturn

end SearchState

/-! ### Runs -/

/-- A recorded computation adds the calls that it makes to those made before. -/
theorem Activity.Ensures.attended {α : Type} {signals : Array Notice → Signals} {log log' : Array Notice}
    {G : List Moment → Moment → Prop} {a : Activity α} {Q : α → List Moment → Prop} {r : Except Fault α}
    (ha : @Ensures _ .lenient G a Q) (hrun : (Observer.recording signals).attend log a = (r, log')) :
    ∃ new, moments log' = moments log ++ new ∧ Fits G new ∧ ∀ x, r = .ok x → Q x new := by
  have ha := ha #[]
  rw [Observer.attend_recording] at hrun
  cases he : a #[] with
  | ok x after =>
    rw [he] at ha hrun
    obtain ⟨new, rfl, hG, hQ⟩ := ha
    cases hrun
    refine ⟨moments new, by rw [Array.empty_append, moments_append], hG, ?_⟩
    rintro _ ⟨⟩
    exact hQ
  | error fault after =>
    rw [he] at ha hrun
    obtain ⟨new, rfl, hG, -⟩ := ha
    cases hrun
    exact ⟨moments new, by rw [Array.empty_append, moments_append], hG, nofun⟩

namespace SearchState

section Runs

variable {σ : Type} {task : SearchTask} {strategy : Strategy σ} {s s' : SearchState σ}
  {signals : Array Notice → Signals} {log log' : Array Notice}

/-- **What turns keep, runs keep.** -/
theorem Reaches.keeps {I : SearchState σ → List Moment → Prop}
    (hstep : ∀ s s' shown new, I s shown → Advances task strategy s s' new → I s' (shown ++ new))
    (hr : Reaches task strategy (.recording signals) s log s' log') (hd : s.network.Discreet) (h : I s (moments log)) :
    s'.network.Discreet ∧ I s' (moments log') := by
  induction hr with
  | refl => exact ⟨hd, h⟩
  | turn hturn hattend _ ih =>
    obtain ⟨new, hnew, -, hadvances⟩ := (step_advances task strategy hd hturn _).attended hattend
    obtain ⟨hd', hadvances⟩ := hadvances _ rfl
    exact ih hd' (by rw [hnew]; exact hstep _ _ _ _ h hadvances)

theorem unpostAll_quiet (n : Network) (ids : List PropId) : @Quiet _ .lenient (unpostAll n ids) fun _ => True := by
  let := Tolerance.lenient
  induction ids generalizing n with
  | nil => exact .pure trivial
  | cons id rest ih => exact .bind (n.unpost_quiet id) fun _ _ => ih _

/-- At its end a search makes one more call, of all that it counted. -/
theorem conclude_tells (task : SearchTask) (origin : Origin) (elapsedMs : Nat) (s : SearchState σ) :
    @Ensures _ .lenient (fun before c => before = [] ∧ ∃ measures status, c.1 = .closed measures status)
      (conclude task origin elapsedMs s) fun r shown => r.1.stopped = s.stopped ∧ r.1.found = s.found ∧
        ∃ executions model, r.1.measures = { s.measures with propagations := executions, elapsedMs } ∧
          shown = [(.closed r.1.measures r.1.status, model)] := by
  let := Tolerance.lenient
  rw [conclude]
  refine Quiet.before (.question (.lenient _)) fun n _ => Quiet.before (unpostAll_quiet _ _) fun n _ => ?_
  refine .bind (R := fun _ new => new = [_]) (.tell ⟨rfl, _, _, rfl⟩ rfl) ?_
  rintro _ _ rfl
  exact Quiet.before (.report rfl) fun _ _ => .pure ⟨rfl, rfl, _, _, rfl, rfl⟩

/-- However it ends, nothing else is called at its end. -/
theorem moments_of_conclude {origin : Origin} {elapsedMs : Nat} {r : Except Fault (SearchResult × Network × σ)}
    (h : (Observer.recording signals).attend log (conclude task origin elapsedMs s) = (r, log')) :
    ∃ new, moments log' = moments log ++ new ∧ ∀ c ∈ new, ∃ measures status, c.1 = .closed measures status := by
  obtain ⟨new, hnew, hcloses, -⟩ := (conclude_tells task origin elapsedMs s).attended h
  refine ⟨new, hnew, fun c hc => ?_⟩
  obtain ⟨before, after, rfl⟩ := List.append_of_mem hc
  exact (hcloses before c after rfl).2

/-- A search begins without a call. -/
theorem moments_of_announce {n : Network} {b : σ}
    (h : (Observer.recording signals).attend #[] ((begin n b).announce task) = (.ok (), log)) : moments log = [] := by
  have hquiet : @Ensures _ .lenient (fun _ _ => False) ((begin n b).announce task) fun _ new => new = [] :=
    @Quiet.ensures _ .lenient _ _ _ _ (@Quiet.report .lenient _ rfl) fun _ _ => rfl
  obtain ⟨new, hnew, -, hempty⟩ := hquiet.attended h
  obtain rfl := hempty () rfl
  exact hnew

/-- The calls of a run are those of its turns and the one of its end. -/
theorem of_run_recording {n n' : Network} {fuel : Nat} {b b' : σ} {result : SearchResult}
    (hrun : run task strategy (.recording signals) fuel n b #[] = (.ok (result, n', b'), log)) :
    ∃ log₀ s log₁, moments log₀ = [] ∧ Reaches task strategy (.recording signals) (.begin n b) log₀ s log₁ ∧
      s.turn = .stop ∧ result.stopped = s.stopped ∧ ∃ executions elapsedMs model,
        result.measures = { s.measures with propagations := executions, elapsedMs } ∧
          moments log = moments log₁ ++ [(.closed result.measures result.status, model)] := by
  obtain ⟨log₀, s, log₁, hannounce, hturns, hend⟩ := run_eq_ok.mp hrun
  obtain ⟨hreaches, hstop⟩ := turns_ok hturns
  obtain ⟨new, hclosed, -, hconcludes⟩ := (conclude_tells task _ _ s).attended hend
  obtain ⟨hstopped, -, executions, model, hmeasures, rfl⟩ := hconcludes _ rfl
  exact ⟨log₀, s, log₁, moments_of_announce hannounce, hreaches, hstop, hstopped, executions, _, model, hmeasures, hclosed⟩

end Runs

end SearchState

end FiniteDomain
