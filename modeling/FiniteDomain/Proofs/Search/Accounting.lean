import FiniteDomain.Proofs.Branch.Heuristic
import FiniteDomain.Proofs.Search.Advances
import FiniteDomain.Proofs.Search.Traceless

/-!
# The counters of a search

What a search counts it also tells its observers, and the counters fit together: a node is left by a decision, with a
solution, or for a restart; and the decisions are the inner nodes of a binary tree, of which every leaf is a failure or
a solution.

* `Measures.Owes`: the balance of leaves and of ways back, while refutations on the path are still to be tried;
* `Network.Discreet.search_accounts`.
-/

namespace FiniteDomain

open Activity

/-- What a search counts and tells. -/
inductive Tally where
  | node
  | decision
  | solution
  | fail
  | restart
deriving DecidableEq

/-- The counter that goes with a call of the observers. -/
def Callback.tally? : Callback → Option Tally
  | nodeOpened _ => some .node
  | down _ => some .decision
  | solution _ => some .solution
  | contradiction _ => some .fail
  | restarted _ => some .restart
  | rootPropagated | up _ | closed _ _ => none

/-- The counter of a kind of call. -/
def Measures.count (m : Measures) : Tally → Nat
  | .node => m.nodes
  | .decision => m.decisions
  | .solution => m.solutions
  | .fail => m.fails
  | .restart => m.restarts

/-- The number of calls of a kind. -/
def callsOf (t : Tally) (shown : List Moment) : Nat := shown.countP fun c => decide (c.1.tally? = some t)

/-- The policy restarts after some number of nodes. -/
def RestartPolicy.countsNodes : RestartPolicy → Bool
  | luby _ | geometric _ _ => true
  | never | onSolution => false

theorem callsOf_append (t : Tally) (a b : List Moment) : callsOf t (a ++ b) = callsOf t a + callsOf t b :=
  List.countP_append ..

namespace RestartPolicy

variable {p : RestartPolicy}

theorem countsNodes_of_isDue {restarts nodes : Nat} (h : p.isDue restarts nodes = true) : p.countsNodes = true := by
  cases p with
  | never | onSolution => cases h
  | luby | geometric => rfl

theorem countsNodes_of_atSolutions (h : p.atSolutions = true) : p.countsNodes = false := by
  cases p with
  | never | luby | geometric => cases h
  | onSolution => rfl

end RestartPolicy

namespace SearchState

variable {σ : Type} {task : SearchTask} {strategy : Strategy σ} {s s' : SearchState σ} {shown : List Moment}

/-! ### What is counted is told -/

theorem Arrives.callsOf_eq {elsewhere : Turn} (h : Arrives s elsewhere s' shown) (t : Tally) :
    s'.measures.count t = s.measures.count t + callsOf t shown := by
  cases h <;> cases t <;> rfl

/-- A turn tells what it counts. -/
theorem Advances.callsOf_eq (h : Advances task strategy s s' shown) (t : Tally) :
    s'.measures.count t = s.measures.count t + callsOf t shown := by
  have hcons : ∀ c l, callsOf t (c :: l) = callsOf t [c] + callsOf t l := fun c l => callsOf_append t [c] l
  cases h with
  | root | barren | limited | due | decide | find | close | done => cases t <;> rfl
  | down _ _ _ maxDepth harrives =>
    rw [harrives.callsOf_eq, hcons, ← Nat.add_assoc]
    cases t <;> rfl
  | up _ _ _ _ harrives =>
    rw [harrives.callsOf_eq, hcons, ← Nat.add_assoc]
    cases t <;> rfl
  | restart _ _ _ harrives =>
    rw [harrives.callsOf_eq, hcons, ← Nat.add_assoc]
    cases t <;> rfl

/-! ### How nodes are left -/

/-- The nodes that were opened and will be left by the turn to come. -/
def leaving (p : RestartPolicy) (s : SearchState σ) : Nat :=
  match s.turn with
  | .down => 1
  | .restart => if p.countsNodes then 1 else 0
  | .root | .node | .up | .stop => 0

/-- Every node was left by a decision, with a solution, or for a restart. -/
def NodesLeft (p : RestartPolicy) (s : SearchState σ) : Prop :=
  s.measures.nodes =
    s.measures.decisions + s.measures.solutions + (if p.countsNodes then s.measures.restarts else 0) + s.leaving p

theorem Arrives.nodesLeft {p : RestartPolicy} {elsewhere : Turn} (h : Arrives s elsewhere s' shown)
    (helsewhere : elsewhere = .up ∨ elsewhere = .stop)
    (hs : s.measures.nodes =
      s.measures.decisions + s.measures.solutions + if p.countsNodes then s.measures.restarts else 0) :
    NodesLeft p s' := by
  cases h with
  | node => exact hs
  | failure => rcases helsewhere with rfl | rfl <;> exact hs

theorem Advances.nodesLeft (h : Advances task strategy s s' shown) (hs : NodesLeft task.config.restart s) :
    NodesLeft task.config.restart s' := by
  rw [NodesLeft] at hs
  cases h with
  | root turn | barren turn | limited turn =>
    rw [leaving, turn] at hs
    exact hs
  | due turn due =>
    simp only [leaving, turn] at hs
    simp only [NodesLeft, leaving, opening, RestartPolicy.countsNodes_of_isDue due, if_true] at hs ⊢
    omega
  | decide turn =>
    simp only [leaving, turn] at hs
    simp only [NodesLeft, leaving, opening]
    omega
  | find turn _ _ _ _ _ after =>
    have hnext : ∀ turn, turn = .stop ∨ turn = (if task.config.restart.atSolutions then .restart else .up) →
        leaving task.config.restart { s with turn } = 0 := by
      rintro turn (rfl | rfl)
      · rfl
      · cases hat : task.config.restart.atSolutions with
        | false => rfl
        | true => simp [leaving, RestartPolicy.countsNodes_of_atSolutions hat]
    have hnext := hnext _ (after.imp And.right And.right)
    rw [leaving] at hnext
    simp only [leaving, turn] at hs
    simp only [NodesLeft, leaving, opening, hnext]
    omega
  | down turn _ _ _ arrives =>
    refine arrives.nodesLeft (.inl rfl) ?_
    simp only [leaving, turn] at hs
    dsimp only [trying]
    omega
  | up turn _ _ _ arrives =>
    refine arrives.nodesLeft (.inl rfl) ?_
    simp only [leaving, turn] at hs
    exact hs
  | close turn =>
    simp only [leaving, turn] at hs
    simp only [NodesLeft, leaving, turn]
    exact hs
  | done turn =>
    simp only [leaving, turn] at hs
    exact hs
  | restart turn _ _ arrives =>
    refine arrives.nodesLeft (.inr rfl) ?_
    simp only [leaving, turn] at hs
    cases hp : task.config.restart.countsNodes <;> simp only [hp, if_true, Bool.false_eq_true, if_false] at hs ⊢ <;> omega

/-! ### The leaves of the tree -/

end SearchState

/-- The alternatives of some decisions that were not tried yet. -/
def triesLeft (path : List Decision) : Nat := (path.map Decision.triesLeft).sum

/-- The balance of a tree that is searched, with some decisions that were gone down at: each alternative left of these is
one leaf more, and each of the decisions is left one time more. The leaf at which the search is may be among those that
were counted. -/
structure Measures.Owes (m : Measures) (path : List Decision) (counted : Nat) : Prop where
  tried : ∀ d ∈ path, d.tried = 1 ∨ d.tried = 2
  leaves : m.fails + m.solutions + triesLeft path = m.decisions + counted
  backtracks : m.backtracks + triesLeft path + path.length = 2 * m.decisions

@[simp] theorem triesLeft_nil : triesLeft [] = 0 := rfl

@[simp] theorem triesLeft_cons (d : Decision) (path : List Decision) :
    triesLeft (d :: path) = (2 - d.tried) + triesLeft path := rfl

namespace Measures.Owes

variable {m m' : Measures} {path : List Decision} {d : Decision}

/-- A failure or a solution is one leaf more. -/
theorem leaf (h : m.Owes path 0) (hleaves : m'.fails + m'.solutions = m.fails + m.solutions + 1)
    (hdecisions : m'.decisions = m.decisions) (hbacktracks : m'.backtracks = m.backtracks) : m'.Owes path 1 := by
  obtain ⟨htried, hl, hb⟩ := h
  exact ⟨htried, by omega, by omega⟩

/-- The first alternative of a decision is gone down at, and one is left. -/
theorem down (h : m.Owes path 0) (hd : d.tried = 0) (depth : Nat) :
    { m with decisions := m.decisions + 1, maxDepth := depth }.Owes ({ d with tried := d.tried + 1 } :: path) 0 := by
  obtain ⟨htried, hl, hb⟩ := h
  refine ⟨List.forall_mem_cons.mpr ⟨.inl (by simp [hd]), htried⟩, ?_, ?_⟩
  · simp only [triesLeft_cons, hd]
    omega
  · simp only [triesLeft_cons, hd, List.length_cons]
    omega

/-- The deepest decision is left for its refutation. -/
theorem up (h : m.Owes (d :: path) 1) (next : d.tried < 2) :
    { m with backtracks := m.backtracks + 1 }.Owes ({ d with tried := d.tried + 1 } :: path) 0 := by
  obtain ⟨htried, hl, hb⟩ := h
  obtain ⟨hd, hrest⟩ := List.forall_mem_cons.mp htried
  have h1 : d.tried = 1 := by omega
  simp only [triesLeft_cons, h1, List.length_cons] at hl hb
  refine ⟨List.forall_mem_cons.mpr ⟨.inr (by simp [h1]), hrest⟩, ?_, ?_⟩
  · simp only [triesLeft_cons, h1]
    omega
  · simp only [triesLeft_cons, h1, List.length_cons]
    omega

/-- The deepest decision is done with. -/
theorem close (h : m.Owes (d :: path) 1) (next : ¬d.tried < 2) :
    { m with backtracks := m.backtracks + 1 }.Owes path 1 := by
  obtain ⟨htried, hl, hb⟩ := h
  obtain ⟨hd, hrest⟩ := List.forall_mem_cons.mp htried
  have h2 : d.tried = 2 := by omega
  simp only [triesLeft_cons, h2, List.length_cons] at hl hb
  exact ⟨hrest, by dsimp only; omega, by dsimp only; omega⟩

end Measures.Owes

namespace SearchState

variable {σ : Type} {task : SearchTask} {strategy : Strategy σ} {P : σ → Prop} {s s' : SearchState σ} {shown : List Moment}

/-- What a search that never restarts owes. -/
def Balances (s : SearchState σ) : Prop :=
  match s.turn with
  | .root => s.path = {} ∧ s.measures.Owes [] 0
  | .node => s.measures.Owes s.path.fromDeepest 0
  | .down => ∃ d rest, s.path.fromDeepest = d :: rest ∧ d.tried = 0 ∧ s.measures.Owes rest 0
  | .up => s.measures.Owes s.path.fromDeepest 1
  | .restart => False
  | .stop => s.stopped = none → s.measures.Owes [] 1

theorem Arrives.balances (h : Arrives s .up s' shown) (hs : s.measures.Owes s.path.fromDeepest 0) : s'.Balances := by
  cases h with
  | node => exact hs
  | failure => exact hs.leaf (Nat.add_right_comm ..) rfl rfl

theorem nextDecision_fresh (hf : strategy.Fresh P) (hP : P s.brancher) {d? : Option Decision} {b : σ}
    (h : nextDecision strategy s = .ok (d?, b)) : P b ∧ ∀ d, d? = some d → d.tried = 0 := by
  obtain ⟨⟨e?, b'⟩, hnext, h⟩ := bind_eq_ok.mp h
  obtain ⟨hb, hfresh⟩ := hf.next _ _ _ _ hP hnext
  cases e? with
  | some e =>
    cases h
    exact ⟨hb, hfresh⟩
  | none =>
    obtain ⟨⟨d?, _⟩, hfallback, h⟩ := bind_eq_ok.mp h
    cases h
    exact ⟨hb, Heuristic.next_untried hfallback⟩

theorem Arrives.brancher_eq {elsewhere : Turn} (h : Arrives s elsewhere s' shown) : s'.brancher = s.brancher := by
  cases h <;> rfl

/-- A turn of a search that never restarts keeps the balance. -/
theorem Advances.balances (h : Advances task strategy s s' shown) (hnever : task.config.restart = .never)
    (hf : strategy.Fresh P) (hP : P s.brancher) (hs : s.Balances) : P s'.brancher ∧ s'.Balances := by
  rw [Balances] at hs
  cases h with
  | root turn =>
    rw [turn] at hs
    obtain ⟨hpath, hs⟩ := hs
    refine ⟨hP, ?_⟩
    show s.measures.Owes s.path.fromDeepest 0
    rw [hpath]
    exact hs
  | barren turn =>
    rw [turn] at hs
    exact ⟨hP, fun _ => hs.2.leaf (Nat.add_right_comm ..) rfl rfl⟩
  | limited turn => exact ⟨hP, nofun⟩
  | due turn due =>
    rw [hnever] at due
    cases due
  | @decide turn d _ chosen =>
    rw [turn] at hs
    obtain ⟨hb, hfresh⟩ := nextDecision_fresh hf hP chosen
    have hs : s.measures.Owes s.path.fromDeepest 0 := hs
    exact ⟨hb, d, _, DecisionPath.fromDeepest_push _ _, hfresh d rfl, hs.tried, hs.leaves, hs.backtracks⟩
  | find turn chosen _ _ _ _ after =>
    rw [turn] at hs
    refine ⟨(nextDecision_fresh hf hP chosen).1, ?_⟩
    rcases after with ⟨rfl, rfl⟩ | ⟨rfl, rfl⟩
    · exact nofun
    · have hup : (if task.config.restart.atSolutions then Turn.restart else .up) = .up := by
        simp [hnever, RestartPolicy.atSolutions]
      simp only [Balances, hup]
      exact hs.leaf rfl rfl rfl
  | @down turn d last _ depth _ _ arrives =>
    rw [turn, DecisionPath.fromDeepest_eq_cons last] at hs
    obtain ⟨_, rest, hpath, h0, hs⟩ := hs
    cases hpath
    refine ⟨arrives.brancher_eq ▸ hP, arrives.balances ?_⟩
    simp only [trying, DecisionPath.fromDeepest_replaceLast, ← DecisionPath.fromDeepest_parent]
    exact hs.down h0 depth
  | @up turn d last next _ _ _ _ arrives =>
    rw [turn, DecisionPath.fromDeepest_eq_cons last] at hs
    refine ⟨arrives.brancher_eq ▸ hP, arrives.balances ?_⟩
    simp only [trying, DecisionPath.fromDeepest_replaceLast, ← DecisionPath.fromDeepest_parent]
    exact hs.up next
  | @close turn d last next =>
    rw [turn, DecisionPath.fromDeepest_eq_cons last] at hs
    refine ⟨hP, ?_⟩
    simp only [Balances, turn]
    exact hs.close next
  | done turn last =>
    rw [turn, DecisionPath.fromDeepest_eq_nil last] at hs
    exact ⟨hP, fun _ => hs⟩
  | restart turn =>
    rw [turn] at hs
    exact hs.elim

end SearchState

namespace Network

variable {σ : Type} {n : Network}

/-- **The counters account for the tree.** At every turn of every search, the observers were called as often as was
counted. A search that comes to its end opened as many nodes as it took decisions and found solutions, and one for each
restart that was due by their number. If it never restarts and nothing stops it, its failures and solutions are one more
than its decisions, and it went back twice from each of these. -/
theorem Discreet.search_accounts (h : n.Discreet) (task : SearchTask) (strategy : Strategy σ)
    (signals : Array Notice → Signals) (fuel : Nat) (b : σ) :
    (∀ log₀ s log, moments log₀ = [] → SearchState.Reaches task strategy (.recording signals) (.begin n b) log₀ s log →
        ∀ t, callsOf t (moments log) = s.measures.count t) ∧
      ∀ result n' b' log, SearchState.run task strategy (.recording signals) fuel n b #[] = (.ok (result, n', b'), log) →
        (∀ t, callsOf t (moments log) = result.measures.count t) ∧
        (result.measures.nodes = result.measures.decisions + result.measures.solutions +
          if task.config.restart.countsNodes then result.measures.restarts else 0) ∧
        ∀ P, strategy.Fresh P → P b → task.config.restart = .never → result.stopped = none →
          result.measures.fails + result.measures.solutions = result.measures.decisions + 1 ∧
            result.measures.backtracks = 2 * result.measures.decisions := by
  have hcalls : ∀ {log₀ s log}, moments log₀ = [] →
      SearchState.Reaches task strategy (.recording signals) (.begin n b) log₀ s log →
        ∀ t, callsOf t (moments log) = s.measures.count t := by
    intro log₀ s log hlog₀ hreaches
    refine (hreaches.keeps (I := fun s shown => ∀ t, callsOf t shown = s.measures.count t) ?_ h ?_).2
    · intro s s' shown new hs hadvances t
      rw [callsOf_append, hs, hadvances.callsOf_eq]
    · rw [hlog₀]
      intro t
      cases t <;> rfl
  refine ⟨fun log₀ s log => hcalls, fun result n' b' log hrun => ?_⟩
  obtain ⟨log₀, s, log₁, hlog₀, hreaches, hstop, hstopped, executions, elapsedMs, model, hmeasures, hlog⟩ :=
    SearchState.of_run_recording hrun
  refine ⟨fun t => ?_, ?_, fun P hf hP hnever hnone => ?_⟩
  · rw [hlog, callsOf_append, hcalls hlog₀ hreaches, hmeasures]
    cases t <;> rfl
  · have hnodes : SearchState.NodesLeft task.config.restart s := by
      refine (hreaches.keeps (I := fun s _ => s.NodesLeft task.config.restart) ?_ h ?_).2
      · exact fun s s' _ _ hs hadvances => hadvances.nodesLeft hs
      · simp [SearchState.NodesLeft, SearchState.leaving, SearchState.begin]
    simpa only [SearchState.NodesLeft, SearchState.leaving, hstop, hmeasures, Nat.add_zero] using hnodes
  · have hbalances : P s.brancher ∧ s.Balances := by
      refine (hreaches.keeps (I := fun s _ => P s.brancher ∧ s.Balances) ?_ h ⟨hP, rfl, List.forall_mem_nil _, rfl, rfl⟩).2
      exact fun s s' _ _ hs hadvances => hadvances.balances hnever hf hs.1 hs.2
    have howes := hbalances.2
    simp only [SearchState.Balances, hstop] at howes
    have howes := howes (hstopped.symm.trans hnone)
    rw [hmeasures]
    exact ⟨howes.leaves, howes.backtracks⟩

theorem corner_discreet (h : corner? = some n) : n.Discreet := by
  simp only [corner?, Option.bind_eq_bind, Option.bind_eq_some_iff, toOption_eq_some] at h
  obtain ⟨_, _, ⟨_, m⟩, _, ⟨_, n'⟩, hpost, _, _, h⟩ := h
  cases h
  obtain ⟨after, hpost⟩ := outcome?_eq_some hpost
  have hnone : Discreet { model := m } := by simp [Discreet, roll]
  have hposted : n'.Discreet := @Quiet.yields _ .lenient _ _ (hnone.post (Constraint.discreet _)) _ _ _ hpost
  exact hposted

set_option maxRecDepth 20000 in
/-- A search that goes through its whole tree: two decisions, three solutions, and four ways back. -/
theorem search_accounts_of_corner : ∃ (n n' : Network) (result : SearchResult) (log : Array Notice) (b b' : Brancher),
    n.Discreet ∧ Brancher.strategy.Fresh Brancher.Untried ∧ b.Untried ∧ result.stopped = none ∧
      SearchState.run ⟨{}, none⟩ Brancher.strategy (.recording fun _ => {}) 100 n b #[] = (.ok (result, n', b'), log) ∧
      result.measures.decisions = 2 ∧ result.measures.nodes = 5 ∧ callsOf .solution (moments log) = 3 ∧
      result.measures.fails + result.measures.solutions = 3 ∧ result.measures.backtracks = 4 := by
  let b := Brancher.heuristic (.inputOrderMin [⟨0⟩, ⟨1⟩])
  have heval : corner?.bind (fun n =>
      (SearchState.run ⟨{}, none⟩ Brancher.strategy (.recording fun _ => {}) 100 n b #[]).1.toOption.map fun r =>
        (r.1.stopped, r.1.measures.decisions, r.1.measures.solutions)) = some (none, 2, 3) := by
    decide +kernel
  obtain ⟨n, hn, heval⟩ := Option.bind_eq_some_iff.mp heval
  obtain ⟨⟨result, n', b'⟩, hrun, heval⟩ := Option.map_eq_some_iff.mp heval
  simp only [Prod.mk.injEq] at heval
  obtain ⟨hstopped, hdecisions, hsolutions⟩ := heval
  have hrun : SearchState.run ⟨{}, none⟩ Brancher.strategy (.recording fun _ => {}) 100 n b #[] =
      (.ok (result, n', b'), _) := Prod.ext (toOption_eq_some.mp hrun) rfl
  have hb : b.Untried := trivial
  have hn := corner_discreet hn
  obtain ⟨hcalls, hnodes, htree⟩ := (hn.search_accounts ⟨{}, none⟩ Brancher.strategy (fun _ => {}) 100 b).2 _ _ _ _ hrun
  obtain ⟨hleaves, hback⟩ := htree _ Brancher.strategy_fresh hb rfl hstopped
  rw [hdecisions] at hnodes hleaves hback
  rw [hsolutions] at hnodes
  refine ⟨n, n', result, _, b, b', hn, Brancher.strategy_fresh, hb, hstopped, hrun, hdecisions, hnodes, ?_, hleaves, hback⟩
  rw [hcalls]
  exact hsolutions

end Network

end FiniteDomain
