import FiniteDomain.Proofs.Search.Patience
import FiniteDomain.Proofs.Search.Run
import FiniteDomain.Proofs.Search.Toll

/-!
# The end of a search

Between two restarts the turns are paid for by the nodes that a tree over the assignments can have. A policy that
counts nodes restarts no more once it waits for more than these, and one that restarts after solutions does so
only once for each.

* `Restrained`: what bounds the restarts, kept up by `step_restrained`;
* `outlay`: what all turns can cost, lowered by every turn (`step_outlay`);
* `run_ends`: a search that meets no fault stops;
* `run_impatient`: one that restarts at every node does not, if there is something to find and no limit.
-/

namespace FiniteDomain

open Activity

variable [Tolerance] {σ : Type} {q : Quest} {P : σ → Prop} {r : Roster} {shown : List Moment} {s s' : SearchState σ}
  {signals : Array Notice → Signals} {log : Array Notice} {strategy : Strategy σ}

/-- No limit stops a search between two solutions. -/
structure SearchConfig.Unlimited (config : SearchConfig) : Prop where
  nodes : config.nodeLimit = none
  fails : config.failLimit = none
  time : config.timeLimitMs = none

/-! ### Without faults -/

/-- If no fault is put up with, what is said of an activity is said of its result. -/
theorem Activity.Ensures.attends (hstrict : ∀ fault : Fault, ¬fault.Tolerated) {α : Type}
    {G : List Moment → Moment → Prop} {a : Activity α} {Q : α → List Moment → Prop} (h : Ensures G a Q)
    (signals : Array Notice → Signals) (log : Array Notice) : ∃ x new, a #[] = .ok x new ∧
      (Observer.recording signals).attend log a = (.ok x, log ++ new) ∧ Q x (moments new) := by
  have h := h #[]
  rw [Observer.attend_recording]
  cases hr : a #[] with
  | error fault after =>
    rw [hr] at h
    obtain ⟨-, -, -, hfault⟩ := h
    exact absurd hfault (hstrict fault)
  | ok x after =>
    rw [hr] at h
    obtain ⟨new, hnew, -, hQ⟩ := h
    rw [Array.empty_append] at hnew
    subst hnew
    exact ⟨x, after, rfl, rfl, hQ⟩

theorem Turns.attends (hstrict : ∀ fault : Fault, ¬fault.Tolerated) {a : Activity (SearchState σ)}
    (h : Turns q P (moments log) a) (signals : Array Notice → Signals) : ∃ s' new, a #[] = .ok s' new ∧
      (Observer.recording signals).attend log a = (.ok s', log ++ new) ∧
      ∃ r, s'.Stands q P r (moments (log ++ new)) := by
  obtain ⟨s', new, hrun, hattend, hstands⟩ := Ensures.attends hstrict h signals log
  exact ⟨s', new, hrun, hattend, by rwa [moments_append]⟩

/-! ### Solutions -/

omit [Tolerance] in
/-- There are no more solutions than assignments. -/
theorem Ledger.size_le {found : Array Solution} {best : Option Int} (h : Ledger q shown found best) :
    found.size ≤ q.start.breadth := by
  have hsubset : ((found.toList.map Solution.values).toFinset : Set (Array Int)) ⊆ q.start.tuples := by
    intro values hvalues
    obtain ⟨solution, hsolution, rfl⟩ := List.mem_map.mp (List.mem_toFinset.mp (Finset.mem_coe.mp hvalues))
    obtain ⟨a, ha, heq, -⟩ := h.reports solution (Array.mem_toList_iff.mp hsolution)
    exact ⟨a, ha.1, heq.symm⟩
  have hcard := Set.ncard_le_ncard hsubset q.start.finite_tuples
  rw [Set.ncard_coe_finset, List.toFinset_card_of_nodup h.nodup, List.length_map, Array.length_toList] at hcard
  exact hcard

namespace SearchState

theorem Stands.ledger (h : s.Stands q P r shown) : Ledger q shown s.found s.measures.best := by
  rw [Stands] at h
  cases hturn : s.turn with
  | root => rw [hturn] at h; exact h.elim
  | node => rw [hturn] at h; exact h.1.ledger
  | down =>
    rw [hturn] at h
    obtain ⟨d, rest, -, hsound, -⟩ := h
    exact hsound.ledger
  | up => rw [hturn] at h; exact h.1.ledger
  | restart => rw [hturn] at h; exact h.1.ledger
  | stop =>
    rw [hturn] at h
    obtain ⟨R, hsound, -⟩ := h
    exact hsound.ledger

/-! ### Restarts -/

/-- The number of restarts that may come: one for each solution, if the search restarts there, and otherwise `k`. -/
def allowance (q : Quest) (k : Nat) (s : SearchState σ) : Nat :=
  if q.task.config.restart.atSolutions then s.found.size else k

/-- The restarts are within the allowance, and the nodes since the last one within those of a tree. -/
structure Restrained (q : Quest) (k : Nat) (s : SearchState σ) : Prop where
  restarts : s.measures.restarts ≤ s.allowance q k
  again : s.turn = .restart → s.measures.restarts < s.allowance q k
  nodes : s.turn ≠ .restart → s.nodesSinceRestart + s.cost q 0 ≤ toll 0 q.start.breadth

omit [Tolerance] in
theorem allowance_mono (h : s.found.size ≤ s'.found.size) (k : Nat) : s.allowance q k ≤ s'.allowance q k := by
  rw [allowance, allowance]
  split
  · exact h
  · exact Nat.le_refl k

theorem allowance_le (h : s.Stands q P r shown) (k : Nat) : s.allowance q k ≤ max k q.start.breadth := by
  rw [allowance]
  split
  · exact Nat.le_trans h.ledger.size_le (Nat.le_max_right _ _)
  · exact Nat.le_max_left _ _

/-- A restart that is due is one of those that may come. -/
theorem Restrained.lt_of_due {k : Nat} (h : s.Restrained q k) (hstands : s.Stands q P r shown)
    (hwaits : q.task.config.restart.Waits k (2 * q.start.breadth)) (hturn : s.turn = .node)
    (hdue : q.task.config.restart.isDue s.measures.restarts (s.nodesSinceRestart + 1) = true) :
    s.measures.restarts < s.allowance q k := by
  have hcost : 1 ≤ s.cost q 0 := by
    have hprice := price_le_cost hstands 0
    rwa [hturn] at hprice
  have hnodes := h.nodes (by rw [hturn]; decide)
  have hlt : s.nodesSinceRestart + 1 < 2 * q.start.breadth := by
    simp only [toll] at hnodes
    omega
  refine Nat.lt_of_le_of_ne h.restarts fun heq => ?_
  have hallowance : s.allowance q k = k := by
    rw [allowance, if_neg]
    intro hat
    cases hp : q.task.config.restart <;> rw [hp] at hat hdue <;> cases hat
    cases hdue
  rw [heq, hallowance, hwaits.not_due hlt] at hdue
  cases hdue

section Moves

omit [Tolerance]

variable {task : SearchTask} (h : Moves task s s') (hgoes : s'.turn ≠ .stop)

include h hgoes

theorem Moves.found_le : s.found.size ≤ s'.found.size := by
  have heq : s'.account.found = s.account.found → s.found.size ≤ s'.found.size := fun hfound =>
    Nat.le_of_eq (congrArg Array.size hfound.symm)
  cases h with
  | stop next => exact absurd next hgoes
  | due _ _ _ account => exact heq (congrArg Account.found account :)
  | decide _ _ _ _ account => exact heq (congrArg Account.found account :)
  | find _ _ _ found => exact found ▸ Nat.le_succ _
  | enter _ _ _ _ _ _ _ account => exact heq (congrArg Account.found account :)
  | close _ _ _ _ _ _ _ account => exact heq (congrArg Account.found account :)
  | restart _ _ _ account => exact heq (congrArg Account.found account :)

theorem Moves.restarts_eq (hturn : s.turn ≠ .restart) : s'.measures.restarts = s.measures.restarts := by
  cases h with
  | stop next => exact absurd next hgoes
  | due _ _ _ account => exact congrArg Account.restarts account
  | decide _ _ _ _ account => exact congrArg Account.restarts account
  | find _ _ _ _ restarts => exact restarts
  | enter _ _ _ _ _ _ _ account => exact congrArg Account.restarts account
  | close _ _ _ _ _ _ _ account => exact congrArg Account.restarts account
  | restart turn => exact absurd turn hturn

theorem Moves.nodes_eq (hturn : s.turn ≠ .restart) : s'.nodesSinceRestart = s.nodesSinceRestart + s.turn.price 0 := by
  cases h with
  | stop next => exact absurd next hgoes
  | due turn _ _ account | decide turn _ _ _ account =>
    rw [turn]
    exact (congrArg Account.nodes account :)
  | find turn _ _ _ _ nodes =>
    rw [turn]
    exact nodes
  | enter turn _ _ _ _ _ _ account =>
    rcases turn with turn | turn <;> rw [turn] <;> exact (congrArg Account.nodes account :)
  | close turn _ _ _ _ _ _ account =>
    rw [turn]
    exact (congrArg Account.nodes account :)
  | restart turn => exact absurd turn hturn

/-- A restart opens the root again, and counts. -/
theorem Moves.of_restart (hturn : s.turn = .restart) : s'.turn = .node ∧ s'.path.fromDeepest = [] ∧
    s'.measures.restarts = s.measures.restarts + 1 ∧ s'.nodesSinceRestart = 0 := by
  cases h with
  | stop next => exact absurd next hgoes
  | restart _ next path' account =>
    exact ⟨next, path', congrArg Account.restarts account, congrArg Account.nodes account⟩
  | enter turn => rcases turn with turn | turn <;> rw [hturn] at turn <;> cases turn
  | due turn | decide turn | find turn | close turn =>
    rw [hturn] at turn
    cases turn

end Moves

/-- **A turn keeps the restarts within what is allowed.** -/
theorem step_restrained {k : Nat} (h : s.Restrained q k) (hstands : s.Stands q P r shown)
    (hwaits : q.task.config.restart.Waits k (2 * q.start.breadth)) (hmoves : Moves q.task s s')
    (hgoes : s'.turn ≠ .stop) : s'.Restrained q k := by
  have hmono : s.allowance q k ≤ s'.allowance q k := allowance_mono (hmoves.found_le hgoes) k
  by_cases hturn : s.turn = .restart
  · obtain ⟨hnext, hpath, hrestarts, hnodes⟩ := hmoves.of_restart hgoes hturn
    refine ⟨?_, fun hagain => (by rw [hnext] at hagain; cases hagain), fun _ => ?_⟩
    · rw [hrestarts]
      exact Nat.lt_of_lt_of_le (h.again hturn) hmono
    · rw [hnodes, cost_node 0 hnext hpath, Quest.share_nil, Quest.dues]
      omega
  · have hrestarts := hmoves.restarts_eq hgoes hturn
    refine ⟨hrestarts ▸ Nat.le_trans h.restarts hmono, fun hagain => ?_, fun _ => ?_⟩
    · rw [hrestarts]
      cases hmoves with
      | stop next => exact absurd next hgoes
      | due turn _ _ _ due => exact Nat.lt_of_lt_of_le (h.lt_of_due hstands hwaits turn due) hmono
      | find turn next path found =>
        rw [hagain] at next
        split at next
        · rename_i hat
          have hle := h.restarts
          rw [allowance, if_pos hat] at hle ⊢
          omega
        · cases next
      | enter _ next => rcases next with next | next <;> rw [hagain] at next <;> cases next
      | decide _ next | close _ next | restart _ next =>
        rw [hagain] at next
        cases next
    · have hstep := step_cost hstands hmoves hturn 0
      have hnodes := h.nodes hturn
      rw [hmoves.nodes_eq hgoes hturn]
      omega

/-! ### The outlay -/

/-- What all turns can still cost, if so many restarts may come in all. -/
noncomputable def outlay (q : Quest) (restarts : Nat) (s : SearchState σ) : Nat :=
  s.cost q 1 + (restarts - s.measures.restarts) * (toll 1 q.start.breadth + 2)

/-- **Every turn lowers the outlay**, until the search stops. -/
theorem step_outlay {k restarts : Nat} (h : s.Restrained q k) (hstands : s.Stands q P r shown)
    (hrestarts : s.allowance q k ≤ restarts) (hmoves : Moves q.task s s') (hgoes : s'.turn ≠ .stop)
    (hturn : s.turn ≠ .stop) : s'.outlay q restarts < s.outlay q restarts := by
  rw [outlay, outlay]
  by_cases hr : s.turn = .restart
  · have hlt := Nat.lt_of_lt_of_le (h.again hr) hrestarts
    obtain ⟨hnext, hpath, hcount, -⟩ := hmoves.of_restart hgoes hr
    have hcost : s'.cost q 1 = toll 1 q.start.breadth + 1 := by
      rw [cost_node 1 hnext hpath, Quest.share_nil, Quest.dues]
    obtain ⟨n, hn⟩ : ∃ n, restarts - s.measures.restarts = n + 1 := ⟨restarts - s.measures.restarts - 1, by omega⟩
    have hn' : restarts - (s.measures.restarts + 1) = n := by omega
    rw [hcount, hcost, cost_restart 1 hr, hn, hn', Nat.succ_mul]
    omega
  · have hstep := step_cost hstands hmoves hr 1
    have hprice : s.turn.price 1 = 1 := by
      cases ht : s.turn with
      | node | down | up => rfl
      | root => simp only [Stands, ht] at hstands
      | restart => exact absurd ht hr
      | stop => exact absurd ht hturn
    rw [hmoves.restarts_eq hgoes hr]
    omega

/-! ### At the root -/

section Root

omit [Tolerance]

variable (hpath : s.path.fromDeepest = []) (hturn : s.turn = .node ∨ s.turn = .stop)

include hpath hturn

theorem cost_of_root (k : Nat) : s.cost q k ≤ toll k q.start.breadth + k := by
  rcases hturn with hturn | hturn
  · rw [cost_node k hturn hpath, Quest.share_nil, Quest.dues]
  · rw [cost_stop k hturn]
    exact Nat.zero_le _

theorem restrained_of_root (hrestarts : s.measures.restarts = 0) (hnodes : s.nodesSinceRestart = 0) (k : Nat) :
    s.Restrained q k := by
  refine ⟨hrestarts ▸ Nat.zero_le _, fun hr => ?_, fun _ => ?_⟩
  · rcases hturn with hturn | hturn <;> rw [hturn] at hr <;> cases hr
  · rw [hnodes, Nat.zero_add]
    exact cost_of_root hpath hturn 0

/-- At the root there is at most a tree over all assignments to be paid, and one more for each restart. -/
theorem outlay_of_root (hrestarts : s.measures.restarts = 0) (hpos : 0 < q.start.breadth) (restarts : Nat) :
    s.outlay q restarts + 1 < (restarts + 1) * (5 * q.start.breadth) := by
  have hcost := cost_of_root (q := q) hpath hturn 1
  have htoll : 5 * q.start.breadth = toll 1 q.start.breadth + 2 + 2 := by
    simp only [toll]
    omega
  rw [outlay, hrestarts, Nat.sub_zero, htoll, Nat.succ_mul, Nat.mul_add _ (toll 1 q.start.breadth + 2) 2]
  omega

end Root

/-! ### Without limits -/

omit [Tolerance] in
theorem limit?_eq_none {config : SearchConfig} (h : config.Unlimited) {signal : Signals}
    (hsignal : signal.cancelled = false) : s.limit? config signal = none := by
  rw [limit?, hsignal, h.nodes, h.fails, h.time]
  rfl

omit [Tolerance] in
/-- Without limits a node is left at once, if a restart is due at every node. -/
theorem openNode_impatient {task : SearchTask} (hlimits : task.config.Unlimited)
    (hpolicy : task.config.restart.Impatient) {signal : Signals} (hsignal : signal.cancelled = false) :
    (openNode task strategy signal s).Yields fun s' =>
      s'.account = { s.account with nodes := s.nodesSinceRestart + 1 } ∧ s'.turn = .restart := by
  rw [openNode, limit?_eq_none hlimits hsignal]
  refine .skip fun _ => ?_
  rw [if_pos (hpolicy _ _ (Nat.succ_pos _))]
  exact .pure ⟨rfl, rfl⟩

/-- A search that was not stopped goes on as long as something is looked for. -/
theorem Stands.turn_ne_stop (h : s.Stands q P r shown) (hstopped : s.stopped = none) {a : Assignment}
    (ha : q.Seeks s.found s.measures.best a) : s.turn ≠ .stop := by
  intro hturn
  simp only [Stands, hturn] at h
  obtain ⟨R, hsound, -, hstop⟩ := h
  exact hstop hstopped a (hsound.ahead a ha)

/-! ### Runs -/

section Runs

variable (hstrict : ∀ fault : Fault, ¬fault.Tolerated)
  (ho : ∀ o, q.task.objective = some o → q.start.owns o.var = true)

include hstrict ho

omit ho in
/-- Before the first turn nothing is shown. -/
theorem announce_attends (n : Network) (b : σ) (signals : Array Notice → Signals) :
    ∃ u log, (Observer.recording signals).attend #[] ((begin n b).announce q.task) = (.ok u, log) ∧
      moments log = [] := by
  have hannounce : Ensures (fun _ _ => False) ((begin n b).announce q.task) fun _ new => new = [] :=
    Quiet.ensures (.report rfl) fun _ _ => rfl
  obtain ⟨u, new, -, hattend, hnew⟩ := hannounce.attends hstrict signals #[]
  rw [Array.empty_append] at hattend
  exact ⟨u, new, hattend, hnew⟩

/-- The root of a search, at which all is still to be paid. -/
theorem root_attends {n : Network} (h : q.Begins n) {b : σ} (hP : P b) (hlog : moments log = [])
    (signals : Array Notice → Signals) (signal : Signals) :
    ∃ s' new, (Observer.recording signals).attend log ((begin n b).step q.task strategy signal) = (.ok s', log ++ new) ∧
      s'.account = (begin n b).account ∧ s'.path = {} ∧ (s'.turn = .node ∨ s'.turn = .stop) ∧
      ∃ r, s'.Stands q P r (moments (log ++ new)) := by
  have hroot : Turns q P (moments log) (propagateRoot q.task (begin n b)) := hlog ▸ propagateRoot_spec ho h hP
  obtain ⟨s', new, hrun, hattend, hstands⟩ := Turns.attends hstrict hroot signals
  obtain ⟨haccount, hpath, hturn⟩ := propagateRoot_yields q.task (begin n b) #[] s' new hrun
  exact ⟨s', new, hattend, haccount, hpath, hturn, hstands⟩

variable (hstrategy : strategy.Splits q.start P)

include hstrategy

/-- A turn has a result, after which the search stands somewhere again. -/
theorem step_attends (h : s.Stands q P r (moments log)) (signals : Array Notice → Signals) (signal : Signals) :
    ∃ s' new, s.step q.task strategy signal #[] = .ok s' new ∧
      (Observer.recording signals).attend log (s.step q.task strategy signal) = (.ok s', log ++ new) ∧
      Moves q.task s s' ∧ ∃ r, s'.Stands q P r (moments (log ++ new)) := by
  obtain ⟨s', new, hrun, hattend, hstands⟩ := Turns.attends hstrict (step_spec ho h hstrategy signal) signals
  refine ⟨s', new, hrun, hattend, ?_, hstands⟩
  refine step_moves (fun hroot => ?_) strategy signal #[] s' new hrun
  simp only [Stands, hroot] at h

/-- **Turn after turn** the outlay falls, until the search stops. -/
theorem turns_end {k restarts : Nat} (hwaits : q.task.config.restart.Waits k (2 * q.start.breadth))
    (hrestarts : max k q.start.breadth ≤ restarts) {fuel : Nat} (h : s.Stands q P r (moments log))
    (hrestrained : s.turn = .stop ∨ s.Restrained q k) (hfuel : s.outlay q restarts < fuel) :
    ∃ s' log', turns q.task strategy (.recording signals) s log fuel = (.ok s', log') ∧ s'.turn = .stop ∧
      ∃ r, s'.Stands q P r (moments log') := by
  induction fuel generalizing s r log with
  | zero => exact absurd hfuel (Nat.not_lt_zero _)
  | succ fuel ih =>
    rw [turns]
    split
    · rename_i hturn
      exact ⟨s, log, rfl, hturn, r, h⟩
    · rename_i hturn
      have hrestrained := hrestrained.resolve_left hturn
      obtain ⟨s', new, -, hattend, hmoves, r', hstands⟩ :=
        step_attends hstrict ho hstrategy h signals ((Observer.recording signals).signals log)
      rw [hattend]
      by_cases hgoes : s'.turn = .stop
      · refine ⟨s', log ++ new, ?_, hgoes, r', hstands⟩
        cases fuel <;> simp only [turns, if_pos hgoes]
      · have hle := Nat.le_trans (allowance_le h k) hrestarts
        have hless := step_outlay hrestrained h hle hmoves hgoes hturn
        exact ih hstands (.inr (step_restrained hrestrained h hwaits hmoves hgoes)) (by omega)

/-- **A search that meets no fault stops**, after a number of turns that is bounded by the number of assignments
and of restarts that may come. -/
theorem run_ends {n : Network} (h : q.Begins n) {b : σ} (hP : P b) {k : Nat}
    (hwaits : q.task.config.restart.Waits k (2 * q.start.breadth)) {fuel : Nat}
    (hfuel : (k + q.start.breadth + 1) * (5 * q.start.breadth) ≤ fuel) :
    ∃ e log, run q.task strategy (.recording signals) fuel n b #[] = (.ok e, log) := by
  have hpos : 0 < q.start.breadth := by
    obtain ⟨a, ha⟩ := h.suits.wellFormed.exists_allows
    exact q.share_nil ▸ Quest.share_pos ha (onPath_nil a)
  obtain ⟨u, new, hattend, hnew⟩ := announce_attends hstrict n b signals
  -- the turns
  have hturns : ∃ s' log', turns q.task strategy (.recording signals) (begin n b) new fuel = (.ok s', log') ∧
      s'.turn = .stop ∧ ∃ r, s'.Stands q P r (moments log') := by
    have hpays : 0 < (k + q.start.breadth + 1) * (5 * q.start.breadth) := Nat.mul_pos (by omega) (by omega)
    obtain ⟨fuel, rfl⟩ : ∃ n, fuel = n + 1 := ⟨fuel - 1, by omega⟩
    obtain ⟨s', new', hattend, haccount, hpath, hturn, r, hstands⟩ := root_attends hstrict ho h hP hnew signals
      ((Observer.recording signals).signals new)
    rw [turns, if_neg (by simp [begin]), hattend]
    have hroot : s'.path.fromDeepest = [] := by rw [hpath]; rfl
    have hrestarts : s'.measures.restarts = 0 := (congrArg Account.restarts haccount :)
    have hnodes : s'.nodesSinceRestart = 0 := (congrArg Account.nodes haccount :)
    have hmax : max k q.start.breadth ≤ k + q.start.breadth :=
      Nat.max_le.mpr ⟨Nat.le_add_right _ _, Nat.le_add_left _ _⟩
    have houtlay := outlay_of_root hroot hturn hrestarts hpos (k + q.start.breadth)
    exact turns_end hstrict ho hstrategy hwaits hmax hstands
      (.inr (restrained_of_root hroot hturn hrestarts hnodes k)) (by omega)
  obtain ⟨s', log', hturns, hturn, r, hstands⟩ := hturns
  -- the end
  have hworld : (Origin.ofNetwork n).world = q.start.store.world := by rw [Origin.ofNetwork, h.model_eq]; rfl
  obtain ⟨e, new', -, hend, -⟩ := (conclude_spec hturn hstands hworld
    ((Observer.recording signals).signals log').elapsedMs).attends hstrict signals log'
  refine ⟨e, log' ++ new', ?_⟩
  rw [run, hattend]
  simp only [hturns]
  exact hend

/-- **Turn after turn**, from a node to the root and back, nothing is found if a restart is due at every node. -/
theorem turns_impatient (hlimits : q.task.config.Unlimited) (hpolicy : q.task.config.restart.Impatient)
    (hsignals : ∀ log, (signals log).cancelled = false) (fuel : Nat) (h : s.Stands q P r (moments log))
    (hturn : s.turn = .node ∨ s.turn = .restart) (hstopped : s.stopped = none) {a : Assignment}
    (ha : q.Seeks s.found s.measures.best a) :
    ∃ log', turns q.task strategy (.recording signals) s log fuel = (.error .outOfFuel, log') := by
  have hgoes : s.turn ≠ .stop := h.turn_ne_stop hstopped ha
  induction fuel generalizing s r log with
  | zero => exact ⟨log, by rw [turns, if_neg hgoes]⟩
  | succ fuel ih =>
    obtain ⟨s', new, hrun, hattend, -, r', hstands⟩ :=
      step_attends hstrict ho hstrategy h signals ((Observer.recording signals).signals log)
    rw [turns, if_neg hgoes, hattend]
    have hsame : (∃ restarts nodes, s'.account = { s.account with restarts, nodes }) ∧
        (s'.turn = .node ∨ s'.turn = .restart ∨ s'.turn = .stop) := by
      rcases hturn with hturn | hturn <;> rw [step, hturn] at hrun
      · obtain ⟨haccount, hnext⟩ := openNode_impatient hlimits hpolicy (hsignals log) #[] s' new hrun
        exact ⟨⟨_, _, haccount⟩, .inr (.inl hnext)⟩
      · obtain ⟨haccount, -, hnext⟩ := restart_yields q.task strategy s #[] s' new hrun
        exact ⟨⟨_, _, haccount⟩, hnext.imp_right .inr⟩
    obtain ⟨⟨restarts, nodes, haccount⟩, hnext⟩ := hsame
    have hstopped' : s'.stopped = none := (congrArg Account.stopped haccount).trans hstopped
    have ha' : q.Seeks s'.found s'.measures.best a := by
      rw [show s'.found = s.found from congrArg Account.found haccount,
        show s'.measures.best = s.measures.best from congrArg Account.best haccount]
      exact ha
    have hgoes' := hstands.turn_ne_stop hstopped' ha'
    exact ih hstands (hnext.imp_right fun h => h.resolve_right hgoes') hstopped' ha' hgoes'

/-- **A search that restarts at every node never stops**, if there is a solution and no limit. -/
theorem run_impatient (hlimits : q.task.config.Unlimited) (hpolicy : q.task.config.restart.Impatient)
    (hsignals : ∀ log, (signals log).cancelled = false) {n : Network} (h : q.Begins n) {b : σ} (hP : P b)
    {a : Assignment} (ha : q.Goal a) (fuel : Nat) :
    ∃ log, run q.task strategy (.recording signals) fuel n b #[] = (.error .outOfFuel, log) := by
  obtain ⟨u, new, hattend, hnew⟩ := announce_attends hstrict n b signals
  have hturns : ∃ log', turns q.task strategy (.recording signals) (begin n b) new fuel = (.error .outOfFuel, log') := by
    cases fuel with
    | zero => exact ⟨new, rfl⟩
    | succ fuel =>
      obtain ⟨s', new', hattend, haccount, -, hturn, r, hstands⟩ := root_attends hstrict ho h hP hnew signals
        ((Observer.recording signals).signals new)
      have hstopped : s'.stopped = none := (congrArg Account.stopped haccount :)
      have hseeks : q.Seeks s'.found s'.measures.best a := by
        rw [show s'.found = #[] from congrArg Account.found haccount,
          show s'.measures.best = none from congrArg Account.best haccount]
        exact ⟨ha, fun _ _ _ hb => (by cases hb), fun _ _ hsol => absurd hsol (Array.not_mem_empty _)⟩
      have hgoes := hstands.turn_ne_stop hstopped hseeks
      rw [turns, if_neg (by simp [begin]), hattend]
      exact turns_impatient hstrict ho hstrategy hlimits hpolicy hsignals fuel hstands
        (.inl (hturn.resolve_right hgoes)) hstopped hseeks
  obtain ⟨log', hturns⟩ := hturns
  refine ⟨log', ?_⟩
  rw [run, hattend]
  simp only [hturns]

end Runs

end SearchState

end FiniteDomain
