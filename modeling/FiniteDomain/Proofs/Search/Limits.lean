import FiniteDomain.Proofs.Search.Advances
import FiniteDomain.Proofs.Search.Traceless

/-!
# What limits do to a search

A search with limits is a search without, cut off. The limits are looked at when a node is about to be opened and when a
solution was handed out, and whoever finds one reached stops there; nothing else of a search goes by them.

* `SearchTask.withoutLimits`: the same search with no limit on nodes, failures and solutions;
* `SearchState.step_cuts`: a turn is the same in both, or it is the last one;
* `SearchState.Truncates`: turn after turn the one search is the beginning of the other;
* `SearchState.Within`: the counts that a limit leaves room for;
* `Network.limits_truncate`.
-/

namespace FiniteDomain

open Activity

/-- The same search with no limit on nodes, failures and solutions. -/
def SearchTask.withoutLimits (task : SearchTask) : SearchTask :=
  { task with config := { task.config with nodeLimit := none, failLimit := none, solutionLimit := none } }

/-- The call with which a search ends. -/
def Callback.closes : Callback → Bool
  | closed _ _ => true
  | _ => false

/-- The calls but for that of the end. -/
def callsBeforeEnd (shown : List Moment) : List Moment := shown.filter fun c => !c.1.closes

theorem callsBeforeEnd_append (a b : List Moment) : callsBeforeEnd (a ++ b) = callsBeforeEnd a ++ callsBeforeEnd b :=
  List.filter_append ..

/-- The counts do not exceed the limits. That on solutions must be one that is accepted. -/
structure Measures.Within (m : Measures) (config : SearchConfig) : Prop where
  nodes : ∀ limit, config.nodeLimit = some limit → m.nodes ≤ limit
  solutions : config.problem? = none → ∀ limit, config.solutionLimit = some limit → m.solutions ≤ limit

/-! ### Turns with limits and without -/

namespace SearchState

variable {σ α : Type} {task : SearchTask} {strategy : Strategy σ} {s s' : SearchState σ} {a b : Activity (SearchState σ)}

/-- The search was stopped before its end. -/
def Halted (s : SearchState σ) : Prop := s.turn = .stop ∧ s.stopped ≠ none

/-- The first activity does what the second does, or it stops the search after the same notices. -/
def Cuts (a b : Activity (SearchState σ)) : Prop :=
  ∀ before, a before = b before ∨ ∃ s s' after, a before = .ok s after ∧ b before = .ok s' after ∧
    s.Halted ∧ s.found = s'.found

theorem Cuts.refl (a : Activity (SearchState σ)) : Cuts a a := fun _ => .inl rfl

/-- Both do the same first. -/
theorem Cuts.bind {a : Activity α} {f g : α → Activity (SearchState σ)} (h : ∀ x, Cuts (f x) (g x)) :
    Cuts (a >>= f) (a >>= g) := by
  intro before
  show EStateM.bind a f before = EStateM.bind a g before ∨ ∃ s s' after, EStateM.bind a f before = .ok s after ∧
    EStateM.bind a g before = .ok s' after ∧ s.Halted ∧ s.found = s'.found
  rw [EStateM.bind, EStateM.bind]
  cases a before with
  | ok x middle => exact h x middle
  | error fault middle => exact .inl rfl

theorem Cuts.ite {c : Prop} [Decidable c] {a' b' : Activity (SearchState σ)} (h : Cuts a b) (h' : Cuts a' b') :
    Cuts (if c then a else a') (if c then b else b') := by
  split
  · exact h
  · exact h'

theorem recordSolution_cuts (task : SearchTask) (s : SearchState σ) :
    Cuts (recordSolution task s) (recordSolution task.withoutLimits s) := by
  rw [recordSolution_eq, recordSolution_eq]
  refine .bind fun violated => ?_
  split
  · exact .refl _
  refine .bind fun objective => .bind fun solution => .bind fun _ => .bind fun _ => .bind fun s₁ before => ?_
  by_cases hlimit : reached task.config.solutionLimit s₁.measures.solutions = true
  · refine .inr ⟨_, _, before, rfl, rfl, ?_⟩
    rw [keep, if_pos hlimit]
    exact ⟨⟨rfl, Option.some_ne_none _⟩, rfl⟩
  · left
    rw [keep, if_neg hlimit]
    rfl

/-- With limits a turn is the same as without, or the search is stopped: at once, or after all that is noticed without. -/
theorem step_cuts (task : SearchTask) (strategy : Strategy σ) (s : SearchState σ) {signals : Signals}
    (hcancelled : signals.cancelled = false) (htime : task.config.timeLimitMs = none) :
    Cuts (s.step task strategy signals) (s.step task.withoutLimits strategy signals) ∨ ∃ s' notice,
      s.step task strategy signals = (do report notice; return s') ∧ notice.moment? = none ∧ s'.Halted ∧
        s'.found = s.found := by
  rw [step, step]
  cases s.turn with
  | node =>
    have hfree : s.limit? task.withoutLimits.config signals = none := by
      simp [limit?, hcancelled, SearchTask.withoutLimits, htime, reached]
    dsimp only
    rw [openNode, openNode, hfree]
    cases s.limit? task.config signals with
    | some reason => exact .inr ⟨_, _, rfl, rfl, ⟨rfl, Option.some_ne_none _⟩, rfl⟩
    | none =>
      refine .inl (.bind fun _ => ?_)
      refine .ite (.refl _) (.bind fun next => ?_)
      obtain ⟨d?, brancher⟩ := next
      cases d? with
      | some d => exact .refl _
      | none => exact recordSolution_cuts task _
  | root | down | up | restart | stop => exact .inl (.refl _)

/-! ### What no turn takes back, and what limits leave room for -/

/-- What limits and results go by. -/
def tally (s : SearchState σ) : Array Solution × Nat × Nat := (s.found, s.measures.nodes, s.measures.solutions)

/-- There is room in the limits for what was counted, and for one more solution until the search stops. -/
structure Within (s : SearchState σ) (config : SearchConfig) : Prop where
  nodes : ∀ limit, config.nodeLimit = some limit → s.measures.nodes ≤ limit
  solutions : config.problem? = none → ∀ limit, config.solutionLimit = some limit →
    s.measures.solutions + (if s.turn = .stop then 0 else 1) ≤ limit

theorem fail_tally (s : SearchState σ) (c : Contradiction) : (s.fail c).Yields fun s' => s'.tally = s.tally := by
  rw [fail]
  exact .skip fun _ => .skip fun _ => .pure rfl

theorem enter_tally (task : SearchTask) (s : SearchState σ) (d : Decision) :
    (s.branch task d >>= fun r => r.2.settle r.1).Yields fun s' => s'.tally = s.tally := by
  refine .bind (R := fun r => r.2.tally = s.tally) ?_ ?_
  · rw [branch]
    refine .skip fun _ => .skip fun next => ?_
    obtain ⟨outcome, d', n⟩ := next
    cases outcome with
    | error c => exact .pure rfl
    | ok u => exact .skip fun _ => .pure rfl
  · rintro ⟨outcome, s₁⟩ hs₁
    rw [← hs₁]
    cases outcome with
    | error c => exact .bind (fail_tally s₁ c) fun _ h => .pure h
    | ok u => exact .pure rfl

theorem recordAll_tally (s : SearchState σ) (nogoods : List Nogood) :
    (s.recordAll nogoods).Yields fun s' => s'.tally = s.tally := by
  induction nogoods generalizing s with
  | nil => exact .pure rfl
  | cons nogood rest ih =>
    refine .bind (R := fun s₁ => s₁.tally = s.tally) (.skip fun _ => .pure rfl) fun s₁ hs₁ => ?_
    rw [← hs₁]
    exact ih s₁

theorem propagateRoot_tally (task : SearchTask) (s : SearchState σ) :
    (s.propagateRoot task).Yields fun s' => s'.tally = s.tally := by
  rw [propagateRoot]
  refine .skip fun _ => .skip fun result => ?_
  obtain ⟨outcome, n⟩ := result
  cases outcome with
  | ok u => exact .skip fun _ => .pure rfl
  | error c => exact .bind (fail_tally _ c) fun _ h => .pure h

theorem goDown_tally (task : SearchTask) (s : SearchState σ) : (s.goDown task).Yields fun s' => s'.tally = s.tally := by
  rw [goDown]
  split
  · exact .throw
  · exact .skip fun _ => enter_tally task _ _

theorem goUp_tally (task : SearchTask) (s : SearchState σ) : (s.goUp task).Yields fun s' => s'.tally = s.tally := by
  rw [goUp]
  split
  · exact .pure rfl
  · refine .skip fun _ => ?_
    split
    · exact .skip fun _ => enter_tally task _ _
    · exact .pure rfl

theorem restart_tally (task : SearchTask) (strategy : Strategy σ) (s : SearchState σ) :
    (s.restart task strategy).Yields fun s' => s'.tally = s.tally := by
  rw [restart]
  refine .skip fun _ => .skip fun _ => .skip fun _ => .skip fun _ => ?_
  refine .bind (recordAll_tally _ _) fun s₁ hs₁ => .skip fun result => ?_
  obtain ⟨outcome, n⟩ := result
  cases outcome with
  | ok u => exact .skip fun _ => .pure hs₁
  | error c => exact .bind (fail_tally _ c) fun _ h => .skip fun _ => .pure (h.trans hs₁)

theorem reached_eq_false {limit : Option Nat} {count : Nat} :
    reached limit count = false ↔ ∀ l, limit = some l → count < l := by
  cases limit <;> simp [reached]

/-- A solution was added, and unless the search stops there is room for one more. -/
structure Adds (s : SearchState σ) (config : SearchConfig) (s' : SearchState σ) : Prop where
  found : ∃ solution, s'.found = s.found.push solution
  nodes : s'.measures.nodes = s.measures.nodes
  solutions : s'.measures.solutions = s.measures.solutions + 1
  room : s'.turn ≠ .stop → reached config.solutionLimit s'.measures.solutions = false

theorem forbid_tally (task : SearchTask) (s : SearchState σ) (solution : Solution) :
    (s.forbid task solution).Yields fun s' => s'.tally = s.tally := by
  rw [forbid]
  split
  · exact .skip fun _ => .pure rfl
  · exact .pure rfl

theorem recordSolution_adds (task : SearchTask) (s : SearchState σ) :
    (recordSolution task s).Yields (s.Adds task.config) := by
  rw [recordSolution_eq]
  refine .skip fun violated => ?_
  split
  · exact .throw
  refine .skip fun objective => .skip fun solution => .skip fun _ => .skip fun _ => ?_
  refine .bind (forbid_tally task _ solution) fun s₁ hs₁ => .pure ?_
  simp only [tally, Prod.mk.injEq] at hs₁
  obtain ⟨hfound, hnodes, hsolutions⟩ := hs₁
  rw [keep]
  split
  · exact ⟨⟨solution, congrArg (·.push solution) hfound⟩, hnodes, hsolutions, fun h => absurd rfl h⟩
  · rename_i hroom
    exact ⟨⟨solution, congrArg (·.push solution) hfound⟩, hnodes, hsolutions, fun _ => eq_false_of_ne_true hroom⟩

/-- No solution is taken back, and the counts stay within the limits. -/
def Abides (s : SearchState σ) (config : SearchConfig) (s' : SearchState σ) : Prop :=
  s.found.toList <+: s'.found.toList ∧ (s.Within config → s'.Within config)

/-- The counts stay as they are, but for a node if there is room for it. -/
theorem Abides.of_tally {config : SearchConfig} (hturn : s.turn ≠ .stop) (node : Nat)
    (hroom : ∀ limit, config.nodeLimit = some limit → s.measures.nodes + node ≤ limit ∨ node = 0)
    (h : s'.tally = (s.found, s.measures.nodes + node, s.measures.solutions)) : s.Abides config s' := by
  simp only [tally, Prod.mk.injEq] at h
  obtain ⟨hfound, hnodes, hsolutions⟩ := h
  refine ⟨by rw [hfound], fun hw => ⟨fun limit hl => ?_, fun hp limit hl => ?_⟩⟩
  · have hnode := hw.nodes limit hl
    have hroom := hroom limit hl
    omega
  · have hsolution := hw.solutions hp limit hl
    rw [if_neg hturn] at hsolution
    rw [hsolutions]
    split <;> omega

theorem openNode_abides (hturn : s.turn = .node) (task : SearchTask) (strategy : Strategy σ) (signals : Signals) :
    (openNode task strategy signals s).Yields (s.Abides task.config) := by
  have hgoes : s.turn ≠ .stop := by simp [hturn]
  rw [openNode]
  split
  · exact .skip fun _ => .pure (.of_tally hgoes 0 (fun _ _ => .inr rfl) rfl)
  · rename_i hlimit
    have hroom : ∀ limit, task.config.nodeLimit = some limit → s.measures.nodes + 1 ≤ limit := by
      refine reached_eq_false.mp (eq_false_of_ne_true fun hreached => ?_)
      simp only [limit?, hreached] at hlimit
      split at hlimit <;> cases hlimit
    refine .skip fun _ => ?_
    dsimp only
    split
    · exact .pure (.of_tally hgoes 1 (fun limit hl => .inl (hroom limit hl)) rfl)
    · refine .skip fun next => ?_
      obtain ⟨d?, brancher⟩ := next
      cases d? with
      | some d => exact .pure (.of_tally hgoes 1 (fun limit hl => .inl (hroom limit hl)) rfl)
      | none =>
        intro before s' after hrun
        obtain ⟨⟨solution, hfound⟩, hnodes, hsolutions, hmore⟩ := recordSolution_adds task _ before s' after hrun
        refine ⟨?_, fun hw => ⟨fun limit hl => hnodes ▸ hroom limit hl, fun hp limit hl => ?_⟩⟩
        · rw [hfound, Array.toList_push]
          exact List.prefix_append _ _
        · have hsolution := hw.solutions hp limit hl
          rw [if_neg hgoes] at hsolution
          split
          · exact hsolutions ▸ hsolution
          · rename_i hgoes'
            exact reached_eq_false.mp (hmore hgoes') limit hl

/-- **A turn stays within the limits**, and takes no solution back. -/
theorem step_abides (hturn : s.turn ≠ .stop) (task : SearchTask) (strategy : Strategy σ) (signals : Signals) :
    (s.step task strategy signals).Yields (s.Abides task.config) := by
  have hsame : ∀ a : Activity (SearchState σ), (a.Yields fun s' => s'.tally = s.tally) →
      a.Yields (s.Abides task.config) :=
    fun a ha before s' after hrun => .of_tally hturn 0 (fun _ _ => .inr rfl) (ha before s' after hrun)
  rw [step]
  cases hs : s.turn with
  | root => exact hsame _ (propagateRoot_tally task s)
  | node => exact openNode_abides hs task strategy signals
  | down => exact hsame _ (goDown_tally task s)
  | up => exact hsame _ (goUp_tally task s)
  | restart => exact hsame _ (restart_tally task strategy s)
  | stop => exact absurd hs hturn

/-! ### Runs with limits and without -/

section Runs

variable {signals : Array Notice → Signals} {log log' : Array Notice} {fuel fuel' : Nat}

theorem Reaches.abides (hr : Reaches task strategy (.recording signals) s log s' log') : s.Abides task.config s' := by
  induction hr with
  | refl => exact ⟨List.prefix_rfl, id⟩
  | turn hturn hattend _ ih =>
    obtain ⟨notices, hstep⟩ := Observer.of_attend_ok hattend
    obtain ⟨hfound, hwithin⟩ := step_abides hturn task strategy _ _ _ _ hstep
    exact ⟨hfound.trans ih.1, fun hw => ih.2 (hwithin hw)⟩

/-- A turn, and those after it. -/
theorem turns_recording (hturn : s.turn ≠ .stop) :
    turns task strategy (.recording signals) s log (fuel + 1) =
      match s.step task strategy (signals log) #[] with
      | .ok s' new => turns task strategy (.recording signals) s' (log ++ new) fuel
      | .error fault new => (.error fault, log ++ new) := by
  rw [turns, if_neg hturn, Observer.attend_recording]
  show _ = match s.step task strategy ((Observer.recording signals).signals log) #[] with
    | .ok s' new => turns task strategy (.recording signals) s' (log ++ new) fuel
    | .error fault new => (.error fault, log ++ new)
  cases s.step task strategy ((Observer.recording signals).signals log) #[] with
  | ok s' new => rfl
  | error fault new => rfl

theorem moments_turns (task : SearchTask) (strategy : Strategy σ) (signals : Array Notice → Signals)
    (s : SearchState σ) (log : Array Notice) (fuel : Nat) :
    moments log <+: moments (turns task strategy (.recording signals) s log fuel).2 := by
  induction fuel generalizing s log with
  | zero =>
    rw [turns]
    split <;> exact List.prefix_rfl
  | succ fuel ih =>
    by_cases hstop : s.turn = .stop
    · rw [turns_of_stop hstop]
    · have hnew : ∀ new, moments log <+: moments (log ++ new) := fun new => moments_append .. ▸ List.prefix_append ..
      rw [turns_recording hstop]
      split
      · exact (hnew _).trans (ih _ _)
      · exact hnew _

/-- The turns of the one search are the first turns of the other, and all of them unless it was stopped. -/
structure Truncates (limited free : Except Fault (SearchState σ) × Array Notice) : Prop where
  shown : moments limited.2 <+: moments free.2
  found : ∀ s s', limited.1 = .ok s → free.1 = .ok s' → s.found.toList <+: s'.found.toList
  same : ∀ s, limited.1 = .ok s → s.stopped = none → free = limited

theorem Truncates.refl (r : Except Fault (SearchState σ) × Array Notice) : Truncates r r :=
  ⟨List.prefix_rfl, fun s s' h h' => by cases h.symm.trans h'; exact List.prefix_rfl, fun _ _ _ => rfl⟩

theorem Truncates.of_error {fault : Fault} {free : Except Fault (SearchState σ) × Array Notice}
    (h : moments log <+: moments free.2) : Truncates (.error fault, log) free where
  shown := h
  found := by
    intro _ _ h
    cases h
  same := by
    intro _ h
    cases h

/-- A search that is stopped at some point of another. -/
theorem Truncates.of_halted (hhalted : s.Halted) (hfound : s.found = s'.found) (hlog : moments log = moments log') :
    Truncates (.ok s, log) (turns task strategy (.recording signals) s' log' fuel) where
  shown := hlog ▸ moments_turns ..
  found := by
    rintro _ s'' ⟨⟩ hturns
    rw [hfound]
    exact (turns_ok (Prod.ext hturns rfl)).1.abides.1
  same := by
    rintro _ ⟨⟩ hnone
    exact absurd hnone hhalted.2

/-- **Turn after turn** the searches go the same way, until the limits stop the one. -/
theorem turns_truncates (strategy : Strategy σ) (hcancelled : ∀ log, (signals log).cancelled = false)
    (htime : task.config.timeLimitMs = none) (hfuel : fuel ≤ fuel') (s : SearchState σ) (log : Array Notice) :
    Truncates (turns task strategy (.recording signals) s log fuel)
      (turns task.withoutLimits strategy (.recording signals) s log fuel') := by
  induction fuel generalizing s log fuel' with
  | zero =>
    rw [turns]
    split
    · rename_i hstop
      rw [turns_of_stop hstop]
      exact .refl _
    · exact .of_error (moments_turns ..)
  | succ fuel ih =>
    by_cases hstop : s.turn = .stop
    · rw [turns_of_stop hstop, turns_of_stop hstop]
      exact .refl _
    obtain ⟨fuel', rfl⟩ := Nat.exists_eq_add_one_of_ne_zero (Nat.ne_zero_of_lt hfuel)
    have hfuel := Nat.le_of_succ_le_succ hfuel
    rcases step_cuts task strategy s (hcancelled log) htime with hcuts | ⟨s₁, notice, hstep, hnotice, hhalted, hfound⟩
    · rw [turns_recording hstop, turns_recording hstop]
      rcases hcuts #[] with hsame | ⟨s₁, s₂, after, hlimited, hfree, hhalted, hfound⟩
      · rw [hsame]
        split
        · exact ih hfuel _ _
        · exact .refl _
      · rw [hlimited, hfree]
        dsimp only
        rw [turns_of_stop hhalted.1]
        exact .of_halted hhalted hfound rfl
    · have hrun : s.step task strategy (signals log) #[] = .ok s₁ #[notice] := by
        rw [hstep]
        rfl
      have hquiet : moments (log ++ #[notice]) = moments log := by simp [moments, hnotice]
      rw [turns_recording hstop, hrun]
      dsimp only
      rw [turns_of_stop hhalted.1]
      exact .of_halted hhalted hfound hquiet

/-- The end of a search makes no other call. -/
theorem callsBeforeEnd_run (task : SearchTask) {n : Network} {b : σ}
    (h : (Observer.recording signals).attend #[] ((begin n b).announce task) = (.ok (), log)) :
    callsBeforeEnd (moments (run task strategy (.recording signals) fuel n b #[]).2) =
      callsBeforeEnd (moments (turns task strategy (.recording signals) (begin n b) log fuel).2) := by
  rw [run, h]
  dsimp only
  split
  · rename_i hturns
    rw [hturns]
  · rename_i s log₁ hturns
    generalize hend : (Observer.recording signals).attend log₁ (conclude task (.ofNetwork n) _ s) = e
    obtain ⟨result, log₂⟩ := e
    obtain ⟨new, hnew, hcloses⟩ := moments_of_conclude hend
    have hnone : callsBeforeEnd new = [] := by
      refine List.filter_eq_nil_iff.mpr fun c hc => ?_
      obtain ⟨measures, status, hclosed⟩ := hcloses c hc
      simp [hclosed, Callback.closes]
    rw [hturns, hnew, callsBeforeEnd_append, hnone, List.append_nil]

/-- The turns of a run that comes to its end, and what it hands back of them. -/
theorem turns_of_run (task : SearchTask) {n : Network} {b : σ} {r : SearchResult × Network × σ}
    (h₀ : (Observer.recording signals).attend #[] ((begin n b).announce task) = (.ok (), log))
    (hrun : (run task strategy (.recording signals) fuel n b #[]).1 = .ok r) :
    ∃ s, (turns task strategy (.recording signals) (begin n b) log fuel).1 = .ok s ∧ r.1.stopped = s.stopped ∧
      r.1.found = s.found := by
  obtain ⟨log₀, s, log₁, hannounce, hturns, hend⟩ := run_eq_ok.mp (Prod.ext hrun rfl)
  obtain ⟨-, rfl⟩ := Prod.mk.inj (hannounce.symm.trans h₀)
  obtain ⟨_, -, -, hconcludes⟩ := (conclude_tells task _ _ s).attended hend
  obtain ⟨hstopped, hfound, -⟩ := hconcludes _ rfl
  exact ⟨s, by rw [hturns], hstopped, hfound⟩

end Runs

theorem within_begin (n : Network) (b : σ) (config : SearchConfig) : (begin n b).Within config where
  nodes _ _ := Nat.zero_le _
  solutions hp limit hl := by
    show 1 ≤ limit
    refine Nat.one_le_iff_ne_zero.mpr fun hzero => ?_
    rw [SearchConfig.problem?, hl, hzero, if_pos rfl] at hp
    cases hp

theorem Within.measures {config : SearchConfig} (h : s.Within config) : s.measures.Within config :=
  ⟨h.nodes, fun hp limit hl => Nat.le_of_add_right_le (h.solutions hp limit hl)⟩

end SearchState

namespace Network

variable {σ : Type}

/-- **Limits only truncate.** Nobody asks for a stop and time does not matter: then the calls of a search with limits
are, but for that of its end, the first calls of the search without, and so are its solutions. If nothing stopped it,
both are the same to the end. Its counts never exceed the limits. -/
theorem limits_truncate (n : Network) (task : SearchTask) (strategy : Strategy σ) (signals : Array Notice → Signals)
    (hcancelled : ∀ log, (signals log).cancelled = false) (htime : task.config.timeLimitMs = none) {fuel fuel' : Nat}
    (hfuel : fuel ≤ fuel') (b : σ) :
    let limited := SearchState.run task strategy (.recording signals) fuel n b #[]
    let free := SearchState.run task.withoutLimits strategy (.recording signals) fuel' n b #[]
    callsBeforeEnd (moments limited.2) <+: callsBeforeEnd (moments free.2) ∧
      (∀ r r', limited.1 = .ok r → free.1 = .ok r' → r.1.found.toList <+: r'.1.found.toList) ∧
      (∀ r, limited.1 = .ok r → r.1.stopped = none → free = limited) ∧
      (∀ r, limited.1 = .ok r → r.1.measures.Within task.config) ∧
      ∀ log₀ s log, SearchState.Reaches task strategy (.recording signals) (.begin n b) log₀ s log →
        s.measures.Within task.config := by
  intro limited free
  obtain ⟨log, hlog⟩ : ∃ log,
      (Observer.recording signals).attend #[] ((SearchState.begin n b).announce task) = (.ok (), log) := ⟨_, rfl⟩
  have hcut := SearchState.turns_truncates strategy hcancelled htime hfuel (.begin n b) log
  refine ⟨?_, fun r r' hr hr' => ?_, fun r hr hstopped => ?_, fun r hr => ?_, fun log₀ s log hreaches => ?_⟩
  · rw [SearchState.callsBeforeEnd_run task hlog, SearchState.callsBeforeEnd_run task.withoutLimits hlog]
    exact hcut.shown.filter _
  · obtain ⟨s, hs, -, hfound⟩ := SearchState.turns_of_run task hlog hr
    obtain ⟨s', hs', -, hfound'⟩ := SearchState.turns_of_run task.withoutLimits hlog hr'
    rw [hfound, hfound']
    exact hcut.found s s' hs hs'
  · obtain ⟨s, hs, hnone, -⟩ := SearchState.turns_of_run task hlog hr
    have hlog' : (Observer.recording signals).attend #[] ((SearchState.begin n b).announce task.withoutLimits) =
        (.ok (), log) := hlog
    show SearchState.run _ _ _ _ _ _ _ = SearchState.run _ _ _ _ _ _ _
    rw [SearchState.run, SearchState.run, hlog, hlog']
    dsimp only
    rw [hcut.same s hs (hnone.symm.trans hstopped)]
    rfl
  · obtain ⟨_, s, _, -, hreaches, -, -, _, _, _, hmeasures, -⟩ :=
      SearchState.of_run_recording (Prod.ext hr rfl)
    have hwithin := (hreaches.abides.2 (SearchState.within_begin n b task.config)).measures
    rw [hmeasures]
    exact ⟨hwithin.nodes, hwithin.solutions⟩
  · exact (hreaches.abides.2 (SearchState.within_begin n b task.config)).measures

set_option maxRecDepth 20000 in
/-- Of five nodes and three solutions a limit on nodes leaves three and one. One that is not reached leaves everything. -/
theorem limits_truncate_of_corner : ∃ (n : Network) (b : Brancher) (r r' : SearchResult × Network × Brancher),
    let run (config : SearchConfig) :=
      SearchState.run ⟨config, none⟩ Brancher.strategy (.recording fun _ => {}) 100 n b #[]
    (run { nodeLimit := some 3, solutionLimit := some 2 }).1 = .ok r ∧ (run {}).1 = .ok r' ∧
      r.1.stopped = some .nodeLimit ∧ r.1.measures.nodes = 3 ∧ r.1.found.size = 1 ∧ r'.1.measures.nodes = 5 ∧
      r'.1.found.size = 3 ∧ r.1.found.toList <+: r'.1.found.toList ∧
      callsBeforeEnd (moments (run { nodeLimit := some 3, solutionLimit := some 2 }).2) <+:
        callsBeforeEnd (moments (run {}).2) ∧
      run { nodeLimit := some 5, solutionLimit := some 4 } = run {} := by
  let b := Brancher.heuristic (.inputOrderMin [⟨0⟩, ⟨1⟩])
  let run (n : Network) (config : SearchConfig) :=
    SearchState.run ⟨config, none⟩ Brancher.strategy (.recording fun _ => {}) 100 n b #[]
  have heval : corner?.bind (fun n =>
      (run n { nodeLimit := some 3, solutionLimit := some 2 }).1.toOption.bind fun r =>
        (run n {}).1.toOption.bind fun r' =>
          (run n { nodeLimit := some 5, solutionLimit := some 4 }).1.toOption.map fun r'' =>
            (r.1.stopped, r.1.measures.nodes, r.1.found.size, r'.1.measures.nodes, r'.1.found.size, r''.1.stopped)) =
        some (some .nodeLimit, 3, 1, 5, 3, none) := by
    decide +kernel
  obtain ⟨n, -, heval⟩ := Option.bind_eq_some_iff.mp heval
  obtain ⟨r, hr, heval⟩ := Option.bind_eq_some_iff.mp heval
  obtain ⟨r', hr', heval⟩ := Option.bind_eq_some_iff.mp heval
  obtain ⟨r'', hr'', heval⟩ := Option.map_eq_some_iff.mp heval
  simp only [Prod.mk.injEq] at heval
  obtain ⟨hstopped, hnodes, hfound, hnodes', hfound', hunstopped⟩ := heval
  have hr := toOption_eq_some.mp hr
  have hr' := toOption_eq_some.mp hr'
  obtain ⟨hcalls, hsolutions, -, -, -⟩ := n.limits_truncate ⟨{ nodeLimit := some 3, solutionLimit := some 2 }, none⟩
    Brancher.strategy (fun _ => {}) (fun _ => rfl) rfl (Nat.le_refl 100) b
  obtain ⟨-, -, hsame, -, -⟩ := n.limits_truncate ⟨{ nodeLimit := some 5, solutionLimit := some 4 }, none⟩
    Brancher.strategy (fun _ => {}) (fun _ => rfl) rfl (Nat.le_refl 100) b
  exact ⟨n, b, r, r', hr, hr', hstopped, hnodes, hfound, hnodes', hfound', hsolutions r r' hr hr', hcalls,
    (hsame r'' (toOption_eq_some.mp hr'') hunstopped).symm⟩

end Network

end FiniteDomain
