import FiniteDomain.Proofs.Search.Restarts

/-!
# Whole runs

An observer that keeps all notices sees what the invariant of the turns says of a whole run, however it ends.

* `turns_spec`: turn after turn;
* `conclude_spec`: the end, at which the network is that of the beginning again;
* `run_spec`.
-/

namespace FiniteDomain

open Activity

variable [Tolerance] {σ α : Type} {q : Quest} {P : σ → Prop} {r : Roster} {shown : List Moment} {s : SearchState σ}
  {signals : Array Notice → Signals}

/-- An observer that keeps all notices, and whose signals may depend on all that it heard. -/
def Observer.recording (signals : Array Notice → Signals) : Observer (Array Notice) := ⟨Array.push, signals⟩

/-- What a recorded computation comes to: it showed what may be shown, and it ended with a result that fits
that, ran out of turns, or ended in a fault that is put up with. -/
def Records (q : Quest) (Q : α → List Moment → Prop) : Except Fault α × Array Notice → Prop
  | (.ok x, log) => Fits q.Shown (moments log) ∧ Q x (moments log)
  | (.error fault, log) => Fits q.Shown (moments log) ∧ (fault = .outOfFuel ∨ fault.Tolerated)

omit [Tolerance] in
/-- What such an observer keeps of an activity. -/
theorem Observer.attend_recording (signals : Array Notice → Signals) (log : Array Notice) (a : Activity α) :
    (Observer.recording signals).attend log a =
      match a #[] with
      | .ok x new => (.ok x, log ++ new)
      | .error fault new => (.error fault, log ++ new) := by
  have hpush : ∀ new : Array Notice, new.foldl Array.push log = log ++ new := by
    intro new
    rw [← Array.foldl_toList, List.foldl_push_eq_append']
  rw [attend, EStateM.run]
  cases a #[] with
  | ok x new => exact congrArg (Prod.mk _) (hpush new)
  | error fault new => exact congrArg (Prod.mk _) (hpush new)

theorem Activity.Ensures.records (signals : Array Notice → Signals) {a : Activity α} {Q : α → List Moment → Prop}
    {log : Array Notice} (hlog : Fits q.Shown (moments log))
    (h : Ensures (fun before c => q.Shown (moments log ++ before) c) a Q) :
    Records q (fun x shown => ∃ new, shown = moments log ++ new ∧ Q x new)
      ((Observer.recording signals).attend log a) := by
  have h := h #[]
  rw [Observer.attend_recording]
  cases hr : a #[] with
  | ok x after =>
    rw [hr] at h
    obtain ⟨new, rfl, hfits, hQ⟩ := h
    simp only [Array.empty_append, Records, moments_append]
    exact ⟨hlog.append hfits, _, rfl, hQ⟩
  | error fault after =>
    rw [hr] at h
    obtain ⟨new, rfl, hfits, hn⟩ := h
    simp only [Array.empty_append, Records, moments_append]
    exact ⟨hlog.append hfits, .inr hn⟩

theorem Turns.records (signals : Array Notice → Signals) {a : Activity (SearchState σ)} {log : Array Notice}
    (hlog : Fits q.Shown (moments log))
    (h : Turns q P (moments log) a) :
    Records q (fun s shown => ∃ r, s.Stands q P r shown) ((Observer.recording signals).attend log a) := by
  have h := Ensures.records signals hlog h
  generalize (Observer.recording signals).attend log a = e at h
  obtain ⟨result, log'⟩ := e
  cases result with
  | error fault => exact h
  | ok s =>
    obtain ⟨hfits, new, hnew, r, hs⟩ := h
    exact ⟨hfits, r, hnew ▸ hs⟩

namespace SearchState

/-- **Turn after turn** the invariant is kept, until the search stops. -/
theorem turns_spec {strategy : Strategy σ} (hstrategy : strategy.Splits q.start P)
    (ho : ∀ o, q.task.objective = some o → q.start.owns o.var = true) (fuel : Nat) {log : Array Notice}
    (hlog : Fits q.Shown (moments log)) (h : s.Stands q P r (moments log)) :
    Records q (fun s shown => s.turn = .stop ∧ ∃ r, s.Stands q P r shown)
      (turns q.task strategy (.recording signals) s log fuel) := by
  induction fuel generalizing s r log with
  | zero =>
    rw [turns]
    split
    · rename_i hstop
      exact ⟨hlog, hstop, r, h⟩
    · exact ⟨hlog, .inl rfl⟩
  | succ fuel ih =>
    rw [turns]
    split
    · rename_i hstop
      exact ⟨hlog, hstop, r, h⟩
    · have hstep := Turns.records signals hlog
        (step_spec ho h hstrategy ((Observer.recording signals).signals log))
      generalize (Observer.recording signals).attend log _ = e at hstep
      obtain ⟨result, log'⟩ := e
      cases result with
      | error fault => exact hstep
      | ok s' =>
        obtain ⟨hlog', r', h'⟩ := hstep
        exact ih hlog' h'

end SearchState

/-! ### The end -/

omit [Tolerance] in
theorem Roster.foldl_erase (ids : List PropId) (r : Roster) (id : PropId) :
    ids.foldl Roster.erase r id = if id ∈ ids then none else r id := by
  induction ids generalizing r with
  | nil => simp
  | cons i rest ih =>
    rw [List.foldl_cons, ih, Roster.erase]
    by_cases hid : id = i <;> simp [hid]

/-- The network is the one of the beginning, with some cells more and nothing to look at. -/
structure Quest.Ends (q : Quest) (n : Network) : Prop where
  wired : n.Wired q.posted
  calm : n.failed = false
  model : ∃ values, n.model = { q.start with store := q.start.store.grow values, events := #[] }

/-- What the search concludes. -/
structure Concludes (q : Quest) (shown : List Moment) (result : SearchResult) (best : Option Int) : Prop where
  ledger : Ledger q shown result.found best
  status : result.status = Status.conclude result.stopped (result.found.size != 0) q.task.objective.isSome
  complete : result.stopped = none → ∀ a, ¬q.Seeks result.found best a

namespace SearchState

theorem unpostAll_spec {n : Network} (h : n.Wired r) {ids : List PropId} (hnodup : ids.Nodup)
    (hids : ∀ id ∈ ids, r id ≠ none) :
    (unpostAll n ids).Quiet fun n' => n'.Wired (ids.foldl Roster.erase r) ∧ n'.model = n.model ∧
      n'.failed = n.failed := by
  induction ids generalizing n r with
  | nil => exact .pure ⟨h, rfl, rfl⟩
  | cons i rest ih =>
    obtain ⟨hfresh, hrest⟩ := List.nodup_cons.mp hnodup
    obtain ⟨hi, hids⟩ := List.forall_mem_cons.mp hids
    rw [unpostAll]
    refine Quiet.bind (Network.unpost_spec h hi) fun n1 h1 => ?_
    refine Quiet.mono (ih h1.wired hrest fun id hid => ?_) ?_
    · rw [Roster.erase, if_neg fun heq : id = i => hfresh (heq ▸ hid)]
      exact hids id hid
    rintro n2 ⟨hw, hm, hf⟩
    exact ⟨hw, hm.trans h1.model_eq, hf.trans h1.failed_eq⟩

/-- **At its end** the search says what it found, and leaves the network as it was. -/
theorem conclude_spec (hturn : s.turn = .stop) (h : s.Stands q P r shown) {origin : Origin}
    (horigin : origin.world = q.start.store.world) (elapsedMs : Nat) :
    Ensures (fun before c => q.Shown (shown ++ before) c) (conclude q.task origin elapsedMs s) fun e new =>
      (∃ best, Concludes q (shown ++ new) e.1 best) ∧ q.Ends e.2.1 ∧ P e.2.2 := by
  simp only [Stands, hturn] at h
  obtain ⟨R, hsound, hladder, hstop⟩ := h
  obtain ⟨values, hpop⟩ := hladder.popUntil_start hsound.linked
  rw [← horigin] at hpop
  have hflush := Network.flush_spec hsound.wired
  have hfirst : s.network.flush.mapModel (fun m => m.popUntil origin.world) = .ok { s.network.flush with
      model := { s.network.flush.model with store := q.start.store.grow values } } :=
    Network.mapModel_eq_ok (Model.popUntil_eq_ok (by rw [hflush.model_eq]; exact hpop))
  rw [conclude]
  refine Quiet.before (.answer hfirst rfl) ?_
  generalize hn : ({ s.network.flush with
    model := { s.network.flush.model with store := q.start.store.grow values } } : Network) = n
  rintro _ rfl
  have hwired : n.Wired r := hn ▸ hflush.wired.withModel _
  have hmem : ∀ id, id ∈ s.recorded.toList ↔ q.posted id = none ∧ r id ≠ none := fun id =>
    Array.mem_toList_iff.trans (hsound.recorded.mem_iff id)
  refine Quiet.before (unpostAll_spec hwired hsound.recorded.nodup fun id hid => ((hmem id).mp hid).2) ?_
  rintro n' ⟨hwired', hmodel, hfailed⟩
  have hroster : s.recorded.toList.foldl Roster.erase r = q.posted := by
    funext id
    rw [Roster.foldl_erase]
    split
    · rename_i hid
      exact ((hmem id).mp hid).1.symm
    · rename_i hid
      cases hp : q.posted id with
      | some e => exact hsound.posted id e hp
      | none =>
        cases hr : r id with
        | none => rfl
        | some e => exact absurd ((hmem id).mpr ⟨hp, by rw [hr]; simp⟩) hid
  rw [hroster] at hwired'
  refine Ensures.bind (R := fun _ new => solutionsOf new = []) (.tell trivial rfl) fun _ new hnew => ?_
  refine Quiet.before (.report rfl) fun _ _ => Ensures.pure ?_
  rw [List.append_nil]
  refine ⟨⟨s.measures.best, hsound.ledger.skip hnew, ?_, fun hs a ha => hstop hs a (hsound.ahead a ha)⟩, ⟨hwired', ?_, ?_⟩,
    hsound.strategy⟩
  · show Status.conclude _ (s.measures.solutions != 0) _ = _
    rw [hsound.count]
  · rw [hfailed, ← hn]
    exact hflush.failed_eq
  · refine ⟨values, ?_⟩
    rw [hmodel, ← hn, hflush.model_eq]
    show { s.network.model with store := q.start.store.grow values, events := #[] } = _
    rw [hsound.frame]

/-- **A whole run**, from a network that a search can begin with. -/
theorem run_spec {n : Network} (h : q.Begins n) {b : σ} (hP : P b) {strategy : Strategy σ}
    (hstrategy : strategy.Splits q.start P) (ho : ∀ o, q.task.objective = some o → q.start.owns o.var = true) (fuel : Nat) :
    Records q (fun e shown => (∃ best, Concludes q shown e.1 best) ∧ q.Ends e.2.1 ∧ P e.2.2)
      (run q.task strategy (.recording signals) fuel n b #[]) := by
  rw [run]
  have hannounce : Ensures (fun before c => q.Shown (moments #[] ++ before) c) ((begin n b).announce q.task)
      fun _ new => new = [] := Quiet.ensures (.report rfl) fun _ _ => rfl
  have hbegin := hannounce.records signals .nil
  generalize (Observer.recording signals).attend #[] ((begin n b).announce q.task) = e at hbegin
  obtain ⟨result, log⟩ := e
  cases result with
  | error fault => exact hbegin
  | ok u =>
    obtain ⟨hlog, new, hnew, rfl⟩ := hbegin
    have hempty : moments log = [] := hnew
    have hturns : Records q (fun s shown => s.turn = .stop ∧ ∃ r, s.Stands q P r shown)
        (turns q.task strategy (.recording signals) (begin n b) log fuel) := by
      cases fuel with
      | zero => exact ⟨hlog, .inl rfl⟩
      | succ fuel =>
        have hroot := Turns.records signals hlog (hempty ▸ propagateRoot_spec ho h hP)
        rw [turns, if_neg (by simp [begin])]
        have hstep : step q.task strategy ((Observer.recording signals).signals log) (begin n b) =
            propagateRoot q.task (begin n b) := rfl
        rw [hstep]
        generalize (Observer.recording signals).attend log _ = e at hroot
        obtain ⟨result, log'⟩ := e
        cases result with
        | error fault => exact hroot
        | ok s =>
          obtain ⟨hlog', r, hs⟩ := hroot
          exact turns_spec hstrategy ho fuel hlog' hs
    simp only
    generalize turns q.task strategy (.recording signals) (begin n b) log fuel = e at hturns
    obtain ⟨result, log'⟩ := e
    cases result with
    | error fault => exact hturns
    | ok s =>
      obtain ⟨hlog', hstop, r, hs⟩ := hturns
      have horigin : (Origin.ofNetwork n).world = q.start.store.world := by rw [Origin.ofNetwork, h.model_eq]; rfl
      have hend := Ensures.records signals hlog'
        (conclude_spec hstop hs horigin ((Observer.recording signals).signals log').elapsedMs)
      simp only
      generalize (Observer.recording signals).attend log' _ = e at hend
      obtain ⟨result, log''⟩ := e
      cases result with
      | error fault => exact hend
      | ok e =>
        obtain ⟨hlog'', new, hnew, hconcludes, hends, hP'⟩ := hend
        exact ⟨hlog'', hnew ▸ hconcludes, hends, hP'⟩

end SearchState

end FiniteDomain
