import FiniteDomain.Proofs.Branch.Echo
import FiniteDomain.Proofs.Propagation.Echo
import FiniteDomain.Proofs.Search.Leaving
import FiniteDomain.Proofs.Search.Moves
import FiniteDomain.Proofs.Search.Solution

/-!
# Searches with a residue

States of two searches echo each other if their networks do, and all else is the same but for the numbers of what was
recorded. From then on the searches take the same turns, find the same solutions, and count the same.

* `SearchState.Echoes`, with a lemma per turn;
* `Echoes.step`: a turn;
* `Echoes.turns`: all turns;
* `Echoes.conclude`: the answers.
-/

namespace FiniteDomain

theorem Decision.takeNext_echoes {k : Residue} {m m' : Model} (d : Decision) (h : m.Echoes k m') :
    Activity.Matches (fun r r' => r'.1 = outcomeAcross k.ids r.1 ∧ r'.2.1 = r.2.1 ∧ r.2.2.Echoes k r'.2.2)
      (d.takeNext m) (d.takeNext m') := by
  rw [takeNext, takeNext]
  split
  · refine .bind (.quietly (.of_eq rfl)) ?_
    rintro μ _ rfl
    refine .bind (h.narrow d.var μ .decision) ?_
    rintro ⟨r, t⟩ ⟨r', t'⟩ ⟨heq, ht⟩
    obtain rfl : r' = outcomeAcross k.ids r := heq
    cases r <;> exact .pure ⟨rfl, rfl, ht⟩
  · exact .throw

/-! ### Networks at a node -/

namespace Network

variable {k : Residue} {n n' : Network} (h : n.Echoes k n')

namespace Echoes

include h

/-- If none counts as violated, then none does in the other network. -/
theorem findViolated (hnone : n.findViolated = .ok none) : n'.findViolated = .ok none := by
  refine firstViolated_eq_none.mpr fun p' hp' hactive => ?_
  obtain ⟨i, hi⟩ := List.getElem?_of_mem hp'
  rw [Array.getElem?_toList] at hi
  obtain ⟨hstate, hflag⟩ := (Bool.and_eq_true _ _).mp hactive
  have hi : n'.posts[(⟨i⟩ : PropId).index]? = some p' := hi
  obtain ⟨j, p, -, hp, hecho⟩ := h.posts.exists_of_get hi (of_decide_eq_true hstate)
  have hmem := Array.mem_of_getElem? hp
  obtain ⟨c, hc⟩ := h.posts.shipped p hmem
  have hactive : n.isActive p = true := by
    rw [isActive, ← hecho.state, ← h.model.store.flag_eq, ← hecho.active]
    exact hactive
  rw [hecho.propagator, hc, c.entailed_alike (h.model.alike _), ← hc]
  exact firstViolated_eq_none.mp hnone p (Array.mem_toList_iff.mpr hmem) hactive

theorem narrow (x : VarId) (μ : Mutation) (cause : Cause) :
    Activity.Matches (fun r r' => r'.1 = outcomeAcross k.ids r.1 ∧ r.2.Echoes k r'.2) (n.narrow x μ cause)
      (n'.narrow x μ (cause.across k.ids)) :=
  h.onModel (R := fun r r' => r' = outcomeAcross k.ids r) (h.model.narrow x μ cause)

theorem improveAndPropagate (objective : Option Objective) (best : Option Int) {cause : Cause}
    (hcause : cause.across k.ids = cause) :
    Activity.Matches (fun r r' => r'.1 = outcomeAcross k.ids r.1 ∧ r.2.Echoes k r'.2)
      (n.improveAndPropagate objective best cause) (n'.improveAndPropagate objective best cause) := by
  have himprove : Activity.Matches (fun r r' => r'.1 = outcomeAcross k.ids r.1 ∧ r.2.Echoes k r'.2)
      (n.improve objective best cause) (n'.improve objective best cause) := by
    cases objective with
    | none => exact .pure ⟨rfl, h⟩
    | some o =>
      cases best with
      | none => exact .pure ⟨rfl, h⟩
      | some b =>
        rw [improve, improve]
        cases o.cut b with
        | error conflict =>
          refine .pure ⟨?_, h⟩
          rw [outcomeAcross, Except.mapError, Contradiction.across, hcause]
        | ok μ =>
          have hnarrow := h.narrow o.var μ cause
          rw [hcause] at hnarrow
          refine .bind hnarrow ?_
          rintro ⟨r, t⟩ ⟨r', t'⟩ ⟨heq, ht⟩
          obtain rfl : r' = outcomeAcross k.ids r := heq
          cases r <;> exact .pure ⟨rfl, ht⟩
  refine .bind himprove ?_
  rintro ⟨r, t⟩ ⟨r', t'⟩ ⟨heq, ht⟩
  obtain rfl : r' = outcomeAcross k.ids r := heq
  cases r with
  | error c => exact .pure ⟨rfl, ht⟩
  | ok u => exact ht.propagate

theorem takeNext (d : Decision) :
    Activity.Matches (fun r r' => r'.1 = outcomeAcross k.ids r.1 ∧ r'.2.1 = r.2.1 ∧ r.2.2.Echoes k r'.2.2)
      (n.takeNext d) (n'.takeNext d) := by
  refine .bind (h.onModel (R := fun r r' => r'.1 = outcomeAcross k.ids r.1 ∧ r'.2 = r.2) ?_) ?_
  · refine .bind (d.takeNext_echoes h.model) ?_
    rintro ⟨r, e, m⟩ ⟨r', e', m'⟩ ⟨heq, he, hm⟩
    exact .pure ⟨⟨heq, he⟩, hm⟩
  · rintro ⟨⟨r, e⟩, t⟩ ⟨⟨r', e'⟩, t'⟩ ⟨⟨heq, he⟩, ht⟩
    exact .pure ⟨heq, he, ht⟩

end Echoes

end Network

theorem mapM_congr {α β : Type} {f g : α → Except Fault β} {l : List α} (h : ∀ x ∈ l, f x = g x) :
    l.mapM f = l.mapM g := by
  induction l with
  | nil => rfl
  | cons x rest ih =>
    obtain ⟨hx, hrest⟩ := List.forall_mem_cons.mp h
    rw [List.mapM_cons, List.mapM_cons, hx, ih hrest]

/-- The same values are captured. -/
theorem Solution.capture_echoes {k : Residue} {m m' : Model} (h : m.Echoes k m') (objective : Option Int) :
    capture m' objective = capture m objective := by
  rw [capture, capture, h.vars, Array.mapM_eq_mapM_toList, Array.mapM_eq_mapM_toList]
  let finish (values : Except Fault (List Int)) : Except Fault Solution := do
    let values ← List.toArray <$> values
    return { values, objective }
  refine congrArg finish (mapM_congr fun v hv => ?_)
  obtain ⟨i, hi⟩ := List.getElem?_of_mem hv
  rw [Array.getElem?_toList] at hi
  rw [Domain.value?_congr (h.get_of hi)]

namespace SearchState

variable {σ μ : Type} {k : Residue} {R : σ → σ → Prop} {s s' : SearchState σ} {task : SearchTask} {strategy : Strategy σ}

/-- The second state is the same but for the residue of its network, the state of its strategy, and the numbers of what
was recorded. -/
inductive Echoes (k : Residue) (R : σ → σ → Prop) : SearchState σ → SearchState σ → Prop
  | intro {s : SearchState σ} {n : Network} {b : σ} (hn : s.network.Echoes k n) (hb : R s.brancher b) :
      Echoes k R s { s with network := n, brancher := b, recorded := s.recorded.map (PropId.across k.ids) }

/-! ### Parts of a turn -/

theorem Echoes.fail (h : Echoes k R s s') (c : Contradiction) :
    Activity.Matches (Echoes k R) (s.fail c) (s'.fail (c.across k.ids)) := by
  obtain ⟨hn, hb⟩ := h
  exact .bind (.report _ _) fun _ _ _ => .bind (.report _ _) fun _ _ _ => .pure (.intro hn.flush.takeLast hb)

theorem Echoes.record (h : Echoes k R s s') (nogood : Nogood) :
    Activity.Matches (Echoes k R) (s.record nogood) (s'.record nogood) := by
  obtain ⟨hn, hb⟩ := h
  refine .bind (hn.post (.nogood nogood)) ?_
  rintro ⟨id, t⟩ ⟨id', t'⟩ ⟨heq, ht⟩
  obtain rfl : id' = id.across k.ids := heq
  refine .pure ?_
  dsimp only
  rw [← Array.map_push]
  exact .intro (s := { s with network := t, recorded := s.recorded.push id }) ht hb

theorem Echoes.recordAll (h : Echoes k R s s') (nogoods : List Nogood) :
    Activity.Matches (Echoes k R) (s.recordAll nogoods) (s'.recordAll nogoods) := by
  induction nogoods generalizing s s' with
  | nil => exact .pure h
  | cons nogood rest ih => exact .bind (h.record nogood) fun _ _ h => ih h

/-! ### Nodes -/

/-- Without a time limit, and as long as nobody cancels, the same limits are reached. -/
theorem limit?_eq {config : SearchConfig} (htime : config.timeLimitMs = none) (s : SearchState σ) {signals : Signals}
    (hc : signals.cancelled = false) : s.limit? config signals = s.limit? config {} := by
  rw [limit?, limit?, hc, htime]
  rfl

theorem Echoes.nextDecision (hs : strategy.Echoes R) (h : Echoes k R s s') :
    Matches (fun r r' => r'.1 = r.1 ∧ R r.2 r'.2) (nextDecision strategy s) (nextDecision strategy s') := by
  obtain ⟨hn, hb⟩ := h
  refine .bind (hs.next hb hn.model) ?_
  rintro ⟨d, b⟩ ⟨d', b'⟩ ⟨heq, hb⟩
  obtain rfl : d' = d := heq
  cases d' with
  | some d => exact .ok ⟨rfl, hb⟩
  | none =>
    have hplain : (Heuristic.inputOrderMin s.network.model.allVars.toList).Plain := ⟨nofun, nofun⟩
    have hnext := hplain.next hn.model (Heuristic.inputOrderMin s.network.model.allVars.toList).draws
    dsimp only
    rw [hn.model.allVars_eq]
    refine .bind hnext ?_
    rintro ⟨d, _⟩ ⟨_, _⟩ ⟨⟨⟩, ⟨⟩⟩
    exact .ok ⟨rfl, hb⟩

theorem Echoes.forbid (h : Echoes k R s s') (solution : Solution) :
    Activity.Matches (Echoes k R) (s.forbid task solution) (s'.forbid task solution) := by
  have hblocking : blocking s'.network.model = blocking s.network.model := by
    obtain ⟨hn, -⟩ := h
    funext solution
    rw [blocking, blocking, hn.model.allVars_eq]
  rw [SearchState.forbid, SearchState.forbid, hblocking]
  split
  · exact h.record _
  · exact .pure h

theorem Echoes.keep (h : Echoes k R s s') (solution : Solution) :
    Echoes k R (s.keep task solution) (s'.keep task solution) := by
  obtain ⟨hn, hb⟩ := h
  rw [SearchState.keep, SearchState.keep]
  dsimp only
  split <;> exact .intro hn hb

theorem Echoes.recordSolution (h : Echoes k R s s') :
    Activity.Matches (Echoes k R) (recordSolution task s) (recordSolution task s') := by
  obtain ⟨hn, hb⟩ := h
  rw [recordSolution_eq, recordSolution_eq]
  by_cases hnone : s.network.findViolated = .ok none
  · have hobjective : ∀ m : Model, s.network.model.Echoes k m → objectiveValue task m = objectiveValue task s.network.model := by
      intro m hm
      rw [objectiveValue, objectiveValue]
      split
      · exact hm.value?_eq _
      · rfl
    rw [hnone, hn.findViolated hnone]
    refine .bind (R := fun r r' => r = none ∧ r' = none) (.quietly (.ok ⟨rfl, rfl⟩)) ?_
    rintro _ _ ⟨rfl, rfl⟩
    dsimp only
    rw [hobjective _ hn.model]
    refine .bind (.quietly (.of_eq rfl)) ?_
    rintro objective _ rfl
    rw [Solution.capture_echoes hn.model]
    refine .bind (.quietly (.of_eq rfl)) ?_
    rintro solution _ rfl
    refine .bind (.report _ _) fun _ _ _ => .bind (.report _ _) fun _ _ _ => ?_
    refine .bind (forbid (k := k) (R := R) ?_ solution) fun _ _ h => .pure (h.keep solution)
    exact .intro hn hb
  · intro before t after hrun
    cases hv : s.network.findViolated with
    | error fault =>
      rw [hv] at hrun
      cases hrun
    | ok violated =>
      rw [hv] at hrun
      cases violated with
      | none => exact absurd hv hnone
      | some e => cases hrun

theorem Echoes.openNode (hs : strategy.Echoes R) (htime : task.config.timeLimitMs = none) (h : Echoes k R s s')
    {signals signals' : Signals} (hc : signals.cancelled = false) (hc' : signals'.cancelled = false) :
    Activity.Matches (Echoes k R) (openNode task strategy signals s) (openNode task strategy signals' s') := by
  have hlimit : s'.limit? task.config signals' = s.limit? task.config signals := by
    obtain ⟨-, -⟩ := h
    rw [limit?_eq htime _ hc, limit?_eq htime _ hc']
    rfl
  obtain ⟨hn, hb⟩ := h
  rw [SearchState.openNode, SearchState.openNode, hlimit]
  split
  · exact .bind (.report _ _) fun _ _ _ => .pure (.intro hn hb)
  · refine .bind (.report _ _) fun _ _ _ => ?_
    dsimp only
    split
    · exact .pure (.intro hn hb)
    · refine .bind (.quietly (nextDecision (k := k) hs ?_)) ?_
      · exact .intro hn hb
      rintro ⟨d, b⟩ ⟨d', b'⟩ ⟨heq, hb⟩
      obtain rfl : d' = d := heq
      cases d' with
      | some d => exact .pure (.intro hn hb)
      | none =>
        refine recordSolution ?_
        exact .intro hn hb

/-! ### Branches -/

theorem Echoes.branch (h : Echoes k R s s') (d : Decision) :
    Activity.Matches (fun r r' => r'.1 = outcomeAcross k.ids r.1 ∧ Echoes k R r.2 r'.2) (branch task s d)
      (branch task s' d) := by
  obtain ⟨hn, hb⟩ := h
  refine .bind (.quietly (hn.mapModel (.ok hn.model.pushWorld))) fun t t' ht => ?_
  refine .bind (ht.takeNext d) ?_
  rintro ⟨r, e, u⟩ ⟨r', e', u'⟩ ⟨heq, he, hu⟩
  obtain rfl : r' = outcomeAcross k.ids r := heq
  obtain rfl : e' = e := he
  cases r with
  | error c => exact .pure ⟨rfl, .intro hu hb⟩
  | ok _ =>
    refine .bind (hu.improveAndPropagate task.objective s.measures.best rfl) ?_
    rintro ⟨r, v⟩ ⟨r', v'⟩ ⟨heq, hv⟩
    exact .pure ⟨heq, .intro hv hb⟩

theorem Echoes.settle (h : Echoes k R s s') (r : Except Contradiction Unit) :
    Activity.Matches (Echoes k R) (s.settle r) (s'.settle (outcomeAcross k.ids r)) := by
  cases r with
  | ok u =>
    obtain ⟨hn, hb⟩ := h
    exact .pure (.intro hn hb)
  | error c =>
    refine .bind (h.fail c) fun t t' ht => ?_
    obtain ⟨hn, hb⟩ := ht
    exact .pure (.intro hn hb)

theorem Echoes.goDown (h : Echoes k R s s') : Activity.Matches (Echoes k R) (goDown task s) (goDown task s') := by
  obtain ⟨hn, hb⟩ := h
  rw [SearchState.goDown, SearchState.goDown]
  dsimp only
  split
  · exact .throw
  · rename_i d _
    refine .bind (.report _ _) fun _ _ _ => .bind (branch (k := k) (R := R) ?_ d) ?_
    · exact .intro hn hb
    · rintro ⟨r, t⟩ ⟨r', t'⟩ ⟨heq, ht⟩
      obtain rfl : r' = outcomeAcross k.ids r := heq
      exact ht.settle r

theorem Echoes.goUp (h : Echoes k R s s') : Activity.Matches (Echoes k R) (goUp task s) (goUp task s') := by
  obtain ⟨hn, hb⟩ := h
  rw [SearchState.goUp, SearchState.goUp]
  dsimp only
  split
  · exact .pure (.intro hn hb)
  · rename_i d _
    refine .bind (.quietly (hn.mapModel hn.model.popWorld)) fun t t' ht => ?_
    split
    · refine .bind (.report _ _) fun _ _ _ => .bind (branch (k := k) (R := R) ?_ d) ?_
      · exact .intro ht hb
      · rintro ⟨r, u⟩ ⟨r', u'⟩ ⟨heq, hu⟩
        obtain rfl : r' = outcomeAcross k.ids r := heq
        exact hu.settle r
    · exact .pure (.intro ht hb)

/-! ### Restarts and turns -/

theorem Echoes.restart (hs : strategy.Echoes R) (h : Echoes k R s s') :
    Activity.Matches (Echoes k R) (restart task strategy s) (restart task strategy s') := by
  obtain ⟨hn, hb⟩ := h
  rw [SearchState.restart, SearchState.restart]
  dsimp only
  refine .bind (.quietly (hn.mapModel (hn.model.popUntil s.root))) fun t t' ht => ?_
  refine .bind (.report _ _) fun _ _ _ => .bind (.report _ _) fun _ _ _ => ?_
  refine .bind (.quietly (ht.flush.mapModel (.ok ht.flush.model.pushWorld))) fun u u' hu => ?_
  refine .bind (recordAll (k := k) (R := R) ?_ _) ?_
  · exact .intro hu (hs.restarted _ hb)
  rintro v _ ⟨hv, hb⟩
  refine .bind (hv.improveAndPropagate task.objective v.measures.best rfl) ?_
  rintro ⟨r, w⟩ ⟨r', w'⟩ ⟨heq, hw⟩
  obtain rfl : r' = outcomeAcross k.ids r := heq
  cases r with
  | ok _ =>
    exact .bind (.quietly (hw.mapModel hw.model.commitWorld)) fun _ _ hx => .pure (.intro hx hb)
  | error c =>
    refine .bind (fail (k := k) (R := R) ?_ c) ?_
    · exact .intro hw hb
    rintro x _ ⟨hx, hb⟩
    exact .bind (.quietly (hx.mapModel hx.model.popWorld)) fun _ _ hy => .pure (.intro hy hb)

/-- **A turn**, unless it is the first. -/
theorem Echoes.step (hs : strategy.Echoes R) (htime : task.config.timeLimitMs = none) (h : Echoes k R s s')
    (hroot : s.turn ≠ .root) {signals signals' : Signals} (hc : signals.cancelled = false)
    (hc' : signals'.cancelled = false) :
    Activity.Matches (Echoes k R) (s.step task strategy signals) (s'.step task strategy signals') := by
  have hturn : s'.turn = s.turn := by
    obtain ⟨-, -⟩ := h
    rfl
  rw [SearchState.step, SearchState.step, hturn]
  cases ht : s.turn with
  | root => exact absurd ht hroot
  | node => exact h.openNode hs htime hc hc'
  | down => exact h.goDown
  | up => exact h.goUp
  | restart => exact h.restart hs
  | stop => exact .pure h

/-! ### Runs -/

section Runs

variable {ν : Type} {o : Observer μ} {o' : Observer ν} {m m₁ : μ}

/-- Whoever listens. -/
theorem attend_matches (o' : Observer ν) {α β : Type} {Q : α → β → Prop} {a : Activity α} {a' : Activity β}
    (h : Activity.Matches Q a a') {x : α} (hx : o.attend m a = (.ok x, m₁)) (m' : ν) :
    ∃ y m₁', o'.attend m' a' = (.ok y, m₁') ∧ Q x y := by
  obtain ⟨notices, hx⟩ := Observer.of_attend_ok hx
  obtain ⟨y, notices', hy, hxy⟩ := h _ _ _ hx #[]
  refine ⟨y, notices'.foldl o'.hear m', ?_, hxy⟩
  have hrun : a'.run #[] = .ok y notices' := hy
  rw [Observer.attend, hrun]

/-- **All turns**, if nobody cancels and no time limit is set. -/
theorem Echoes.turns (hs : strategy.Echoes R) (htime : task.config.timeLimitMs = none)
    (ho : ∀ m, (o.signals m).cancelled = false) (ho' : ∀ m, (o'.signals m).cancelled = false) (h : Echoes k R s s')
    (hroot : s.turn ≠ .root) {fuel : Nat} {t : SearchState σ} (hrun : turns task strategy o s m fuel = (.ok t, m₁))
    (m' : ν) : ∃ t' m₁', turns task strategy o' s' m' fuel = (.ok t', m₁') ∧ Echoes k R t t' := by
  have hturn : ∀ {s s' : SearchState σ}, Echoes k R s s' → s'.turn = s.turn := by
    rintro s _ ⟨-, -⟩
    rfl
  induction fuel generalizing s s' m m' with
  | zero =>
    by_cases hstop : s.turn = .stop
    · rw [turns_of_stop hstop] at hrun
      cases hrun
      exact ⟨s', m', turns_of_stop ((hturn h).trans hstop) m' 0, h⟩
    · obtain ⟨_, _, _, hzero, -⟩ := (turns_eq_ok hstop).mp hrun
      cases hzero
  | succ fuel ih =>
    by_cases hstop : s.turn = .stop
    · rw [turns_of_stop hstop] at hrun
      cases hrun
      exact ⟨s', m', turns_of_stop ((hturn h).trans hstop) m' _, h⟩
    · obtain ⟨_, u, m₂, ⟨⟩, hstep, hrest⟩ := (turns_eq_ok hstop).mp hrun
      obtain ⟨u', m₂', hstep', hu⟩ := attend_matches o' (h.step hs htime hroot (ho m) (ho' m')) hstep m'
      obtain ⟨_, hmoved⟩ := Observer.of_attend_ok hstep
      obtain ⟨t', m₁', hrest', ht⟩ := ih hu (step_moves hroot strategy _ _ _ _ hmoved).ne_root hrest m₂'
      exact ⟨t', m₁', (turns_eq_ok (hturn h ▸ hstop)).mpr ⟨fuel, u', m₂', rfl, hstep', hrest'⟩, ht⟩

theorem unpostAll_echoes {n n' : Network} (h : n.Echoes k n') (ids : List PropId) :
    Activity.Matches (Network.Echoes k) (unpostAll n ids) (unpostAll n' (ids.map (PropId.across k.ids))) := by
  induction ids generalizing n n' with
  | nil => exact .pure h
  | cons id rest ih => exact .bind (h.unpost id) fun _ _ h => ih h

/-- **The answers** are the same but for the time. -/
theorem Echoes.conclude (h : Echoes k R s s') (task : SearchTask) {origin origin' : Origin}
    (hworld : origin'.world = origin.world)
    (hexecutions : (origin'.executions : Int) = origin.executions + k.executions) (elapsedMs elapsedMs' : Nat) :
    Activity.Matches (fun r r' => r'.1 = { r.1 with measures := { r.1.measures with elapsedMs := elapsedMs' } } ∧
        r.2.1.Echoes k r'.2.1 ∧ R r.2.2 r'.2.2)
      (conclude task origin elapsedMs s) (conclude task origin' elapsedMs' s') := by
  obtain ⟨hn, hb⟩ := h
  rw [SearchState.conclude, SearchState.conclude]
  dsimp only
  rw [hworld, Array.toList_map]
  refine .bind (.quietly (hn.flush.mapModel (hn.flush.model.popUntil origin.world))) fun t t' ht => ?_
  refine .bind (unpostAll_echoes ht _) fun u u' hu => ?_
  have hpropagations : u'.executions - origin'.executions = u.executions - origin.executions := by
    have := hu.executions
    omega
  rw [hpropagations]
  exact .bind (.report _ _) fun _ _ _ => .bind (.report _ _) fun _ _ _ => .pure ⟨rfl, hu, hb⟩

/-! ### From the root on -/

/-- The network that is propagated at the root of a search. -/
def rooted (n : Network) : Network := (Network.start { n with model := n.model.pushWorld }).scheduleAll

/-- What comes of the root in two searches: both fail there, or both go on from networks that echo each other. -/
structure RootsEcho (k : Residue) (n n' : Network) : Prop where
  world : n'.model.world = n.model.world
  executions : (n'.executions : Int) = n.executions + k.executions
  propagate : Activity.Matches (fun r r' => (∃ c c', r.1 = .error c ∧ r'.1 = .error c') ∨
    r.1 = .ok () ∧ r'.1 = .ok () ∧ r.2.Echoes k r'.2) (rooted n).propagate (rooted n').propagate

variable {n n' : Network} {b b' : σ}

/-- After the root both searches have failed there, or they go on together. -/
theorem RootsEcho.propagateRoot (h : RootsEcho k n n') (task : SearchTask) (hb : R b b') :
    Activity.Matches (fun s s' => s.turn = .stop ∧ s.measures.nodes = 0 ∧ s.stopped = none ∨
        s.turn = .node ∧ Echoes k R s s')
      (propagateRoot task (begin n b)) (propagateRoot task (begin n' b')) := by
  have himprove : ∀ n : Network, n.improveAndPropagate task.objective none .objective = n.propagate := by
    intro n
    rw [Network.improveAndPropagate, Network.improve]
    · rfl
    · simp
  rw [SearchState.propagateRoot, SearchState.propagateRoot]
  refine .bind (R := fun t t' => t = { n with model := n.model.pushWorld } ∧ t' = { n' with model := n'.model.pushWorld })
    (.quietly (.ok ⟨rfl, rfl⟩)) ?_
  rintro _ _ ⟨rfl, rfl⟩
  have hroot : n'.model.pushWorld.world = n.model.pushWorld.world := by
    rw [Model.pushWorld, Model.pushWorld, Model.world, Model.world, Store.world_push, Store.world_push]
    exact congrArg (· + 1) h.world
  dsimp only [begin]
  rw [himprove, himprove, hroot]
  refine .bind h.propagate ?_
  rintro ⟨r, t⟩ ⟨r', t'⟩ (⟨c, c', hr, hr'⟩ | ⟨hr, hr', ht⟩)
  · obtain rfl : r = .error c := hr
    obtain rfl : r' = .error c' := hr'
    refine .bind (R := fun s s' => s.measures.nodes = 0 ∧ s.stopped = none) ?_ fun s s' hs => .pure (.inl ⟨rfl, hs⟩)
    exact .bind (.report _ _) fun _ _ _ => .bind (.report _ _) fun _ _ _ => .pure ⟨rfl, rfl⟩
  · obtain rfl : r = .ok () := hr
    obtain rfl : r' = .ok () := hr'
    have hecho : Echoes k R { begin t b with turn := .node, root := n.model.pushWorld.world } _ := .intro ht hb
    rw [show (begin t b).recorded.map (PropId.across k.ids) = #[] from Array.map_empty] at hecho
    exact .bind (.report _ _) fun _ _ _ => .pure (.inr ⟨rfl, hecho⟩)

theorem conclude_yields (task : SearchTask) (origin : Origin) (elapsedMs : Nat) (s : SearchState σ) :
    (conclude task origin elapsedMs s).Yields fun r =>
      r.1.measures.nodes = s.measures.nodes ∧ r.1.stopped = s.stopped :=
  .skip fun _ => .skip fun _ => .skip fun _ => .skip fun _ => .pure ⟨rfl, rfl⟩

/-- **Two runs whose roots echo each other** have the same answer, but for the time, unless the first fails at its root. -/
theorem RootsEcho.run (h : RootsEcho k n n') (hs : strategy.Echoes R) (htime : task.config.timeLimitMs = none)
    (ho : ∀ m, (o.signals m).cancelled = false) (ho' : ∀ m, (o'.signals m).cancelled = false) (hb : R b b') {fuel : Nat}
    {result : SearchResult} {t : Network} {c : σ}
    (hrun : run task strategy o fuel n b m = (.ok (result, t, c), m₁))
    (hopened : 0 < result.measures.nodes ∨ result.stopped ≠ none) (m' : ν) :
    ∃ result' t' c' m₁', run task strategy o' fuel n' b' m' = (.ok (result', t', c'), m₁') ∧
      result' = { result with measures := { result.measures with elapsedMs := result'.measures.elapsedMs } } ∧
      t.Echoes k t' ∧ R c c' := by
  obtain ⟨m₂, s, m₃, hannounce, hturns, hconclude⟩ := run_eq_ok.mp hrun
  have hgreets : Activity.Matches (fun _ _ => True) ((begin n b).announce task) ((begin n' b').announce task) :=
    .report _ _
  obtain ⟨_, m₂', hannounce', -⟩ := attend_matches o' hgreets hannounce m'
  have hbegins : ∀ n (b : σ), (begin n b).turn ≠ .stop := fun _ _ => nofun
  obtain ⟨fuel, u, m₄, rfl, hstep, hrest⟩ := (turns_eq_ok (hbegins n b)).mp hturns
  have hroot := h.propagateRoot task hb
  obtain ⟨u', m₄', hstep', hu⟩ := attend_matches o' hroot hstep m₂'
  rcases hu with ⟨hstop, hnodes, hstopped⟩ | ⟨hnode, hu⟩
  · rw [turns_of_stop hstop] at hrest
    cases hrest
    obtain ⟨_, hconclude⟩ := Observer.of_attend_ok hconclude
    obtain ⟨hsame, hsame'⟩ := conclude_yields task _ _ s _ _ _ hconclude
    rcases hopened with hopened | hopened
    · rw [hsame, hnodes] at hopened
      exact absurd hopened (Nat.lt_irrefl 0)
    · exact absurd (hsame'.trans hstopped) hopened
  · have hne : u.turn ≠ .root := by
      rw [hnode]
      nofun
    obtain ⟨s', m₃', hrest', hs'⟩ := hu.turns hs htime ho ho' hne hrest m₄'
    have hworld : (Origin.ofNetwork n').world = (Origin.ofNetwork n).world := h.world
    have hends := hs'.conclude task hworld h.executions
      (o.signals m₃).elapsedMs (o'.signals m₃').elapsedMs
    obtain ⟨⟨result', t', c'⟩, m₁', hconclude', heq, ht, hc⟩ := attend_matches o' hends hconclude m₃'
    refine ⟨result', t', c', m₁', run_eq_ok.mpr ⟨m₂', s', m₃', hannounce', ?_, hconclude'⟩, ?_, ht, hc⟩
    · exact (turns_eq_ok (hbegins n' b')).mpr ⟨fuel, u', m₄', rfl, hstep', hrest'⟩
    · have heq : result' = _ := heq
      rw [heq]

end Runs

end SearchState

end FiniteDomain
