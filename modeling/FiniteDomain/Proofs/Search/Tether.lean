import FiniteDomain.Proofs.Branch.Sheltered
import FiniteDomain.Proofs.Propagation.Roll
import FiniteDomain.Proofs.Search.Moves
import FiniteDomain.Proofs.Store.Over

/-!
# What a search holds on to

A search opens worlds above the one in which it began, and posts nogoods. At every turn the number of open worlds
is known from the turn and the path, closing them comes back to the store of the beginning, and the posts that
came to the roll are those that were recorded.

* `Tethered`: what is said of a network some worlds above another;
* `SearchState.Stays`: the invariant;
* `SearchState.step_gives`: a turn keeps it.
-/

namespace FiniteDomain

open Activity Sheltered

/-! ### Networks above another -/

namespace Network

/-- So many worlds above the first network, with some posts more, which are recorded. -/
structure Tethered (n₀ : Network) (k : Nat) (recorded : Array PropId) (n : Network) : Prop where
  lawful : n.Lawful
  frame : n.model = { n₀.model with store := n.model.store, events := n.model.events }
  store : n₀.model.store.Over k n.model.store
  roll : ∀ i < n₀.posts.size, n.roll[i]? = n₀.roll[i]?
  entered : ∀ i, n₀.posts.size ≤ i → i < n.posts.size → ⟨i⟩ ∈ recorded
  fresh : ∀ id ∈ recorded, n₀.posts.size ≤ id.index
  housed : ∀ e ∈ n.roll, e.active < n.model.store.slots.size
  learns : Learns n₀ n

namespace Tethered

variable {n₀ n n' : Network} {k j : Nat} {recorded : Array PropId}

theorem evolve (h : Tethered n₀ (k + 1) recorded n) (hl : n'.Lawful) (he : Evolves n n') :
    Tethered n₀ (k + 1) recorded n' := by
  have hsize : n'.posts.size = n.posts.size := size_eq_of_roll he.roll
  refine ⟨hl, ?_, h.store.writes he.model.writes, ?_, ?_, h.fresh, ?_, ?_⟩
  · rw [he.model.frame, h.frame]
  · rw [he.roll]
    exact h.roll
  · rw [hsize]
    exact h.entered
  · rw [he.roll, he.model.writes.size_eq]
    exact h.housed
  · rw [Learns, he.roll]
    exact h.learns

/-- The network with another store of as many cells. -/
theorem withStore (h : Tethered n₀ k recorded n) {s : Store Datum} (hs : n₀.model.store.Over j s)
    (hsize : s.slots.size = n.model.store.slots.size) :
    Tethered n₀ j recorded { n with model := { n.model with store := s } } :=
  ⟨h.lawful.withModel _, by rw [h.frame], hs, h.roll, h.entered, h.fresh, fun e he => hsize ▸ h.housed e he, h.learns⟩

theorem pushWorld (h : Tethered n₀ k recorded n) :
    Tethered n₀ (k + 1) recorded { n with model := n.model.pushWorld } := h.withStore h.store.push rfl

theorem popWorld (h : Tethered n₀ (k + 1) recorded n) :
    ∃ t, n.mapModel Model.popWorld = .ok { n with model := { n.model with store := t } } ∧
      Tethered n₀ k recorded { n with model := { n.model with store := t } } := by
  obtain ⟨t, ht, hover⟩ := h.store.exists_pop
  exact ⟨t, mapModel_eq_ok (Model.popWorld_eq_ok ht), h.withStore hover (h.store.linked.size_of_pop ht)⟩

theorem popUntil (h : Tethered n₀ k recorded n) (hj : j ≤ k) :
    ∃ t, (n.mapModel fun m => m.popUntil (n₀.model.world + j)) =
        .ok { n with model := { n.model with store := t } } ∧
      Tethered n₀ j recorded { n with model := { n.model with store := t } } := by
  obtain ⟨t, ht, hover⟩ := h.store.exists_popUntil hj
  have hmany := (Store.popUntil_eq_ok.mp ht).2
  exact ⟨t, mapModel_eq_ok (Model.popUntil_eq_ok ht), h.withStore hover (h.store.linked.popMany_spec hmany).2.2⟩

theorem commitWorld (h : Tethered n₀ (k + 2) recorded n) :
    ∃ t, n.mapModel Model.commitWorld = .ok { n with model := { n.model with store := t } } ∧
      Tethered n₀ (k + 1) recorded { n with model := { n.model with store := t } } := by
  obtain ⟨t, ht, hover⟩ := h.store.exists_commit
  exact ⟨t, mapModel_eq_ok (Model.commitWorld_eq_ok ht), h.withStore hover (Store.size_slots_commit ht)⟩

theorem flush (h : Tethered n₀ (k + 1) recorded n) : Tethered n₀ (k + 1) recorded n.flush :=
  h.evolve h.lawful.flush (.flush n)

theorem takeLast (h : Tethered n₀ k recorded n) : Tethered n₀ k recorded n.takeLast.2 :=
  ⟨h.lawful.takeLast, h.frame, h.store, h.roll, h.entered, h.fresh, h.housed, h.learns⟩

theorem world_eq (h : Tethered n₀ k recorded n) : n.model.world = n₀.model.world + k := h.store.world_eq

theorem post (h : Tethered n₀ k recorded n) (nogood : Nogood) :
    @Gives _ .worldly (n.post nogood.propagator) fun s => Tethered n₀ k (recorded.push s.1) s.2 := by
  let := Tolerance.worldly
  refine (h.lawful.post nogood.lawful).mono ?_
  rintro ⟨id, n'⟩ ⟨hl, rfl, hroll, hmodel⟩
  have hsize : n'.posts.size = n.posts.size + 1 := by rw [← size_roll, hroll, Array.size_push, size_roll]
  have hle : n₀.posts.size ≤ n.posts.size := by
    refine Nat.le_of_not_lt fun hlt => ?_
    have hnone := h.roll n.posts.size hlt
    rw [Array.getElem?_eq_none (by simp), eq_comm, Array.getElem?_eq_none_iff, size_roll] at hnone
    omega
  refine ⟨hl, ?_, ?_, fun i hi => ?_, fun i hi hlt => ?_, fun id hid => ?_, fun e he => ?_, fun e he => ?_⟩
  · rw [hmodel, h.frame]
  · rw [hmodel]
    exact h.store.grow _
  · rw [hroll, Array.getElem?_push, if_neg (by rw [size_roll]; omega), h.roll i hi]
  · rw [hsize] at hlt
    rcases Nat.lt_succ_iff_lt_or_eq.mp hlt with hlt | rfl
    · exact Array.mem_push_of_mem _ (h.entered i hi hlt)
    · exact Array.mem_push_self
  · rcases Array.mem_push.mp hid with hid | rfl
    · exact h.fresh id hid
    · exact hle
  · rw [hmodel, Store.size_slots_grow]
    rw [hroll] at he
    rcases Array.mem_push.mp he with he | rfl
    · exact Nat.lt_of_lt_of_le (h.housed e he) (Nat.le_add_right _ _)
    · exact Nat.lt_succ_self _
  · rw [hroll] at he
    rcases Array.mem_push.mp he with he | rfl
    · exact h.learns e he
    · exact .inr ⟨nogood, rfl⟩

end Tethered

end Network

namespace SearchState

variable {σ μ : Type} {n₀ : Network} {s : SearchState σ} {k : Nat}

/-! ### The invariant -/

/-- How many worlds are open above that in which the search began. -/
def height (s : SearchState σ) : Nat :=
  match s.turn with
  | .root => 0
  | .down => s.path.depth
  | .node | .up | .restart | .stop => s.path.depth + 1

/-- Where a search stands that began with the network. -/
structure Stays (n₀ : Network) (s : SearchState σ) : Prop where
  tethered : n₀.Tethered s.height s.recorded s.network
  root : s.turn ≠ .root → s.root = n₀.model.world + 1
  path : s.turn = .root → s.path = {}

/-! ### Parts of a turn -/

theorem fail_gives (s : SearchState σ) (c : Contradiction) :
    @Gives _ .worldly (s.fail c) fun s' => ∃ measures, s' = { s with measures, network := s.network.flush.takeLast.2 } := by
  let := Tolerance.worldly
  exact .bind (.report _) fun _ _ => .bind (.report _) fun _ _ => .pure ⟨_, rfl⟩

theorem record_gives (h : n₀.Tethered k s.recorded s.network) (nogood : Nogood) :
    @Gives _ .worldly (s.record nogood) fun s' => ∃ network recorded, s' = { s with network, recorded } ∧
      n₀.Tethered k recorded network := by
  let := Tolerance.worldly
  exact .bind (h.post nogood) fun r hr => .pure ⟨r.2, _, rfl, hr⟩

theorem recordAll_gives (h : n₀.Tethered k s.recorded s.network) (nogoods : List Nogood) :
    @Gives _ .worldly (s.recordAll nogoods) fun s' => ∃ network recorded, s' = { s with network, recorded } ∧
      n₀.Tethered k recorded network := by
  let := Tolerance.worldly
  induction nogoods generalizing s with
  | nil => exact .pure ⟨s.network, s.recorded, rfl, h⟩
  | cons nogood rest ih =>
    refine .bind (record_gives h nogood) ?_
    rintro _ ⟨network, recorded, rfl, h'⟩
    exact ih h'

/-- What became of a search at a turn, when it goes on from some height. -/
theorem Stays.of_tethered {s' : SearchState σ} (hturn : s'.turn ≠ .root) (hroot : s'.root = n₀.model.world + 1)
    (h : n₀.Tethered s'.height s'.recorded s'.network) : Stays n₀ s' := ⟨h, fun _ => hroot, fun heq => absurd heq hturn⟩

theorem propagateRoot_gives (h : Stays n₀ s) (hturn : s.turn = .root) (task : SearchTask) :
    @Gives _ .worldly (propagateRoot task s) (Stays n₀) := by
  let := Tolerance.worldly
  have hpath := h.path hturn
  have h0 : n₀.Tethered 0 s.recorded s.network := by
    have := h.tethered
    rwa [height, hturn] at this
  have h1 := h0.pushWorld
  have hdepth : s.path.depth = 0 := by rw [hpath]; rfl
  refine .bind (R := fun n => n = { s.network with model := s.network.model.pushWorld }) (.pure rfl) ?_
  rintro _ rfl
  have hstarted := h1.evolve h1.lawful.start (.start _)
  have hall := hstarted.evolve hstarted.lawful.scheduleAll (.scheduleAll _)
  refine .bind (hall.lawful.improveAndPropagate task.objective s.measures.best .objective) ?_
  rintro ⟨outcome, n⟩ ⟨hl, hevolves⟩
  have hn := hall.evolve hl hevolves
  have hroot : ({ s.network with model := s.network.model.pushWorld } : Network).model.world = n₀.model.world + 1 :=
    h1.world_eq
  cases outcome with
  | ok u =>
    refine .bind (.report _) fun _ _ => .pure (.of_tethered (by simp) hroot ?_)
    rw [height, hdepth]
    exact hn
  | error c =>
    refine .bind (fail_gives _ c) ?_
    rintro _ ⟨measures, rfl⟩
    refine .pure (.of_tethered (by simp) hroot ?_)
    rw [height, hdepth]
    exact hn.flush.takeLast

/-! ### Nodes -/

/-- What a node, and whatever comes right after it at the same height, goes on from. -/
structure AtNode (n₀ : Network) (s : SearchState σ) : Prop where
  root : s.root = n₀.model.world + 1
  tethered : n₀.Tethered (s.path.depth + 1) s.recorded s.network

theorem AtNode.stays (h : AtNode n₀ s) {turn : Turn} (hroot : turn ≠ .root) (hdown : turn ≠ .down)
    (stopped : Option StopReason) : Stays n₀ { s with turn, stopped } := by
  refine .of_tethered hroot h.root ?_
  cases turn with
  | root => exact absurd rfl hroot
  | down => exact absurd rfl hdown
  | node | up | restart | stop => exact h.tethered

/-- At no turn but the first and the way down is the search at another height. -/
theorem Stays.atNode (h : Stays n₀ s) (hroot : s.turn ≠ .root) (hdown : s.turn ≠ .down) : AtNode n₀ s := by
  refine ⟨h.root hroot, ?_⟩
  have hheight : s.height = s.path.depth + 1 := by
    rw [height]
    split
    · rename_i heq
      exact absurd heq hroot
    · rename_i heq
      exact absurd heq hdown
    all_goals rfl
  rw [← hheight]
  exact h.tethered

theorem record_atNode (h : AtNode n₀ s) (nogood : Nogood) : @Gives _ .worldly (s.record nogood) (AtNode n₀) := by
  let := Tolerance.worldly
  refine (record_gives h.tethered nogood).mono ?_
  rintro _ ⟨network, recorded, rfl, hn⟩
  exact ⟨h.root, hn⟩

theorem sheltered_findViolated {n : Network} (h : n.Lawful) : Sheltered n.findViolated := by
  have haux : ∀ (l : List Post) (next : Nat), (∀ p ∈ l, p.propagator.Lawful) → Sheltered (n.firstViolated next l) := by
    intro l
    induction l with
    | nil => exact fun next _ => ok none
    | cons p rest ih =>
      intro next hl
      obtain ⟨hp, hrest⟩ := List.forall_mem_cons.mp hl
      rw [Network.firstViolated]
      split
      · refine bind (hp.entailed _) fun e => ?_
        split
        · exact ok _
        · exact ih _ hrest
      · exact ih _ hrest
  refine haux _ 0 fun p hp => ?_
  exact h.lawful p.enrolment (Array.mem_map_of_mem (Array.mem_toList_iff.mp hp))

theorem sheltered_capture (m : Model) (objective : Option Int) : Sheltered (Solution.capture m objective) := by
  refine bind (sheltered_mapM (fun v => ?_) _) fun _ => ok _
  split
  · exact ok _
  · exact error not_false

theorem forbid_atNode (h : AtNode n₀ s) (task : SearchTask) (solution : Solution) :
    @Gives _ .worldly (s.forbid task solution) (AtNode n₀) := by
  let := Tolerance.worldly
  rw [forbid]
  split
  · exact record_atNode h _
  · exact .pure h

theorem keep_stays (h : AtNode n₀ s) (task : SearchTask) (solution : Solution) : Stays n₀ (s.keep task solution) := by
  have h : AtNode n₀ { s with found := s.found.push solution } := ⟨h.root, h.tethered⟩
  rw [keep]
  split
  · exact h.stays (by simp) (by simp) _
  · exact h.stays (by split <;> simp) (by split <;> simp) s.stopped

theorem recordSolution_gives (h : AtNode n₀ s) (task : SearchTask) :
    @Gives _ .worldly (recordSolution task s) (Stays n₀) := by
  let := Tolerance.worldly
  rw [recordSolution_eq]
  refine .bind (.question (sheltered_findViolated h.tethered.lawful)) fun violated _ => ?_
  split
  · exact .throw not_false
  · have hobjective : Sheltered (objectiveValue task s.network.model) := by
      rw [objectiveValue]
      split
      · exact Model.sheltered_value? _ _
      · exact ok none
    refine .bind (.question hobjective) fun objective _ => .bind (.question (sheltered_capture _ _)) fun solution _ => ?_
    refine .bind (.report _) fun _ _ => .bind (.report _) fun _ _ => ?_
    refine .bind (forbid_atNode ?_ task solution) fun s' h' => .pure (keep_stays h' task solution)
    exact ⟨h.root, h.tethered⟩

theorem openNode_gives (h : AtNode n₀ s) (task : SearchTask) {strategy : Strategy σ} (hs : strategy.Lawful)
    (signals : Signals) : @Gives _ .worldly (openNode task strategy signals s) (Stays n₀) := by
  let := Tolerance.worldly
  rw [openNode]
  split
  · exact .bind (.report _) fun _ _ => .pure (h.stays (by simp) (by simp) _)
  · refine .bind (.report _) fun _ _ => ?_
    split
    · exact .pure (.of_tethered (by simp) h.root h.tethered)
    · have hnext : Sheltered (nextDecision strategy { s with
          measures := { s.measures with nodes := s.measures.nodes + 1 }
          nodesSinceRestart := s.nodesSinceRestart + 1 }) := by
        refine bind (hs _ _) fun r => ?_
        split
        · exact ok _
        · exact bind (Heuristic.sheltered_next _ _) fun _ => ok _
      refine .bind (.question hnext) fun r _ => ?_
      dsimp only
      split
      · refine .pure (.of_tethered (by simp) h.root ?_)
        have hdepth : ∀ d, (s.path.push d).depth = s.path.depth + 1 := fun d => Array.size_push ..
        rw [height, hdepth]
        exact h.tethered
      · refine recordSolution_gives ?_ task
        exact ⟨h.root, h.tethered⟩

/-! ### Branches -/

theorem depth_parent {p : DecisionPath} {d : Decision} (h : p.last? = some d) : p.parent.depth + 1 = p.depth := by
  have hpos : p.decisions.size ≠ 0 := by
    intro hz
    rw [DecisionPath.last?, Array.eq_empty_of_size_eq_zero hz] at h
    cases h
  rw [DecisionPath.parent, DecisionPath.depth, DecisionPath.depth, Array.size_pop]
  omega

theorem depth_replaceLast {p : DecisionPath} {d : Decision} (h : p.last? = some d) (d' : Decision) :
    (p.replaceLast d').depth = p.depth := by
  rw [← depth_parent h]
  exact Array.size_push ..

/-- An alternative is tried in a world of its own. -/
theorem branch_gives (h : n₀.Tethered k s.recorded s.network) (task : SearchTask) (d : Decision) :
    @Gives _ .worldly (s.branch task d) fun r => ∃ network d', r.2 = { s with network, path := s.path.replaceLast d' } ∧
      n₀.Tethered (k + 1) s.recorded network := by
  let := Tolerance.worldly
  have h1 := h.pushWorld
  refine .bind (R := fun n => n = { s.network with model := s.network.model.pushWorld }) (.pure rfl) ?_
  rintro _ rfl
  refine .bind (h1.lawful.takeNext d) ?_
  rintro ⟨outcome, d', n⟩ ⟨hl, hevolves⟩
  have h2 := h1.evolve hl hevolves
  cases outcome with
  | error c => exact .pure ⟨n, d', rfl, h2⟩
  | ok u =>
    refine .bind (hl.improveAndPropagate task.objective s.measures.best .objective) ?_
    rintro ⟨outcome, n'⟩ ⟨hl', hevolves'⟩
    exact .pure ⟨n', d', rfl, h2.evolve hl' hevolves'⟩

theorem settle_gives (h : AtNode n₀ s) (outcome : Except Contradiction Unit) :
    @Gives _ .worldly (s.settle outcome) (Stays n₀) := by
  let := Tolerance.worldly
  cases outcome with
  | ok u => exact .pure (h.stays (by simp) (by simp) s.stopped)
  | error c =>
    refine .bind (fail_gives s c) ?_
    rintro _ ⟨measures, rfl⟩
    exact .pure (.of_tethered (by simp) h.root h.tethered.flush.takeLast)

theorem branch_settle_gives (hroot : s.root = n₀.model.world + 1)
    (h : n₀.Tethered s.path.depth s.recorded s.network) (task : SearchTask) {d : Decision}
    (hd : s.path.last? = some d) :
    @Gives _ .worldly (do
      let (outcome, s) ← s.branch task d
      s.settle outcome) (Stays n₀) := by
  let := Tolerance.worldly
  refine .bind (branch_gives h task d) ?_
  rintro ⟨outcome, _⟩ ⟨network, d', rfl, hn⟩
  rw [← depth_replaceLast hd d'] at hn
  exact settle_gives (s := { s with network, path := s.path.replaceLast d' }) ⟨hroot, hn⟩ outcome

theorem goDown_gives (h : Stays n₀ s) (hturn : s.turn = .down) (task : SearchTask) :
    @Gives _ .worldly (goDown task s) (Stays n₀) := by
  let := Tolerance.worldly
  have htethered : n₀.Tethered s.path.depth s.recorded s.network := by
    have := h.tethered
    rwa [height, hturn] at this
  rw [goDown]
  split
  · exact .throw not_false
  · rename_i d hd
    have hbranch : ∀ measures, Gives (do
        let (outcome, s) ← branch task { s with measures } d
        s.settle outcome) (Stays n₀) := fun measures =>
      branch_settle_gives (s := { s with measures }) (h.root (by rw [hturn]; simp)) htethered task hd
    exact .bind (.report _) fun _ _ => hbranch _

theorem goUp_gives (h : AtNode n₀ s) (hturn : s.turn = .up) (task : SearchTask) :
    @Gives _ .worldly (goUp task s) (Stays n₀) := by
  let := Tolerance.worldly
  rw [goUp]
  split
  · exact .pure (h.stays (by simp) (by simp) s.stopped)
  · rename_i d hd
    obtain ⟨t, ht, hpopped⟩ := h.tethered.popWorld
    rw [ht]
    refine .bind (R := fun n => n = { s.network with model := { s.network.model with store := t } }) (.pure rfl) ?_
    rintro _ rfl
    dsimp only
    split
    · have hbranch : ∀ measures, Gives (do
          let (outcome, s) ← branch task { s with
            network := { s.network with model := { s.network.model with store := t } }
            measures } d
          s.settle outcome) (Stays n₀) := fun measures =>
        branch_settle_gives (s := { s with
          network := { s.network with model := { s.network.model with store := t } }
          measures }) h.root hpopped task hd
      exact .bind (.report _) fun _ _ => hbranch _
    · have hdepth : s.path.parent.depth + 1 = s.path.depth := depth_parent hd
      refine .pure (.of_tethered (by simp [hturn]) h.root ?_)
      simp only [height, hturn, hdepth]
      exact hpopped

/-! ### Restarts -/

theorem restart_gives (h : AtNode n₀ s) (task : SearchTask) (strategy : Strategy σ) :
    @Gives _ .worldly (restart task strategy s) (Stays n₀) := by
  let := Tolerance.worldly
  obtain ⟨t, ht, hroot⟩ := h.tethered.popUntil (j := 1) (by omega)
  generalize { s.network with model := { s.network.model with store := t } } = n at ht hroot
  rw [restart, h.root, ht]
  refine .bind (R := fun n' => n' = n) (.pure rfl) ?_
  rintro n rfl
  refine .bind (.report _) fun _ _ => .bind (.report _) fun _ _ => ?_
  refine .bind (R := fun n' => n' = { n.flush with model := n.flush.model.pushWorld }) (.pure rfl) ?_
  rintro _ rfl
  refine .bind (recordAll_gives hroot.flush.pushWorld _) ?_
  rintro _ ⟨network, recorded, rfl, hposted⟩
  refine .bind (hposted.lawful.improveAndPropagate task.objective _ .restart) ?_
  rintro ⟨outcome, n'⟩ ⟨hl, hevolves⟩
  have hdone := hposted.evolve hl hevolves
  cases outcome with
  | ok u =>
    obtain ⟨t', ht', hcommitted⟩ := hdone.commitWorld
    generalize { n' with model := { n'.model with store := t' } } = n'' at ht' hcommitted
    refine .bind (R := fun n => n = n'') (.question (.of_exists ⟨n'', ht', rfl⟩)) ?_
    rintro _ rfl
    exact .pure (.of_tethered (by simp) rfl hcommitted)
  | error c =>
    refine .bind (fail_gives _ c) ?_
    rintro _ ⟨measures, rfl⟩
    obtain ⟨t', ht', hpopped⟩ := hdone.flush.takeLast.popWorld
    generalize { n'.flush.takeLast.2 with model := { n'.flush.takeLast.2.model with store := t' } } = n''
      at ht' hpopped
    refine .bind (R := fun n => n = n'') (.question (.of_exists ⟨n'', ht', rfl⟩)) ?_
    rintro _ rfl
    exact .pure (.of_tethered (by simp) rfl hpopped)

/-- **A turn keeps the invariant.** -/
theorem step_gives (h : Stays n₀ s) (task : SearchTask) {strategy : Strategy σ} (hs : strategy.Lawful)
    (signals : Signals) : @Gives _ .worldly (s.step task strategy signals) (Stays n₀) := by
  let := Tolerance.worldly
  cases hturn : s.turn with
  | root => simpa only [step, hturn] using propagateRoot_gives h hturn task
  | down => simpa only [step, hturn] using goDown_gives h hturn task
  | node => simpa only [step, hturn] using openNode_gives (h.atNode (by simp [hturn]) (by simp [hturn])) task hs signals
  | up => simpa only [step, hturn] using goUp_gives (h.atNode (by simp [hturn]) (by simp [hturn])) hturn task
  | restart => simpa only [step, hturn] using restart_gives (h.atNode (by simp [hturn]) (by simp [hturn])) task strategy
  | stop =>
    simp only [step, hturn]
    exact .pure h

end SearchState

end FiniteDomain
