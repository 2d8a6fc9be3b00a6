import FiniteDomain.Proofs.Propagation.Coherence

/-!
# Scheduling of a network

Every step of a network keeps it coherent: posting, removing, running propagators and letting go.

* `Reachable`: networks that came about by any steps with any changes of the model in between;
* `Reachable.scheduling`: all of them are coherent, and a propagation without a contradiction leaves all idle.
-/

namespace FiniteDomain

open Activity

/-- What an activity results in, if it does not end in a fault. -/
def Activity.outcome? {α : Type} (a : Activity α) : Option α :=
  match a #[] with
  | .ok x _ => some x
  | .error _ _ => none

theorem Activity.outcome?_eq_some {α : Type} {a : Activity α} {x : α} (h : a.outcome? = some x) :
    ∃ after, a #[] = .ok x after := by
  rw [outcome?] at h
  split at h
  · rename_i y after hrun
    cases h
    exact ⟨after, hrun⟩
  · cases h

/-- The fault that an activity ends in, if it does. -/
def Activity.fault? {α : Type} (a : Activity α) : Option Fault :=
  match a #[] with
  | .ok _ _ => none
  | .error fault _ => some fault

theorem Activity.fault?_eq_some {α : Type} {a : Activity α} {fault : Fault} (h : a.fault? = some fault) :
    ∃ after, a #[] = .error fault after := by
  rw [fault?] at h
  split at h
  · cases h
  · rename_i after hrun
    cases h
    exact ⟨after, hrun⟩

namespace Network

variable {n n' : Network}

/-! ### Posting -/

theorem entriesOf_push (posts : Array Post) (p : Post) (x : VarId) :
    entriesOf (posts.push p) x = entriesOf posts x ++ p.entries ⟨posts.size⟩ x := by
  rw [entriesOf, entriesOf, Array.toList_push, List.zipIdx_append, List.flatMap_append]
  simp

/-- A propagator is entered once for each place of its scope, behind those who were there. -/
theorem watchersOf_watch (watchers : Array (Array Watcher)) (p : Propagator) (id : PropId) (x : VarId)
    (hscope : ∀ y ∈ p.scope, y.index < watchers.size) :
    watchersOf (watch watchers p id) x = watchersOf watchers x ++
      (p.scope.toList.zipIdx.filter fun e => e.1 = x).map fun e => ⟨id, e.2, p.condition e.2⟩ := by
  have haux : ∀ (l : List (VarId × Nat)) (watchers : Array (Array Watcher)),
      (∀ e ∈ l, e.1.index < watchers.size) →
      watchersOf (l.foldl
        (fun watchers e => watchers.modify e.1.index fun ws => ws.push ⟨id, e.2, p.condition e.2⟩) watchers) x =
        watchersOf watchers x ++ (l.filter fun e => e.1 = x).map fun e => ⟨id, e.2, p.condition e.2⟩ := by
    intro l
    induction l with
    | nil => simp
    | cons e rest ih =>
      intro watchers hl
      have hlt := hl e List.mem_cons_self
      rw [List.foldl_cons, ih _ fun f hf => by
        rw [Array.size_modify]
        exact hl f (List.mem_cons_of_mem e hf)]
      by_cases hx : e.1 = x
      · subst hx
        rw [watchersOf, watchersOf, Array.getElem?_modify, if_pos rfl, Array.getElem?_eq_getElem hlt]
        simp
      · have hne : ¬e.1.index = x.index := fun heq => hx (by cases h : e.1; cases x; simp_all)
        simp [watchersOf, hx, hne, Array.getElem?_modify]
  rw [watch, ← Array.foldl_toList, Array.toList_zipIdx]
  refine haux _ _ fun e he => hscope e.1 ?_
  have hmem : e.1 ∈ p.scope.toList := List.fst_mem_of_mem_zipIdx he
  exact Array.mem_toList_iff.mp hmem

theorem watchersOf_append (watchers : Array (Array Watcher)) (k : Nat) (x : VarId) :
    watchersOf (watchers ++ Array.replicate k #[]) x = watchersOf watchers x := by
  rw [watchersOf, watchersOf, Array.getElem?_append]
  split
  · rfl
  · rename_i hge
    rw [Array.getElem?_eq_none (Nat.le_of_not_lt hge), Array.getElem?_replicate]
    split <;> rfl

/-- A network with a further post, which is idle and owes nothing. -/
theorem Coherent.push (h : n.Coherent) {p : Propagator} (hscope : ∀ x ∈ p.scope, n.model.owns x = true)
    (active : Nat) (model : Model) :
    Coherent { n with
      model := model
      posts := n.posts.push { propagator := p, active, pending := Array.replicate p.scope.size .void }
      watchers := watch (n.watchers ++ Array.replicate (n.model.varCount - n.watchers.size) #[]) p
        ⟨n.posts.size⟩ } := by
  refine ⟨⟨h.queues.ordered, fun π id => ?_, h.queues.nodup⟩, ⟨fun id q hq => ?_, fun i j q q' hq hq' hs hs' => ?_⟩,
    fun x => ?_, ?_⟩
  · rw [h.queues.mem_iff]
    constructor
    · rintro ⟨q, hq, hs⟩
      exact ⟨q, getElem?_posts_push_of_some hq _, hs⟩
    · rintro ⟨q, hq, hs, hpriority⟩
      rcases getElem?_posts_push hq with ⟨-, rfl⟩ | hq
      · cases hs
      · exact ⟨q, hq, hs, hpriority⟩
  · rcases getElem?_posts_push hq with ⟨-, rfl⟩ | hq
    · refine ⟨Array.size_replicate, fun mask hmask hne => ?_, nofun, nofun⟩
      exact absurd (Array.mem_replicate.mp hmask).2 hne
    · exact h.sound.fits id q hq
  · rcases getElem?_posts_push hq with ⟨-, rfl⟩ | hq
    · cases hs
    · rcases getElem?_posts_push hq' with ⟨-, rfl⟩ | hq'
      · cases hs'
      · exact h.sound.unique i j q q' hq hq' hs hs'
  · rw [watchersOf_watch, watchersOf_append, h.watched, entriesOf_push]
    · simp only [Post.entries, reduceCtorEq, if_false]
    · intro y hy
      have hlt : y.index < n.model.varCount := of_decide_eq_true (hscope y hy)
      rw [Array.size_append, Array.size_replicate]
      omega
  · simp [h.counted]

theorem Coherent.post (h : n.Coherent) (p : Propagator) : (n.post p).Yields fun s => s.2.Coherent := by
  rw [Network.post]
  split
  · exact .throw
  · rename_i hfind
    have hscope : ∀ x ∈ p.scope, n.model.owns x = true := by
      intro x hx
      simpa using Array.find?_eq_none.mp hfind x hx
    refine .skip fun _ => .pure ?_
    have h' := h.push hscope (n.model.store.make (.bool true)).1
      { n.model with store := (n.model.store.make (.bool true)).2 }
    dsimp only
    split
    · exact h'.scheduleFull _
    · exact h'

theorem Coherent.unpost (h : n.Coherent) (id : PropId) : (n.unpost id).Yields Coherent := by
  rw [Network.unpost]
  split
  · exact .throw
  · rename_i p hp
    split
    · exact .bind (R := fun _ => False) .throw fun _ hc => hc.elim
    · refine .skip fun _ => .pure ?_
      have hfits := h.sound.fits id p hp
      refine ⟨?_, ?_, fun x => ?_, ?_⟩
      · exact h.queues.drop hp rfl (h.queues.ordered.erase id) (Agenda.queue_erase _ id) (by simp)
      · refine h.sound.update hp ⟨?_, fun mask hmask hne => ?_, by simp, by simp⟩ (fun hf => hf) (by simp)
        · exact (Array.size_map ..).trans hfits.places
        · obtain ⟨-, -, rfl⟩ := Array.mem_map.mp hmask
          exact absurd rfl hne
      · rw [entriesOf_remove hp x rfl, ← h.watched, watchersOf, watchersOf, Array.getElem?_map]
        cases n.watchers[x.index]? <;> simp
      · exact h.counted.trans (sum_executions_set hp _ 0 (by rfl)).symm

/-! ### Running -/

/-- A network that has nothing to do. -/
structure Settled (n : Network) : Prop where
  started : n.started = true
  failed : n.failed = false
  agenda : n.agenda.isEmpty = true
  events : n.model.events = #[]

theorem onModel_yields {α : Type} (n : Network) (f : Model → Activity (α × Model)) :
    (n.onModel f).Yields fun s => ∃ m, s.2 = { n with model := m } :=
  .skip fun s => .pure ⟨s.2, rfl⟩

/-- A post that ran, and the network without it on the agenda. -/
theorem Coherent.ran (h : n.Coherent) (hf : n.failed = false) {id : PropId} {p : Post} {agenda : Agenda}
    (hnext : n.agenda.next? = some (id, agenda)) (hp : n.posts[id.index]? = some p) {state : PostState}
    {failed : Bool} (hstate : state = .idle ∨ state = .failed ∧ failed = true) (model : Model)
    (last : Option Contradiction) :
    Coherent { n with
      model := model
      posts := n.posts.setIfInBounds id.index
        { p.clearPending with state := state, full := false, executions := p.executions + 1 }
      agenda := agenda
      executions := n.executions + 1
      failed := failed
      last := last } := by
  obtain ⟨hordered, -⟩ := Agenda.next?_spec h.queues.ordered hnext
  have hscheduled := h.queues.scheduled_next? hnext hp
  have hfits := h.sound.fits id p hp
  refine ⟨?_, ?_, fun x => ?_, ?_⟩
  · refine h.queues.drop hp rfl hordered (h.queues.queue_next? hnext) ?_
    rcases hstate with rfl | ⟨rfl, -⟩ <;> simp
  · refine h.sound.update hp ⟨(Array.size_map ..).trans hfits.places, fun mask hmask hne => ?_, nofun, ?_⟩
      (fun hc => ?_) fun _ => .inr hf
    · obtain ⟨-, -, rfl⟩ := Array.mem_map.mp hmask
      exact absurd rfl hne
    · rcases hstate with rfl | ⟨-, hfailed⟩
      · nofun
      · exact fun _ => hfailed
    · rw [hf] at hc
      cases hc
  · rw [h.watched, entriesOf_set hp]
    have hlive : state ≠ .removed := by rcases hstate with rfl | ⟨rfl, -⟩ <;> simp
    simp only [Post.entries, Post.clearPending, hscheduled, hlive, reduceCtorEq, if_false]
  · rw [sum_executions_set hp _ 1 rfl, h.counted]

theorem Coherent.execute (h : n.Coherent) (hf : n.failed = false) {id : PropId} {agenda : Agenda}
    (hnext : n.agenda.next? = some (id, agenda)) :
    (Network.execute { n with agenda } id).Yields fun s => s.2.Coherent ∧ s.2.started = n.started ∧
      (s.1 = .ok () → s.2.failed = false) ∧ ∀ c, s.1 = .error c → s.2.failed = true := by
  rw [Network.execute]
  split
  · exact .throw
  · rename_i p hp
    refine .bind (onModel_yields _ _) ?_
    rintro ⟨outcome, -⟩ ⟨m, rfl⟩
    cases outcome with
    | ok u => exact .pure ⟨h.ran hf hnext hp (.inl rfl) m n.last, rfl, fun _ => hf, nofun⟩
    | error c => exact .pure ⟨h.ran hf hnext hp (.inr ⟨rfl, rfl⟩) m (some c), rfl, nofun, fun _ _ => rfl⟩

theorem events_absorb (n : Network) : n.absorb.model.events = #[] := by
  rw [absorb_reschedules n]
  rfl

theorem Coherent.drain (h : n.Coherent) (hst : n.started = true) (hf : n.failed = false)
    (hev : n.model.events = #[]) (fuel : Nat) :
    (n.drain fuel).Yields fun s => s.2.Coherent ∧ (s.1 = .ok () → s.2.Settled) ∧
      ∀ c, s.1 = .error c → s.2.failed = true := by
  induction fuel generalizing n with
  | zero =>
    rw [Network.drain]
    split
    · rename_i hempty
      exact .pure ⟨h, fun _ => ⟨hst, hf, hempty, hev⟩, nofun⟩
    · exact .throw
  | succ fuel ih =>
    rw [Network.drain]
    split
    · rename_i hnext
      exact .pure ⟨h, fun _ => ⟨hst, hf, Agenda.next?_eq_none.mp hnext, hev⟩, nofun⟩
    · rename_i id agenda hnext
      refine .bind (h.execute hf hnext) ?_
      rintro ⟨outcome, n'⟩ ⟨h', hst', hf', hfailed⟩
      cases outcome with
      | error c => exact .pure ⟨h', nofun, fun _ _ => hfailed c rfl⟩
      | ok u =>
        have hf' := hf' rfl
        have hframe := absorb_reschedules n'
        refine ih (h'.absorb hf') ?_ ?_ (events_absorb n')
        · rw [hframe]
          exact hst'.trans hst
        · rw [hframe]
          exact hf'

theorem started_start (n : Network) : n.start.started = true := by
  rw [start]
  split
  · assumption
  · rw [scheduleAll_reschedules]

theorem failed_start (n : Network) : n.start.failed = n.failed := by
  rw [start]
  split
  · rfl
  · rw [scheduleAll_reschedules]

theorem model_start (n : Network) : n.start.model = n.model := by
  rw [start]
  split
  · rfl
  · rw [scheduleAll_reschedules]

theorem executions_start (n : Network) : n.start.executions = n.executions := by
  rw [start]
  split
  · rfl
  · rw [scheduleAll_reschedules]

/-- Scheduling does not look at the model. -/
theorem start_withModel (n : Network) (m : Model) : start { n with model := m } = { n.start with model := m } := by
  have hfull : ∀ (n : Network) (id : PropId),
      scheduleFull { n with model := m } id = { n.scheduleFull id with model := m } := by
    intro n id
    rw [scheduleFull, scheduleFull]
    dsimp only
    split
    · rfl
    · split
      · rfl
      · rw [wake, wake]
        split <;> rfl
  have hall : ∀ (l : List Nat) (n : Network), l.foldl (fun n i => n.scheduleFull ⟨i⟩) { n with model := m } =
      { l.foldl (fun n i => n.scheduleFull ⟨i⟩) n with model := m } := by
    intro l
    induction l with
    | nil => exact fun _ => rfl
    | cons i rest ih =>
      intro n
      rw [List.foldl_cons, List.foldl_cons, hfull, ih]
  rw [start, start]
  split
  · rfl
  · exact hall _ { n with started := true }

theorem start_start (n : Network) : n.start.start = n.start := by rw [start, if_pos (started_start n)]

theorem propagate_start (n : Network) : n.start.propagate = n.propagate := by
  rw [propagate, propagate, start_start, failed_start]

theorem Coherent.propagate (h : n.Coherent) :
    n.propagate.Yields fun s => s.2.Coherent ∧ (s.1 = .ok () → s.2.Settled) ∧
      ∀ c, s.1 = .error c → s.2.failed = true := by
  rw [Network.propagate]
  split
  · exact .bind (R := fun _ => False) .throw fun _ hc => hc.elim
  · rename_i hf
    have hf : n.start.failed = false := (failed_start n).trans (Bool.eq_false_iff.mpr hf)
    have hframe := absorb_reschedules n.start
    refine (h.start.absorb hf).drain ?_ ?_ (events_absorb n.start) _
    · rw [hframe]
      exact started_start n
    · rw [hframe]
      exact hf

/-- Where nothing is to be done all posts are idle. -/
theorem Settled.state_eq (hs : n.Settled) (h : n.Coherent) {id : PropId} {p : Post}
    (hp : n.posts[id.index]? = some p) (hlive : p.state ≠ .removed) : p.state = .idle := by
  cases hstate : p.state with
  | idle => rfl
  | scheduled =>
    have hmem := (h.queues.mem_iff p.propagator.priority id).mpr ⟨p, hp, hstate, rfl⟩
    exact absurd hmem (Agenda.isEmpty_iff.mp hs.agenda _ _)
  | failed => exact absurd hstate (h.ne_failed hs.failed hp)
  | removed => exact absurd hstate hlive

/-- Where nothing is to be done propagation does nothing. -/
theorem Settled.propagate_eq (hs : n.Settled) (notices : Array Notice) :
    n.propagate notices = .ok (.ok (), n) notices := by
  have hstart : n.start = n := by rw [start, if_pos hs.started]
  have hclear : n.model.clearEvents = n.model := by rw [Model.clearEvents, ← hs.events]
  have habsorb : n.absorb = n := by rw [absorb, hs.events, hclear, Array.foldl_empty]
  have hdrain : ∀ fuel, n.drain fuel = (pure (.ok (), n) : Activity (Except Contradiction Unit × Network)) := by
    intro fuel
    cases fuel with
    | zero => rw [drain, if_pos hs.agenda]
    | succ fuel => rw [drain, Agenda.next?_eq_none.mpr hs.agenda]
  rw [propagate, hs.failed, hstart, habsorb, hdrain]
  rfl

/-! ### Letting go -/

/-- The posts that are scheduled are put on an agenda in their order. -/
theorem queue_foldl_enqueue (l : List (Post × Nat)) {a : Agenda} (ha : a.Ordered) :
    let b := l.foldl (fun (a : Agenda) e =>
      if e.1.state = .scheduled then a.enqueue e.1.propagator.priority ⟨e.2⟩ else a) a
    b.Ordered ∧ ∀ π, b.queue π = a.queue π ++
      (l.filter fun e => e.1.state = .scheduled ∧ e.1.propagator.priority = π).map fun e => ⟨e.2⟩ := by
  induction l generalizing a with
  | nil => exact ⟨ha, by simp⟩
  | cons e rest ih =>
    rw [List.foldl_cons]
    by_cases hs : e.1.state = .scheduled
    · rw [if_pos hs]
      obtain ⟨hordered, hqueue⟩ := ih (ha.enqueue e.1.propagator.priority ⟨e.2⟩)
      refine ⟨hordered, fun π => ?_⟩
      rw [hqueue, Agenda.queue_enqueue ha, List.filter_cons]
      by_cases hπ : π = e.1.propagator.priority
      · simp [hs, hπ]
      · simp [hs, hπ, Ne.symm hπ]
    · rw [if_neg hs]
      obtain ⟨hordered, hqueue⟩ := ih ha
      refine ⟨hordered, fun π => ?_⟩
      rw [hqueue, List.filter_cons_of_neg (by simp [hs])]

/-- After letting go the posts that are scheduled wait in their order. -/
theorem queues_flush (n : Network) : Queues n.flush.posts n.flush.agenda ∧ n.flush.agenda.InLine := by
  obtain ⟨hordered, hqueue⟩ := queue_foldl_enqueue n.flush.posts.zipIdx.toList (a := {}) .nil
  rw [Array.foldl_toList] at hordered hqueue
  have hqueue : ∀ π, n.flush.agenda.queue π = (n.flush.posts.toList.zipIdx.filter fun e =>
      e.1.state = .scheduled ∧ e.1.propagator.priority = π).map fun e => ⟨e.2⟩ := by
    intro π
    rw [← Array.toList_zipIdx]
    exact hqueue π
  have hline : n.flush.agenda.InLine := by
    intro π
    have hall : (n.flush.posts.toList.zipIdx.map fun e => PropId.mk e.2).Pairwise fun i j => i.index < j.index := by
      have hcomp : (fun e : Post × Nat => PropId.mk e.2) = PropId.mk ∘ Prod.snd := rfl
      rw [hcomp, ← List.map_map, List.zipIdx_map_snd]
      exact List.pairwise_map.mpr List.pairwise_lt_range'
    rw [hqueue]
    exact hall.sublist (List.filter_sublist.map _)
  refine ⟨⟨hordered, fun π id => ?_, hline.nodup⟩, hline⟩
  rw [hqueue, List.mem_map]
  constructor
  · rintro ⟨e, he, rfl⟩
    obtain ⟨hmem, hs⟩ := List.mem_filter.mp he
    rw [List.mem_zipIdx_iff_getElem?, Array.getElem?_toList] at hmem
    exact ⟨e.1, hmem, of_decide_eq_true hs⟩
  · rintro ⟨q, hq, hs⟩
    refine ⟨(q, id.index), List.mem_filter.mpr ⟨?_, decide_eq_true hs⟩, rfl⟩
    rw [List.mk_mem_zipIdx_iff_getElem?, Array.getElem?_toList]
    exact hq

theorem Coherent.flush (h : n.Coherent) : n.flush.Coherent := by
  refine ⟨(queues_flush n).1, ⟨fun id q hq => ?_, fun i j q q' hq hq' hs hs' => ?_⟩, fun x => ?_, ?_⟩
  · obtain ⟨p, hp, rfl⟩ := exists_of_flush hq
    obtain ⟨hpropagator, -, hfull, hsize⟩ := letGo_same p
    have hfits := h.sound.fits id p hp
    refine ⟨by rw [hsize, hpropagator, hfits.places], fun mask hmask hne => ?_, fun hdue => ?_,
      fun hs => absurd hs (state_letGo_ne_failed p)⟩
    · by_cases hr : p.state = .removed
      · rw [letGo, if_pos hr] at hmask ⊢
        exact hfits.pending mask hmask hne
      · rw [letGo, if_neg hr] at hmask
        obtain ⟨-, -, rfl⟩ := Array.mem_map.mp hmask
        exact absurd rfl hne
    · rw [hfull] at hdue
      have hlive : p.state ≠ .removed := by
        intro hr
        have := hfits.full hdue
        simp [hr] at this
      exact .inl (by rw [state_letGo, if_neg hlive, if_pos hdue])
  · obtain ⟨p, -, rfl⟩ := exists_of_flush hq
    exact absurd hs (state_letGo_ne_failed p)
  · have hentries : ∀ p id, (letGo p).entries id x = p.entries id x := by
      intro p id
      rw [Post.entries, Post.entries, (letGo_same p).1, state_letGo]
      by_cases hr : p.state = .removed
      · rw [if_pos hr, if_pos rfl, if_pos hr]
      · rw [if_neg hr, if_neg hr, if_neg (by split <;> simp)]
    show watchersOf n.watchers x = _
    rw [h.watched, posts_flush, entriesOf, entriesOf, Array.toList_map, List.zipIdx_map, List.flatMap_map]
    exact List.flatMap_congr fun e _ => (hentries e.1 ⟨e.2⟩).symm
  · show n.executions = _
    rw [h.counted, posts_flush, Array.toList_map, List.map_map]
    congr 1
    exact List.map_congr_left fun p _ => (letGo_same p).2.1.symm

/-! ### What can come about -/

/-- The networks that come about by posting, removing, scheduling, propagating and letting go, whatever is done to
the model in between. -/
inductive Reachable : Network → Prop
  | new (m : Model) : Reachable { model := m }
  | change {n : Network} (h : Reachable n) (m : Model) : Reachable { n with model := m }
  | post {n n' : Network} (h : Reachable n) {p : Propagator} {id : PropId} {before after : Array Notice}
      (hp : n.post p before = .ok (id, n') after) : Reachable n'
  | unpost {n n' : Network} (h : Reachable n) {id : PropId} {before after : Array Notice}
      (hu : n.unpost id before = .ok n' after) : Reachable n'
  | start {n : Network} (h : Reachable n) : Reachable n.start
  | scheduleAll {n : Network} (h : Reachable n) : Reachable n.scheduleAll
  | propagate {n n' : Network} (h : Reachable n) {outcome : Except Contradiction Unit} {before after : Array Notice}
      (hp : n.propagate before = .ok (outcome, n') after) : Reachable n'
  | flush {n : Network} (h : Reachable n) : Reachable n.flush
  | takeLast {n : Network} (h : Reachable n) : Reachable n.takeLast.2

theorem Reachable.coherent (h : n.Reachable) : n.Coherent := by
  induction h with
  | new m =>
    refine ⟨⟨.nil, fun π id => ?_, fun π => .nil⟩, ⟨fun id p hp => ?_, fun i j p q hp => ?_⟩, fun x => ?_, rfl⟩
    · simp [Agenda.queue]
    · simp at hp
    · simp at hp
    · simp [watchersOf, entriesOf]
  | change _ m ih => exact ⟨ih.queues, ih.sound, ih.watched, ih.counted⟩
  | post _ hp ih => exact ih.post _ _ _ _ hp
  | unpost _ hu ih => exact ih.unpost _ _ _ _ hu
  | start _ ih => exact ih.start
  | scheduleAll _ ih => exact ih.scheduleAll
  | propagate _ hp ih => exact (ih.propagate _ _ _ hp).1
  | flush _ ih => exact ih.flush
  | takeLast _ ih => exact ⟨ih.queues, ih.sound, ih.watched, ih.counted⟩

/-- A removed post waits nowhere, watches nothing and owes nothing. -/
structure Gone (n : Network) (id : PropId) (p : Post) : Prop where
  queue : ∀ π, id ∉ n.agenda.queue π
  watchers : ∀ x, ∀ w ∈ watchersOf n.watchers x, w.id ≠ id
  full : p.full = false
  pending : ∀ mask ∈ p.pending, mask = .void

theorem Coherent.gone (h : n.Coherent) {id : PropId} {p : Post} (hp : n.posts[id.index]? = some p)
    (hremoved : p.state = .removed) : n.Gone id p := by
  have hfits := h.sound.fits id p hp
  refine ⟨fun π hmem => ?_, fun x w hw heq => ?_, ?_, fun mask hmask => ?_⟩
  · obtain ⟨q, hq, hs, -⟩ := (h.queues.mem_iff π id).mp hmem
    cases hp.symm.trans hq
    rw [hremoved] at hs
    cases hs
  · obtain ⟨q, hq, hlive, -⟩ := h.exists_of_watcher hw
    rw [heq, hp] at hq
    cases hq
    exact hlive hremoved
  · refine Bool.eq_false_iff.mpr fun hf => ?_
    have := hfits.full hf
    simp [hremoved] at this
  · refine Classical.byContradiction fun hne => ?_
    have := hfits.pending mask hmask hne
    rw [hremoved] at this
    cases this

/-- **Scheduling is coherent in every reachable network.** What is scheduled stands once in the queue of its class
and nothing else does, what is pending or due agrees with the state, removed posts are gone, and each variable is
watched by the posts in their order. A propagation without a contradiction leaves every post idle, and another one
does nothing. -/
theorem Reachable.scheduling (h : n.Reachable) :
    n.Coherent ∧ (∀ (id : PropId) p, n.posts[id.index]? = some p → p.state = .removed → n.Gone id p) ∧
      ∀ before n' after, n.propagate before = .ok (.ok (), n') after →
        (∀ (id : PropId) p, n'.posts[id.index]? = some p → p.state ≠ .removed → p.state = .idle) ∧
          ∀ notices, n'.propagate notices = .ok (.ok (), n') notices := by
  refine ⟨h.coherent, fun id p => h.coherent.gone, fun before n' after hrun => ?_⟩
  obtain ⟨h', hsettled, -⟩ := h.coherent.propagate _ _ _ hrun
  have hsettled := hsettled rfl
  exact ⟨fun id p hp hlive => hsettled.state_eq h' hp hlive, hsettled.propagate_eq⟩

/-! ### Between propagations -/

/-- Nothing is pending for a post, and only a full pass makes it wait. -/
structure Rests (p : Post) : Prop where
  pending : ∀ mask ∈ p.pending, mask = .void
  due : p.state = .scheduled → p.full = true

/-- A coherent network that is not propagating: all its posts rest, and none failed. -/
structure Rested (n : Network) : Prop where
  coherent : n.Coherent
  failed : n.failed = false
  rests : ∀ p ∈ n.posts, Rests p

theorem Rests.clearPending {p : Post} (state : PostState) (full : Bool) (h : state = .scheduled → full = true) :
    Rests { p.clearPending with state, full } := by
  refine ⟨fun mask hmask => ?_, h⟩
  obtain ⟨-, -, rfl⟩ := Array.mem_map.mp hmask
  rfl

theorem rests_scheduleFull (h : ∀ p ∈ n.posts, Rests p) (id : PropId) : ∀ p ∈ (n.scheduleFull id).posts, Rests p := by
  rw [scheduleFull]
  split
  · exact h
  · rename_i p hp
    have hrests := h p (Array.mem_of_getElem? hp)
    split
    · exact h
    · rw [wake]
      split <;>
      · intro q hq
        rcases Array.mem_or_eq_of_mem_setIfInBounds hq with hq | rfl
        · exact h q hq
        · exact ⟨hrests.pending, fun _ => rfl⟩

theorem rests_scheduleAll (h : ∀ p ∈ n.posts, Rests p) : ∀ p ∈ n.scheduleAll.posts, Rests p :=
  List.foldlRecOn (motive := fun n : Network => ∀ p ∈ n.posts, Rests p) _ _ h
    fun _ h i _ => rests_scheduleFull h ⟨i⟩

theorem rests_start (h : ∀ p ∈ n.posts, Rests p) : ∀ p ∈ n.start.posts, Rests p := by
  rw [Network.start]
  split
  · exact h
  · exact rests_scheduleAll h

theorem Rested.start (h : n.Rested) : n.start.Rested :=
  ⟨h.coherent.start, (failed_start n).trans h.failed, rests_start h.rests⟩

theorem rests_post (p : Propagator) : (n.post p).Yields fun s => s.2.failed = n.failed ∧
    ((∀ p ∈ n.posts, Rests p) → ∀ p ∈ s.2.posts, Rests p) := by
  rw [post]
  split
  · exact .throw
  · refine .skip fun _ => .pure ?_
    dsimp only
    have hpush : ∀ active, (∀ p ∈ n.posts, Rests p) →
        ∀ q ∈ n.posts.push { propagator := p, active, pending := Array.replicate p.scope.size .void }, Rests q := by
      intro active h q hq
      rcases Array.mem_push.mp hq with hq | rfl
      · exact h q hq
      · exact ⟨fun mask hmask => (Array.mem_replicate.mp hmask).2, by simp⟩
    split
    · exact ⟨by rw [scheduleFull_reschedules], fun h => rests_scheduleFull (hpush _ h) _⟩
    · exact ⟨rfl, hpush _⟩

theorem rests_unpost (id : PropId) : (n.unpost id).Yields fun n' => n'.failed = n.failed ∧
    ((∀ p ∈ n.posts, Rests p) → ∀ p ∈ n'.posts, Rests p) := by
  rw [unpost]
  split
  · exact .throw
  · split
    · exact .bind (R := fun _ => False) .throw fun _ hc => hc.elim
    · refine .skip fun _ => .pure ⟨rfl, fun h q hq => ?_⟩
      rcases Array.mem_or_eq_of_mem_setIfInBounds hq with hq | rfl
      · exact h q hq
      · exact .clearPending _ _ (by simp)

/-- A settled network has only posts that rest. -/
theorem Settled.rests (hs : n.Settled) (h : n.Coherent) : ∀ p ∈ n.posts, Rests p := by
  intro p hmem
  obtain ⟨i, hp⟩ := Array.getElem?_of_mem hmem
  have hp : n.posts[(⟨i⟩ : PropId).index]? = some p := hp
  have hscheduled : p.state ≠ .scheduled := by
    intro hstate
    have := hs.state_eq h hp (by rw [hstate]; simp)
    rw [hstate] at this
    cases this
  refine ⟨fun mask hmask => Classical.byContradiction fun hne => ?_, fun hstate => absurd hstate hscheduled⟩
  exact hscheduled ((h.sound.fits ⟨i⟩ p hp).pending mask hmask hne)

/-- Nobody owes a settled network a full pass. -/
theorem Settled.full_eq (hs : n.Settled) (h : n.Coherent) {id : PropId} {p : Post} (hp : n.posts[id.index]? = some p) :
    p.full = false := by
  by_cases hremoved : p.state = .removed
  · exact (h.gone hp hremoved).full
  · have hidle := hs.state_eq h hp hremoved
    refine Bool.eq_false_iff.mpr fun hfull => ?_
    rcases (h.sound.fits id p hp).full hfull with hstate | hstate <;> rw [hidle] at hstate <;> cases hstate

theorem rests_propagate (h : n.Coherent) : n.propagate.Yields fun s => s.2.failed = false → ∀ p ∈ s.2.posts, Rests p := by
  rintro before ⟨outcome, n'⟩ after hrun hf
  obtain ⟨hcoherent, hsettled, hfailed⟩ := h.propagate _ _ _ hrun
  cases outcome with
  | ok u => exact (hsettled rfl).rests hcoherent
  | error c =>
    rw [hfailed c rfl] at hf
    cases hf

theorem rests_flush (h : n.Coherent) : ∀ p ∈ n.flush.posts, Rests p := by
  intro q hq
  obtain ⟨p, hp, rfl⟩ := Array.mem_map.mp hq
  split
  · rename_i hremoved
    obtain ⟨i, hp⟩ := Array.getElem?_of_mem hp
    have hp : n.posts[(⟨i⟩ : PropId).index]? = some p := hp
    exact ⟨(h.gone hp hremoved).pending, fun hs => by simp [hremoved] at hs⟩
  · refine Rests.clearPending (p := p) _ p.full fun hs => ?_
    split at hs
    · assumption
    · cases hs

/-- Unless the last propagation failed, a reachable network rests: what was looked at in earlier propagations was
dealt with or let go. -/
theorem Reachable.rested (h : n.Reachable) (hf : n.failed = false) : n.Rested := by
  refine ⟨h.coherent, hf, ?_⟩
  induction h with
  | new m => simp
  | change _ m ih => exact ih hf
  | post _ hp ih =>
    obtain ⟨hfailed, hrests⟩ := rests_post _ _ _ _ hp
    exact hrests (ih (hfailed.symm.trans hf))
  | unpost _ hu ih =>
    obtain ⟨hfailed, hrests⟩ := rests_unpost _ _ _ _ hu
    exact hrests (ih (hfailed.symm.trans hf))
  | start _ ih => exact rests_start (ih ((failed_start _).symm.trans hf))
  | scheduleAll _ ih =>
    rw [scheduleAll_reschedules] at hf
    exact rests_scheduleAll (ih hf)
  | propagate h hp _ => exact rests_propagate h.coherent _ _ _ hp hf
  | flush h _ => exact rests_flush h.coherent
  | takeLast _ ih => exact ih hf

/-- A propagator on the first variable that always ends the same way. -/
def stubborn (run : Filter Unit) : Propagator where
  name := "stubborn"
  scope := #[⟨0⟩]
  priority := .unary
  run := run
  entailed := fun _ => .ok .undecided

/-- Three propagators of which the second fails and the third is removed. -/
def three (m : Model) : Activity (Except Contradiction Unit × Network) := do
  let (_, n) ← post { model := m } (stubborn (pure ()))
  let (_, n) ← n.post (stubborn (Filter.fail .noDistance))
  let (id, n) ← n.post (stubborn (pure ()))
  let n ← n.unpost id
  n.propagate

theorem reachable_three (m : Model) : (three m).Yields fun s => s.2.Reachable := by
  have hpost : ∀ {n : Network} (p : Propagator), n.Reachable → (n.post p).Yields fun s => s.2.Reachable :=
    fun p h _ _ _ hp => h.post hp
  refine .bind (hpost _ (.new m)) fun s h => .bind (hpost _ h) fun s h => .bind (hpost _ h) fun s h => ?_
  exact .bind (fun _ _ _ hu => h.unpost hu) fun n h _ _ _ hp => h.propagate hp

/-- Of three propagators one is removed and one fails. Once all is let go the rest runs to the end. -/
theorem scheduling_of_three : ∃ (n n' : Network) (notices : Array Notice), n.Reachable ∧
    n.posts.toList.map Post.state = [.idle, .failed, .removed] ∧
    n.flush.propagate #[] = .ok (.ok (), n') notices ∧ n'.posts.toList.map Post.executions = [1, 1, 0] ∧
    n.flush.Coherent ∧ n'.propagate #[] = .ok (.ok (), n') #[] := by
  let d := Domain.bounded {} 0 2
  have heval : ((three (Model.append { name := "three" } "x" d.1 d.2).2).outcome?.map fun s =>
      (s.2.posts.toList.map Post.state, s.2.flush.propagate.outcome?.map fun s =>
        (s.1.toBool, s.2.posts.toList.map Post.executions))) =
      some ([.idle, .failed, .removed], some (true, [1, 1, 0])) := by decide +kernel
  have hreach := reachable_three (Model.append { name := "three" } "x" d.1 d.2).2
  generalize three (Model.append { name := "three" } "x" d.1 d.2).2 = a at heval hreach
  obtain ⟨⟨first, n⟩, hn, heval⟩ := Option.map_eq_some_iff.mp heval
  simp only [Prod.mk.injEq, Option.map_eq_some_iff] at heval
  obtain ⟨hstates, ⟨outcome, n'⟩, hn', houtcome, hexecutions⟩ := heval
  obtain ⟨after, hn⟩ := outcome?_eq_some hn
  obtain ⟨notices, hn'⟩ := outcome?_eq_some hn'
  cases outcome with
  | error c => cases houtcome
  | ok u =>
    have hreach : n.Reachable := hreach _ _ _ hn
    obtain ⟨hcoherent, -, hrest⟩ := Reachable.scheduling (.flush hreach)
    exact ⟨n, n', notices, hreach, hstates, hn', hexecutions, hcoherent, (hrest _ _ _ hn').2 #[]⟩

end Network

end FiniteDomain
