import FiniteDomain.Proofs.Propagation.Scheduling
import FiniteDomain.Proofs.Search.Leaving

/-!
# A search leaves no trace

Whatever was done with a network of lawful propagators before, a search that ends, for whatever reason, leaves it as
it was: the worlds and the trail, the domains, who is posted and who may be woken. On the way the world is always
the one that the path says.

* `Attained`: the networks that come about by use;
* `Attained.founded`, `Attained.rested`: what can be said of them;
* `Attained.search_leaves_no_trace`.
-/

namespace FiniteDomain

open Activity

namespace Network

variable {n n' : Network}

/-! ### Networks in use -/

/-- The networks that come about by use of lawful propagators: by making and narrowing variables and by opening and
closing worlds, by posting, removing, propagating and letting go, and by searches. -/
inductive Attained : Network → Prop
  | new (name : String) : Attained { model := { name } }
  | edit {n : Network} {m : Model} (h : Attained n) (he : n.model.Edit (fun c => ∀ p ∈ n.posts, p.active ≠ c) m) :
      Attained { n with model := m }
  | post {n n' : Network} {p : Propagator} {id : PropId} {before after : Array Notice} (h : Attained n)
      (hl : p.Lawful) (hp : n.post p before = .ok (id, n') after) : Attained n'
  | unpost {n n' : Network} {id : PropId} {before after : Array Notice} (h : Attained n)
      (hu : n.unpost id before = .ok n' after) : Attained n'
  | start {n : Network} (h : Attained n) : Attained n.start
  | scheduleAll {n : Network} (h : Attained n) : Attained n.scheduleAll
  | propagate {n n' : Network} {outcome : Except Contradiction Unit} {before after : Array Notice} (h : Attained n)
      (hp : n.propagate before = .ok (outcome, n') after) : Attained n'
  | flush {n : Network} (h : Attained n) : Attained n.flush
  | takeLast {n : Network} (h : Attained n) : Attained n.takeLast.2
  | search {n n' : Network} {σ μ : Type} {task : SearchTask} {strategy : Strategy σ} {o : Observer μ} {fuel : Nat}
      {b b' : σ} {m m' : μ} {result : SearchResult} (h : Attained n) (hs : strategy.Lawful)
      (hrun : SearchState.run task strategy o fuel n b m = (.ok (result, n', b'), m')) : Attained n'

/-- Scheduling is coherent, the propagators are lawful, no two domains share a cell, and the cells of the propagators
exist. -/
structure Founded (n : Network) : Prop where
  lawful : n.Lawful
  separate : n.model.Separate
  housed : ∀ e ∈ n.roll, e.active < n.model.store.slots.size

theorem Founded.evolve (h : n.Founded) (hl : n'.Lawful) (he : Evolves n n') : n'.Founded := by
  have hwrites : n.model.Rewrites (fun c => (∃ e ∈ n.roll, e.active = c) ∨ n.model.Owns c) n'.model :=
    he.model.mono fun c => Or.symm
  refine ⟨hl, (hwrites.edited h.separate).separate, fun e hmem => ?_⟩
  rw [he.model.writes.size_eq]
  exact h.housed e (he.roll ▸ hmem)

theorem Founded.edit (h : n.Founded) {P : Nat → Prop} {m : Model} (he : n.model.Edit P m) :
    Founded { n with model := m } := by
  have hedited := he.spec h.separate
  exact ⟨h.lawful.withModel m, hedited.separate,
    fun e hmem => Nat.lt_of_lt_of_le (h.housed e hmem) (hedited.steps.size_le h.separate.linked)⟩

theorem Founded.post (h : n.Founded) {p : Propagator} (hp : p.Lawful) : (n.post p).Yields fun s => s.2.Founded := by
  refine fun before s after hrun => ?_
  obtain ⟨hl, -, hroll, hmodel⟩ := @Gives.yields _ .worldly _ _ (h.lawful.post hp) _ _ _ hrun
  refine ⟨hl, ?_, fun e he => ?_⟩
  · rw [hmodel]
    exact (h.separate.keep (P := fun _ => False) (.grow _ .refl) n.model.events n.model.generated).separate
  · rw [hmodel, Store.size_slots_grow]
    rw [hroll] at he
    rcases Array.mem_push.mp he with he | rfl
    · exact Nat.lt_of_lt_of_le (h.housed e he) (Nat.le_add_right _ _)
    · exact Nat.lt_succ_self _

theorem Founded.unpost (h : n.Founded) (id : PropId) : (n.unpost id).Yields Founded := by
  refine fun before n' after hrun => ?_
  obtain ⟨hl, hroll, hmodel, -⟩ := @Gives.yields _ .worldly _ _ (h.lawful.unpost id) _ _ _ hrun
  refine ⟨hl, hmodel ▸ h.separate, fun e he => ?_⟩
  obtain ⟨i, hi⟩ := Array.getElem?_of_mem he
  rw [hroll, Array.getElem?_modify] at hi
  rw [hmodel]
  split at hi
  · obtain ⟨e', he', rfl⟩ := Option.map_eq_some_iff.mp hi
    exact h.housed e' (Array.mem_of_getElem? he')
  · exact h.housed e (Array.mem_of_getElem? hi)

theorem Founded.stays {σ : Type} (h : n.Founded) (b : σ) : (SearchState.begin n b).Stays n :=
  SearchState.stays_begin h.lawful h.separate.linked h.housed b

theorem Returns.founded (hr : n.Returns n') (h : n.Founded) : n'.Founded := by
  obtain ⟨values, hmodel⟩ := hr.model
  refine ⟨hr.lawful, ?_, hr.housed⟩
  rw [hmodel]
  exact (h.separate.keep (P := fun _ => False) (.grow values .refl) #[] n.model.generated).separate

/-- **What can be said of every network in use.** -/
theorem Attained.founded (h : n.Attained) : n.Founded := by
  induction h with
  | new name =>
    refine ⟨⟨(Reachable.new { name }).coherent, ?_⟩, ⟨Store.linked_empty, ?_, ?_⟩, ?_⟩
    · simp [roll]
    · rintro c ⟨i, y, hy, -⟩
      simp at hy
    · intro i j y z c hy
      simp at hy
    · simp [roll]
  | edit _ he ih => exact ih.edit he
  | post _ hl hp ih => exact ih.post hl _ _ _ hp
  | unpost _ hu ih => exact ih.unpost _ _ _ _ hu
  | start _ ih => exact ih.evolve ih.lawful.start (.start _)
  | scheduleAll _ ih => exact ih.evolve ih.lawful.scheduleAll (.scheduleAll _)
  | propagate _ hp ih =>
    obtain ⟨hl, he⟩ := @Gives.yields _ .worldly _ _ ih.lawful.propagate _ _ _ hp
    exact ih.evolve hl he
  | flush _ ih => exact ih.evolve ih.lawful.flush (.flush _)
  | takeLast _ ih => exact ⟨ih.lawful.takeLast, ih.separate, ih.housed⟩
  | search _ hs hrun ih => exact (SearchState.run_returns hs (ih.stays _) hrun).founded ih

/-- Unless the last propagation failed, a network in use rests. -/
theorem Attained.rested (h : n.Attained) (hf : n.failed = false) : n.Rested := by
  refine ⟨h.founded.lawful.coherent, hf, ?_⟩
  induction h with
  | new name => simp
  | edit _ _ ih => exact ih hf
  | post _ _ hp ih =>
    obtain ⟨hfailed, hrests⟩ := rests_post _ _ _ _ hp
    exact hrests (ih (hfailed.symm.trans hf))
  | unpost _ hu ih =>
    obtain ⟨hfailed, hrests⟩ := rests_unpost _ _ _ _ hu
    exact hrests (ih (hfailed.symm.trans hf))
  | start _ ih => exact rests_start (ih ((failed_start _).symm.trans hf))
  | scheduleAll _ ih =>
    rw [scheduleAll_reschedules] at hf
    exact rests_scheduleAll (ih hf)
  | propagate h hp _ => exact rests_propagate h.founded.lawful.coherent _ _ _ hp hf
  | flush h _ => exact rests_flush h.founded.lawful.coherent
  | takeLast _ ih => exact ih hf
  | search h hs hrun _ => exact (SearchState.run_returns hs (h.founded.stays _) hrun).rests

/-! ### As it was -/

/-- The second network is as the first one was: the worlds, the cells and the domains, who is posted and who may be
woken; and it is ready for propagation. -/
structure Untouched (n n' : Network) : Prop where
  world : n'.model.world = n.model.world
  trail : n'.model.store.trail = n.model.store.trail
  starts : n'.model.store.starts = n.model.store.starts
  cells : ∀ c < n.model.store.slots.size, n'.model.store.slots[c]? = n.model.store.slots[c]?
  vars : n'.model.vars = n.model.vars
  domains : ∀ x, n'.model.extent x = n.model.extent x ∧ ∀ v, n'.model.contains x v = n.model.contains x v
  posted : n'.live.map (fun e => (e.1, e.2.propagator)) = n.live.map fun e => (e.1, e.2.propagator)
  active : ∀ (id : PropId) p, n.posts[id.index]? = some p → ∃ p', n'.posts[id.index]? = some p' ∧
    p'.propagator = p.propagator ∧ n'.model.store.flag p'.active = n.model.store.flag p.active ∧
      n'.isActive p' = n.isActive p
  calm : n'.failed = false
  events : n'.model.events = #[]

/-- Who is posted can be read off the roll. -/
theorem live_map_eq (n : Network) : (n.live.map fun e => (e.1, e.2.propagator)).toList =
    (n.roll.toList.zipIdx.filter fun e => !e.1.removed).map fun e => (⟨e.2⟩, e.1.propagator) := by
  rw [live, roll, Array.toList_map, Array.toList_map, Array.toList_filter, Array.toList_zipIdx, Array.toList_map,
    List.zipIdx_map, List.filter_map, List.map_map, List.map_map]
  congr 1
  refine List.filter_congr fun e _ => ?_
  by_cases hr : e.1.state = .removed <;> simp [Post.enrolment, hr]

theorem Returns.posted (hr : n.Returns n') :
    n'.live.map (fun e => (e.1, e.2.propagator)) = n.live.map fun e => (e.1, e.2.propagator) := by
  apply Array.toList_inj.mp
  rw [live_map_eq, live_map_eq]
  obtain ⟨rest, hsplit, hnew⟩ := roll_split hr.roll hr.removed
  have hgone : ∀ k, (rest.zipIdx k).filter (fun e => !e.1.removed) = [] := fun k =>
    List.filter_eq_nil_iff.mpr fun e he => by simp [hnew e.1 (List.fst_mem_of_mem_zipIdx he)]
  rw [hsplit, List.zipIdx_append, List.filter_append, hgone, List.append_nil]

theorem Returns.untouched (hr : n.Returns n') (h : n.Founded) : n.Untouched n' := by
  obtain ⟨values, hmodel⟩ := hr.model
  have hget : ∀ c < n.model.store.slots.size, n'.model.store.get? c = n.model.store.get? c := by
    intro c hc
    rw [hmodel]
    exact Store.get?_grow_of_lt hc values
  have hvars : n'.model.vars = n.model.vars := by rw [hmodel]
  refine ⟨?_, ?_, ?_, ?_, hvars, ?_, hr.posted, ?_, hr.calm, ?_⟩
  · rw [hmodel]
    exact Store.world_grow _ _
  · rw [hmodel]
    rfl
  · rw [hmodel]
    rfl
  · intro c hc
    rw [hmodel]
    exact Store.getElem?_slots_grow_of_lt hc values
  · exact Model.queries_congr hvars fun c hc => hget c (h.separate.housed c hc)
  · intro id p hp
    have hlt := (Array.getElem?_eq_some_iff.mp hp).1
    obtain ⟨p', hp', heq⟩ := exists_of_roll (hr.roll id.index hlt) hp
    rw [Post.enrolment, Post.enrolment, Enrolment.mk.injEq] at heq
    obtain ⟨hpropagator, hactive, hremoved⟩ := heq
    have hhoused := h.housed p.enrolment (Array.mem_map_of_mem (Array.mem_of_getElem? hp))
    have hflag : n'.model.store.flag p'.active = n.model.store.flag p.active := by
      rw [Store.flag, Store.flag, hactive, hget p.active hhoused]
    refine ⟨p', hp', hpropagator, hflag, ?_⟩
    rw [isActive, isActive, hflag, decide_not, decide_not, hremoved]
  · rw [hmodel]

/-! ### Searches -/

/-- **A search leaves no trace.** From every network in use and however the run ends: at each node the world is the
root and as many worlds as there are decisions on the path, no operation on worlds ever faults, and whoever gets an
answer finds the network as it was. -/
theorem Attained.search_leaves_no_trace {σ μ : Type} (h : n.Attained) (task : SearchTask) {strategy : Strategy σ}
    (hs : strategy.Lawful) (o : Observer μ) (fuel : Nat) (b : σ) (m : μ) :
    (∀ s m', SearchState.Reaches task strategy o (.begin n b) m s m' → s.turn = .node →
        s.root = n.model.world + 1 ∧ s.network.model.world = s.root + s.path.depth) ∧
      (∀ fault m', SearchState.run task strategy o fuel n b m = (.error fault, m') → ¬fault.OfWorlds) ∧
      ∀ result n' b' m', SearchState.run task strategy o fuel n b m = (.ok (result, n', b'), m') → n.Untouched n' := by
  have hstays := h.founded.stays b
  refine ⟨fun s m' hreaches hnode => ?_, fun fault m' hrun => ?_, fun result n' b' m' hrun => ?_⟩
  · have hat := (hreaches.stays hs hstays).atNode (by rw [hnode]; simp) (by rw [hnode]; simp)
    refine ⟨hat.root, ?_⟩
    rw [hat.root, hat.tethered.world_eq]
    omega
  · have hsheltered : Sheltered (SearchState.run task strategy o fuel n b m).1 := SearchState.run_sheltered hs hstays
    exact hsheltered.2 fault (by rw [hrun])
  · exact (SearchState.run_returns hs hstays hrun).untouched h.founded

/-- Two variables whose sum has to differ from zero, one of them narrowed in a world above the first. -/
def corner? : Option Network := do
  let (x, m) ← (Model.newBounded { name := "corner" } "x" 0 2).toOption
  let (y, m) ← (m.newBounded "y" 0 1).toOption
  let (_, n) ← (post { model := m } (Constraint.unequalSum ⟨x, y, 0, (false, false)⟩).propagator).outcome?
  let (_, m) ← (n.model.pushWorld.apply x (.atMost 1) .decision).toOption
  return { n with model := m }

theorem corner_attained (h : corner? = some n) : n.Attained := by
  simp only [corner?, Option.bind_eq_bind, Option.bind_eq_some_iff, toOption_eq_some] at h
  obtain ⟨⟨x, m⟩, hx, ⟨y, m'⟩, hy, ⟨id, n'⟩, hpost, ⟨result, m''⟩, hnarrow, h⟩ := h
  cases h
  obtain ⟨after, hpost⟩ := outcome?_eq_some hpost
  have hmodel := ((Attained.new "corner").edit (.newBounded hx)).edit (.newBounded hy)
  have hposted := hmodel.post (Constraint.lawful _) hpost
  exact (hposted.edit .pushWorld).edit (.apply hnarrow)

set_option maxRecDepth 20000 in
/-- A search finds three solutions there and starts again often, and takes back the four nogoods it learned. -/
theorem search_leaves_no_trace_of_corner : ∃ (n n' : Network) (s : SearchState Brancher) (result : SearchResult),
    n.Attained ∧ Brancher.strategy.Lawful ∧ n.model.world = 1 ∧
      s.turn = .node ∧ s.root = 2 ∧ s.network.model.world = s.root + s.path.depth ∧
      result.measures.solutions = 3 ∧ result.measures.restarts = 13 ∧ n'.posts.size = n.posts.size + 4 ∧
      n.Untouched n' := by
  let task : SearchTask := ⟨{ restart := .luby 1, nogoodsOnRestart := true }, none⟩
  let b := Brancher.heuristic (.inputOrderMin [⟨0⟩, ⟨1⟩])
  have heval : corner?.bind (fun n => (SearchState.run task Brancher.strategy .recorder 100 n b #[]).1.toOption.bind fun r =>
      (Observer.recorder.attend #[] ((SearchState.begin n b).step task Brancher.strategy {})).1.toOption.map fun s =>
        (n.model.world, s.turn, r.1.measures.solutions, r.1.measures.restarts, n.posts.size, r.2.1.posts.size)) =
          some (1, .node, 3, 13, 1, 5) := by
    decide +kernel
  obtain ⟨n, hn, heval⟩ := Option.bind_eq_some_iff.mp heval
  obtain ⟨⟨result, n', b'⟩, hrun, heval⟩ := Option.bind_eq_some_iff.mp heval
  obtain ⟨s, hstep, heval⟩ := Option.map_eq_some_iff.mp heval
  simp only [Prod.mk.injEq] at heval
  obtain ⟨hworld, hnode, hsolutions, hrestarts, hbefore, hafter⟩ := heval
  have hn := corner_attained hn
  have hs := Brancher.strategy_lawful
  obtain ⟨hnodes, -, hreturns⟩ := hn.search_leaves_no_trace task hs .recorder 100 b #[]
  have hreaches : SearchState.Reaches task Brancher.strategy .recorder (.begin n b) #[] s _ :=
    .turn (by simp [SearchState.begin]) (Prod.ext (toOption_eq_some.mp hstep) rfl) (.refl _ _)
  obtain ⟨hroot, hdepth⟩ := hnodes s _ hreaches hnode
  rw [hworld] at hroot
  have hreturned := hreturns result n' b' _ (Prod.ext (toOption_eq_some.mp hrun) rfl)
  exact ⟨n, n', s, result, hn, hs, hworld, hnode, hroot, hdepth, hsolutions, hrestarts, by rw [hbefore, hafter],
    hreturned⟩

end Network

end FiniteDomain
