import FiniteDomain.Proofs.Search.Echo
import FiniteDomain.Proofs.Search.Traceless

/-!
# Searching again

At the root of a search every propagator waits for a full pass, whatever was done before. A second search therefore
begins as the first one did, but for the order in which the propagators wait: those that still owed a full pass stand in
front of the others.

* `Network.Crowded`: all wait;
* `Succeeds.rootsEcho`: the roots of two searches, if at both of them all wait in their order;
* `Attained.inLine_after`: a search that came further than its root leaves nobody waiting;
* `Attained.search_again`: the same search once more.
-/

namespace FiniteDomain

open Activity

/-- A full pass is due of the propagator, unless it was removed. -/
def Post.Due (p : Post) : Prop := p.state = .removed ∨ p.state = .scheduled ∧ p.full = true

namespace Network

variable {n n' : Network}

/-! ### All wait -/

/-- All wait for a full pass. -/
def Crowded (n : Network) : Prop := ∀ p ∈ n.posts, p.Due

theorem scheduleFull_due (h : n.Coherent) (hf : n.failed = false) {id j : PropId} {q : Post}
    (hq : (n.scheduleFull id).posts[j.index]? = some q) :
    (j = id → q.Due) ∧ (j ≠ id → n.posts[j.index]? = some q) := by
  rw [scheduleFull] at hq
  split at hq
  · rename_i hnone
    refine ⟨fun hj => ?_, fun _ => hq⟩
    rw [hj, hnone] at hq
    cases hq
  · rename_i p hp
    split at hq
    · rename_i hremoved
      refine ⟨fun hj => ?_, fun _ => hq⟩
      rw [hj, hp] at hq
      cases hq
      exact .inl hremoved
    · rename_i hlive
      have hset : ∃ state, (n.wake id { p with full := true }).posts =
          n.posts.setIfInBounds id.index { p with full := true, state } ∧ state = .scheduled := by
        rw [wake]
        split
        · exact ⟨_, rfl, rfl⟩
        · rename_i hidle
          refine ⟨p.state, rfl, ?_⟩
          have hfailed := h.ne_failed hf hp
          cases hs : p.state with
          | idle => exact absurd hs hidle
          | scheduled => rfl
          | failed => exact absurd hs hfailed
          | removed => exact absurd hs hlive
      obtain ⟨_, hset, rfl⟩ := hset
      rw [hset, getElem?_posts_set hp] at hq
      split at hq
      · rename_i hj
        cases hq
        exact ⟨fun _ => .inr ⟨rfl, rfl⟩, fun hne => absurd hj hne⟩
      · rename_i hj
        exact ⟨fun heq => absurd heq hj, fun _ => hq⟩

theorem crowded_scheduleAll (h : n.Coherent) (hf : n.failed = false) : n.scheduleAll.Crowded := by
  have hdue : ∀ k : Nat, let m := (List.range k).foldl (fun n i => n.scheduleFull ⟨i⟩) n
      m.Coherent ∧ m.failed = false ∧ ∀ (j : PropId) q, m.posts[j.index]? = some q → j.index < k → q.Due := by
    intro k
    induction k with
    | zero => exact ⟨h, hf, fun _ _ _ hlt => absurd hlt (Nat.not_lt_zero _)⟩
    | succ k ih =>
      obtain ⟨hm, hcalm, hall⟩ := ih
      rw [List.range_succ, List.foldl_append]
      refine ⟨hm.scheduleFull _, ?_, fun j q hq hlt => ?_⟩
      · exact (congrArg failed (scheduleFull_reschedules _ _)).trans hcalm
      · obtain ⟨hself, hother⟩ := scheduleFull_due hm hcalm hq
        by_cases hj : j = ⟨k⟩
        · exact hself hj
        · have hne : j.index ≠ k := fun heq => hj (by rw [← heq])
          exact hall j q (hother hj) (by omega)
  intro p hp
  obtain ⟨i, hi⟩ := Array.getElem?_of_mem hp
  have hlt := (Array.getElem?_eq_some_iff.mp hi).1
  rw [size_eq_of_roll (roll_scheduleAll n)] at hlt
  exact (hdue n.posts.size).2.2 ⟨i⟩ p hi hlt

/-- Who is put on an empty agenda waits in the order of posting. -/
theorem inLine_scheduleAll (h : n.Coherent) (hempty : n.agenda.isEmpty = true) : n.scheduleAll.agenda.InLine := by
  have hline : ∀ k : Nat, let m := (List.range k).foldl (fun n i => n.scheduleFull ⟨i⟩) n
      m.Coherent ∧ m.agenda.InLine ∧ ∀ π, ∀ i ∈ m.agenda.queue π, i.index < k := by
    intro k
    induction k with
    | zero =>
      have hnone : ∀ π, n.agenda.queue π = [] := fun π =>
        List.eq_nil_iff_forall_not_mem.mpr fun i => Agenda.isEmpty_iff.mp hempty π i
      refine ⟨h, fun π => ?_, fun π i hi => ?_⟩
      · rw [List.range_zero, List.foldl_nil, hnone]
        exact .nil
      · exact absurd hi (Agenda.isEmpty_iff.mp hempty π i)
    | succ k ih =>
      obtain ⟨hm, hin, hlt⟩ := ih
      rw [List.range_succ, List.foldl_append, List.foldl_cons, List.foldl_nil]
      generalize (List.range k).foldl (fun n i => n.scheduleFull ⟨i⟩) n = m at hm hin hlt ⊢
      have hagenda : (m.scheduleFull ⟨k⟩).agenda = m.agenda ∨ ∃ π, (m.scheduleFull ⟨k⟩).agenda = m.agenda.enqueue π ⟨k⟩ := by
        rw [scheduleFull]
        split
        · exact .inl rfl
        · split
          · exact .inl rfl
          · rw [wake]
            split
            · exact .inr ⟨_, rfl⟩
            · exact .inl rfl
      refine ⟨hm.scheduleFull _, ?_⟩
      rcases hagenda with hsame | ⟨π, hadds⟩
      · rw [hsame]
        exact ⟨hin, fun π i hi => Nat.lt_succ_of_lt (hlt π i hi)⟩
      · rw [hadds]
        refine ⟨hin.enqueue hm.queues.ordered hlt π, fun σ i hi => ?_⟩
        rw [Agenda.queue_enqueue hm.queues.ordered] at hi
        split at hi
        · rcases List.mem_append.mp hi with hi | hi
          · exact Nat.lt_succ_of_lt (hlt σ i hi)
          · rw [List.mem_singleton.mp hi]
            exact Nat.lt_succ_self k
        · exact Nat.lt_succ_of_lt (hlt σ i hi)
  exact (hline n.posts.size).2.1

/-- Where all wait nobody is put on the agenda. -/
theorem Crowded.wake (h : n.Crowded) {p : Post} (hp : p.Due) (id : PropId) :
    (n.wake id p).Crowded ∧ (n.wake id p).agenda = n.agenda := by
  have hidle : p.state ≠ .idle := by
    rcases hp with hs | ⟨hs, -⟩ <;> rw [hs] <;> nofun
  rw [Network.wake, if_neg hidle]
  refine ⟨fun q hq => ?_, rfl⟩
  rcases Array.mem_or_eq_of_mem_setIfInBounds hq with hq | rfl
  · exact h q hq
  · exact hp

theorem Crowded.notify (h : n.Crowded) (e : Event) (w : Watcher) :
    (n.notify e w).Crowded ∧ (n.notify e w).agenda = n.agenda := by
  rw [Network.notify]
  split
  · exact ⟨h, rfl⟩
  · split
    · exact ⟨h, rfl⟩
    · rename_i p hp
      have hdue : p.Due := h p (Array.mem_of_getElem? hp)
      split
      · refine h.wake ?_ _
        exact hdue
      · exact ⟨h, rfl⟩

theorem Crowded.scheduleFull (h : n.Crowded) (id : PropId) :
    (n.scheduleFull id).Crowded ∧ (n.scheduleFull id).agenda = n.agenda := by
  rw [Network.scheduleFull]
  split
  · exact ⟨h, rfl⟩
  · rename_i p hp
    split
    · exact ⟨h, rfl⟩
    · rename_i hlive
      have hdue := (h p (Array.mem_of_getElem? hp)).resolve_left hlive
      refine h.wake ?_ id
      exact .inr ⟨hdue.1, rfl⟩

theorem Crowded.foldl {α : Type} {f : Network → α → Network} (h : n.Crowded)
    (hf : ∀ (n : Network) x, n.Crowded → (f n x).Crowded ∧ (f n x).agenda = n.agenda) (l : List α) :
    (l.foldl f n).Crowded ∧ (l.foldl f n).agenda = n.agenda := by
  induction l generalizing n with
  | nil => exact ⟨h, rfl⟩
  | cons x rest ih =>
    obtain ⟨hfirst, hsame⟩ := hf n x h
    obtain ⟨hrest, hsame'⟩ := ih hfirst
    exact ⟨hrest, hsame'.trans hsame⟩

theorem Crowded.absorb (h : n.Crowded) : n.absorb.Crowded ∧ n.absorb.agenda = n.agenda := by
  rw [Network.absorb, ← Array.foldl_toList]
  have hcleared : Crowded { n with model := n.model.clearEvents } := h
  refine hcleared.foldl (fun _ e h => ?_) _
  rw [distribute_eq]
  exact h.foldl (fun _ w h => h.notify e w) _

theorem Crowded.scheduleAll (h : n.Crowded) : n.scheduleAll.Crowded ∧ n.scheduleAll.agenda = n.agenda :=
  h.foldl (fun _ i h => h.scheduleFull ⟨i⟩) _

/-! ### Roots of two searches -/

/-- The second network is the first one, but for cells that nothing refers to, for changes that are still to be looked
at, and for posts that were removed. -/
structure Succeeds (n n' : Network) : Prop where
  coherent : n'.Coherent
  model : ∃ values events, n'.model = { n.model with store := n.model.store.grow values, events }
  roll : ∀ i < n.posts.size, n'.roll[i]? = n.roll[i]?
  removed : ∀ i e, n.posts.size ≤ i → n'.roll[i]? = some e → e.removed = true
  calm : n.failed = false → n'.failed = false

theorem Succeeds.refl (h : n.Coherent) : n.Succeeds n := by
  refine ⟨h, ⟨[], n.model.events, by rw [Store.grow_nil]⟩, fun _ _ => rfl, fun i e hi he => ?_, id⟩
  exact absurd hi (Nat.not_le_of_lt (lt_of_roll he))

theorem Returns.succeeds (h : n.Returns n') : n.Succeeds n' := by
  obtain ⟨values, hmodel⟩ := h.model
  exact ⟨h.lawful.coherent, ⟨values, #[], hmodel⟩, h.roll, h.removed, fun _ => h.calm⟩

theorem Succeeds.size_le (h : n.Succeeds n') : n.posts.size ≤ n'.posts.size := by
  obtain ⟨rest, hsplit, -⟩ := roll_split h.roll h.removed
  have hlength := congrArg List.length hsplit
  rw [List.length_append, Array.length_toList, Array.length_toList, size_roll, size_roll] at hlength
  omega

open SearchState (rooted RootsEcho)

/-- The root of a search differs from the network in the world and in who waits. -/
theorem rooted_reschedules (n : Network) :
    Reschedules { n with model := n.model.pushWorld, started := true } (rooted n) := by
  have hstart : ∀ n : Network, Reschedules { n with started := true } n.start := by
    intro n
    rw [start]
    split
    · rename_i hstarted
      rw [Reschedules, ← hstarted]
    · exact scheduleAll_reschedules _
  exact (hstart { n with model := n.model.pushWorld }).trans (scheduleAll_reschedules _)

theorem roll_rooted (n : Network) : (rooted n).roll = n.roll := (roll_scheduleAll _).trans (roll_start _)

theorem failed_rooted (n : Network) : (rooted n).failed = n.failed := by rw [rooted_reschedules]

/-- Where nobody waits, all wait in the order of posting at the root of a search. -/
theorem inLine_rooted (h : n.Coherent) (hf : n.failed = false) (hempty : n.agenda.isEmpty = true) :
    (rooted n).agenda.InLine := by
  have hopened : ∀ started, Coherent { n with model := n.model.pushWorld, started } := fun _ =>
    ⟨h.queues, h.sound, h.watched, h.counted⟩
  rw [rooted, start]
  split
  · exact inLine_scheduleAll (hopened n.started) hempty
  · rw [(crowded_scheduleAll (hopened true) hf).scheduleAll.2]
    exact inLine_scheduleAll (hopened true) hempty

/-- What is known of a root once the changes were looked at. -/
structure Roots (n m : Network) : Prop where
  coherent : m.Coherent
  model : m.model = n.model.pushWorld.clearEvents
  roll : m.roll = n.roll
  agenda : m.agenda = (rooted n).agenda
  crowded : m.Crowded
  started : m.started = true
  calm : m.failed = false
  executions : m.executions = n.executions

theorem roots_rooted (h : n.Coherent) (hf : n.failed = false) : n.Roots (rooted n).absorb := by
  have hframe := absorb_reschedules (rooted n)
  have hrooted := rooted_reschedules n
  have hcalm := (failed_rooted n).trans hf
  have hbegun : Network.Coherent (start { n with model := n.model.pushWorld }) :=
    Coherent.start ⟨h.queues, h.sound, h.watched, h.counted⟩
  obtain ⟨hcrowded, hagenda⟩ := (crowded_scheduleAll hbegun ((failed_start _).trans hf)).absorb
  refine ⟨hbegun.scheduleAll.absorb hcalm, ?_, (roll_absorb _).trans (roll_rooted n), hagenda, hcrowded, ?_, ?_, ?_⟩
  · rw [hframe, hrooted]
  · rw [hframe, hrooted]
  · rw [hframe]
    exact hcalm
  · rw [hframe, hrooted]

/-- Where all wait, the states can be read off the roll. -/
theorem Crowded.state_eq (h : n.Crowded) (hc : n.Coherent) {id : PropId} {p : Post} (hp : n.posts[id.index]? = some p) :
    p.state = (if p.enrolment.removed then .removed else .scheduled) ∧ p.full = !p.enrolment.removed := by
  rcases h p (Array.mem_of_getElem? hp) with hremoved | ⟨hscheduled, hfull⟩
  · simp [Post.enrolment, hremoved, (hc.gone hp hremoved).full]
  · simp [Post.enrolment, hscheduled, hfull]

/-- The residue of a network that comes after another. None of the old posts owes a full pass once the root was
propagated. -/
def residue (n n' : Network) : Residue where
  cells := ⟨n.model.store.slots.size, n'.model.store.slots.size - n.model.store.slots.size⟩
  ids := ⟨n.posts.size, n'.posts.size - n.posts.size⟩
  executions := n'.executions - n.executions
  spent := n.posts.size

theorem Succeeds.echoes (hs : n.Succeeds n') (h : n.Founded) (hshipped : n.Shipped) {m m' : Network} (hm : n.Roots m)
    (hm' : n'.Roots m') (hline : m.agenda.InLine) (hline' : m'.agenda.InLine) :
    m.Echoes { residue n n' with spent := 0 } m' := by
  have hsize := size_eq_of_roll hm.roll
  have hsize' := size_eq_of_roll hm'.roll
  obtain ⟨values, events, hmodel⟩ := hs.model
  have hgap : n'.model.store.slots.size - n.model.store.slots.size = values.length := by
    rw [hmodel, Store.size_slots_grow]
    omega
  have hecho : m.model.Echoes { residue n n' with spent := 0 } m'.model := by
    refine ⟨?_, ?_, ?_, ?_⟩
    · rw [hm'.model, hm.model, hmodel]
      rfl
    · show m.model.store.Echoes ⟨_, _⟩ m'.model.store
      rw [hgap, hm'.model, hm.model, hmodel]
      exact (Store.Echoes.of_grow h.separate.linked values).push
    · rw [hm'.model, hm.model]
      exact Array.map_empty.symm
    · rw [hm.model]
      exact h.separate.housed
  refine echoes_of_roll hm.coherent hm'.coherent hecho ?_ rfl ?_ ?_ ?_ ?_ (hshipped.of_roll hm.roll) ?_ hm.started
    hm'.started (hm'.calm.trans hm.calm.symm) hline hline' ?_
  · rw [hsize, hsize']
    rfl
  · rw [hsize, hsize']
    exact hs.size_le
  · rw [hsize, hm.roll, hm'.roll]
    exact hs.roll
  · rw [hsize, hm'.roll]
    exact hs.removed
  · rw [hm.roll]
    exact h.housed
  · intro id p p' hp hp'
    have hroll := hs.roll id.index (hsize ▸ (Array.getElem?_eq_some_iff.mp hp).1)
    rw [← hm.roll, ← hm'.roll] at hroll
    obtain ⟨q, hq, henrolment⟩ := exists_of_roll hroll hp
    cases hp'.symm.trans hq
    obtain ⟨hstate, hfull⟩ := hm.crowded.state_eq hm.coherent hp
    obtain ⟨hstate', hfull'⟩ := hm'.crowded.state_eq hm'.coherent hp'
    rw [hstate, hfull, hstate', hfull', henrolment]
    exact ⟨rfl, rfl⟩
  · rw [hm.executions, hm'.executions]
    show (n'.executions : Int) = n.executions + (n'.executions - n.executions)
    omega

/-- Where no old post owes a full pass, this is known from then on. -/
theorem Echoes.spend {k : Residue} (h : n.Echoes k n') {j : Nat} (hj : j ≤ n.posts.size)
    (hspent : ∀ (id : PropId) p, n.posts[id.index]? = some p → id.index < j → p.full = false) :
    n.Echoes { k with spent := j } n' := by
  have hm := h.model
  have hp := h.posts
  refine ⟨⟨hm.vars, hm.store, hm.events, hm.housed⟩, ⟨hp.reaches, hp.size_eq, fun id p hget => ?_, hp.removed, hp.shipped,
    hj, hspent⟩, h.watchers, h.agenda, h.started, h.started', h.failed, h.executions⟩
  obtain ⟨p', hget', hecho⟩ := hp.get id p hget
  exact ⟨p', hget', hecho.propagator, hecho.active, hecho.state, hecho.full⟩

/-- **The roots of two searches** echo each other if at both of them all wait in the order of posting. -/
theorem Succeeds.rootsEcho (hs : n.Succeeds n') (h : n.Founded) (hshipped : n.Shipped)
    (hline : (rooted n).agenda.InLine) (hline' : (rooted n').agenda.InLine) : RootsEcho (residue n n') n n' := by
  obtain ⟨values, events, hmodel⟩ := hs.model
  refine ⟨?_, ?_, ?_⟩
  · rw [hmodel]
    exact Store.world_grow _ _
  · show (n'.executions : Int) = n.executions + (n'.executions - n.executions)
    omega
  · by_cases hf : n.failed = true
    · intro before r after hrun
      rw [Network.propagate, if_pos ((failed_rooted n).trans hf)] at hrun
      cases hrun
    have hf := Bool.eq_false_iff.mpr hf
    have hm := roots_rooted h.lawful.coherent hf
    have hm' := roots_rooted hs.coherent (hs.calm hf)
    have hecho := hs.echoes h hshipped hm hm' (hm.agenda ▸ hline) (hm'.agenda ▸ hline')
    have hpropagate : ∀ {n : Network}, n.failed = false →
        (rooted n).propagate = (rooted n).absorb.drain (rooted n).absorb.budget := by
      intro n hf
      have hstarted : (rooted n).started = true := by rw [rooted_reschedules]
      have hcalm : (rooted n).failed = false := (failed_rooted n).trans hf
      rw [Network.propagate, hcalm, start, if_pos hstarted]
      rfl
    rw [hpropagate hf, hpropagate (hs.calm hf), hecho.budget_eq]
    rintro before ⟨r, t⟩ after hrun before'
    obtain ⟨⟨r', t'⟩, after', hrun', heq, ht⟩ := hecho.drain _ _ _ _ hrun before'
    refine ⟨_, after', hrun', ?_⟩
    cases r with
    | error c => exact .inl ⟨c, _, rfl, heq⟩
    | ok u =>
      obtain ⟨hcoherent, hsettled, -⟩ := hm.coherent.drain hm.started hm.calm (events_absorb _) _ _ _ _ hrun
      exact .inr ⟨rfl, heq, ht.spend ht.posts.reaches fun id p hp _ => (hsettled rfl).full_eq hcoherent hp⟩

/-! ### The same search once more -/

section Again

variable {σ μ ν : Type} {task : SearchTask} {strategy : Strategy σ} {R : σ → σ → Prop} {o : Observer μ} {o' : Observer ν}
  {fuel : Nat} {b c : σ} {m m₁ : μ} {result : SearchResult}

/-- A search that came further than its root leaves nobody waiting, so that at the root of the next one all wait in the
order of posting. -/
theorem Attained.inLine_after (h : n.Attained) (hshipped : n.Shipped) (hline : (rooted n).agenda.InLine)
    (hs : strategy.Lawful) (hecho : strategy.Echoes R) (htime : task.config.timeLimitMs = none)
    (ho : ∀ m, (o.signals m).cancelled = false) (hb : R b b)
    (hrun : SearchState.run task strategy o fuel n b m = (.ok (result, n', c), m₁))
    (hopened : 0 < result.measures.nodes ∨ result.stopped ≠ none) :
    (rooted n').agenda.InLine ∧ ∃ c', R c c' := by
  have hreturns := SearchState.run_returns hs (h.founded.stays b) hrun
  have hcoherent := hreturns.lawful.coherent
  -- the search is compared with itself, which says that the old posts owe nothing at the end
  have hroots := (Succeeds.refl h.founded.lawful.coherent).rootsEcho h.founded hshipped hline hline
  obtain ⟨_, t, c', _, -, -, ht, hc⟩ := hroots.run hecho htime ho ho hb hrun hopened m
  have hfull : ∀ (id : PropId) p, n'.posts[id.index]? = some p → p.full = false := by
    intro id p hp
    by_cases hid : id.index < n.posts.size
    · exact ht.posts.spent id p hp hid
    · have hremoved := hreturns.removed id.index p.enrolment (Nat.le_of_not_lt hid) (getElem?_roll_of hp)
      exact (hcoherent.gone hp (of_decide_eq_true hremoved)).full
  have hempty : n'.agenda.isEmpty = true := by
    refine Agenda.isEmpty_iff.mpr fun π id hid => ?_
    obtain ⟨p, hp, hstate, -⟩ := (hcoherent.queues.mem_iff π id).mp hid
    have hdue := (hreturns.rests p (Array.mem_of_getElem? hp)).due hstate
    rw [hfull id p hp] at hdue
    cases hdue
  exact ⟨inLine_rooted hcoherent hreturns.calm hempty, c', hc⟩

/-- **The same search once more**, with a strategy in a state that makes no difference, has the same answer but for the
time. -/
theorem Attained.search_again (h : n.Attained) (hshipped : n.Shipped) (hline : (rooted n).agenda.InLine)
    (hs : strategy.Lawful) (hecho : strategy.Echoes R) (htime : task.config.timeLimitMs = none)
    (ho : ∀ m, (o.signals m).cancelled = false) (ho' : ∀ m, (o'.signals m).cancelled = false) (hb : R b b)
    (hrun : SearchState.run task strategy o fuel n b m = (.ok (result, n', c), m₁))
    (hopened : 0 < result.measures.nodes ∨ result.stopped ≠ none) {b' : σ} (hb' : R b b') (m' : ν) :
    ∃ result' n'' c' m₁', SearchState.run task strategy o' fuel n' b' m' = (.ok (result', n'', c'), m₁') ∧
      result' = { result with measures := { result.measures with elapsedMs := result'.measures.elapsedMs } } := by
  have hreturns := SearchState.run_returns hs (h.founded.stays b) hrun
  obtain ⟨hline', -⟩ := h.inLine_after hshipped hline hs hecho htime ho hb hrun hopened
  have hroots := hreturns.succeeds.rootsEcho h.founded hshipped hline hline'
  obtain ⟨result', n'', c', m₁', hrun', heq, -, -⟩ := hroots.run hecho htime ho ho' hb' hrun hopened m'
  exact ⟨result', n'', c', m₁', hrun', heq⟩

end Again

end Network

end FiniteDomain
