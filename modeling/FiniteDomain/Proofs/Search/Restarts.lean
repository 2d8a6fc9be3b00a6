import FiniteDomain.Proofs.Search.Nodes
import FiniteDomain.Search.Run

/-!
# Turns at the root keep up the invariant

The root is propagated at the beginning and after each restart, which goes back there, posts the nogoods of the
path, and merges what follows from them and from the objective.

* `propagateRoot_spec`, `restart_spec`;
* `step_spec`: any turn.
-/

namespace FiniteDomain

open Activity

variable [Tolerance] {σ : Type} {q : Quest} {P : σ → Prop} {r : Roster} {L : Assignment → Prop} {shown : List Moment}
  {s : SearchState σ} {path : List Decision}

/-! ### Back at the root -/

/-- A store with the same contents. -/
theorem Node.same_contents {t u : Store Datum} (h : Node q r L path t) (hl : u.Linked)
    (hsize : u.slots.size = t.slots.size) (hget : ∀ c, u.get? c = t.get? c) : Node q r L path u := by
  have hagrees : (q.modelAt t).Agrees (q.modelAt u) := ⟨rfl, hl, Nat.le_of_eq hsize.symm, fun c _ => hget c⟩
  refine ⟨h.settles.agrees hagrees fun id e _ => ?_, ?_, ?_⟩
  · show u.flag e.cell = t.flag e.cell
    rw [Store.flag, Store.flag, hget]
  · exact fun a ha => h.sound a ((hagrees.allows_iff a).mp ha)
  · exact fun a ha hp => (hagrees.allows_iff a).mpr (h.complete a ha hp)

/-- The root in a world of its own is ready for propagation. -/
theorem Landing.staged {n : Network} {t : Store Datum} (h : Landing q r L n t) (hw : n.Wired r)
    (hst : n.started = true) (hf : q.Frames n.model) :
    Staged q r L [] { { n with model := { n.model with store := t } }.flush with
      model := { n.model with store := t.push, events := #[] } } := by
  have hflush := Network.flush_spec (hw.withModel { n.model with store := t })
  have hlinked := h.suits.wellFormed.linked
  have hagrees : (q.modelAt t).Agrees { n.model with store := t.push, events := #[] } :=
    ⟨hf.vars_eq, hlinked.push, Nat.le_refl _, fun _ _ => rfl⟩
  refine ⟨hflush.wired.withModel _, hflush.started_eq.trans hst, hflush.failed_eq, hf.step rfl,
    h.suits.agrees hagrees fun _ _ _ => rfl, ?_, ?_, ?_⟩
  · intro id e he
    rcases h.due id e he with hdue | hd
    · exact .inl (hflush.scheduled id hdue)
    · exact .inr (.inl (hagrees.decided hd))
  · exact fun a ha => ⟨h.sound a ((hagrees.allows_iff a).mp ha), onPath_nil a⟩
  · exact fun a ha _ => (hagrees.allows_iff a).mpr (h.complete a ha)

/-- The search is back at the root, in a world of its own, and posts nogoods there. -/
structure Restarting (q : Quest) (P : σ → Prop) (r : Roster) (shown : List Moment) (t : Store Datum)
    (s : SearchState σ) : Prop where
  sound : Sound q P r shown (Region []) s
  staged : Staged q r (q.Seeks s.found s.measures.best) [] s.network
  store : ∃ values, s.network.model.store = t.push.grow values

theorem SearchState.record_spec {t : Store Datum} (h : Restarting q P r shown t s) {nogood : Nogood}
    (hscope : ∀ l ∈ nogood.literals, q.start.owns l.var = true)
    (hg : ∀ a, q.Seeks s.found s.measures.best a → nogood.Holds a) :
    (s.record nogood).Quiet fun s' => (∃ r, Restarting q P r shown t s') ∧
      s' = { s with
        network := s'.network
        recorded := s'.recorded } := by
  rw [record]
  refine Quiet.bind (h.staged.post_spec (c := .nogood nogood) (Constraint.suits_nogood fun l hl =>
    (h.staged.frame.owns_eq _).trans (hscope l hl))) ?_
  rintro ⟨id, n⟩ hp
  refine .pure ⟨⟨_, ?_, hp.staged, ?_⟩, rfl⟩
  · refine { h.sound with
      wired := hp.staged.wired
      started := hp.staged.started
      calm := hp.staged.calm
      frame := hp.staged.frame
      linked := hp.staged.suits.wellFormed.linked
      posted := fun j e he => Roster.insert_extends hp.fresh (h.sound.posted j e he)
      recorded := h.sound.recorded.push h.sound.posted hp.fresh
      sought := fun a ha => (Roster.admits_insert_iff hp.fresh).mpr ⟨h.sound.sought a ha, hg a ha⟩
      blocked := ?_ }
    intro hnone henabled sol hsol a heq hall
    exact h.sound.blocked hnone henabled sol hsol a heq ((Roster.admits_insert_iff hp.fresh).mp hall).1
  · obtain ⟨values, hstore⟩ := h.store
    exact ⟨values ++ [.bool true], hp.store.trans (by rw [hstore, Store.grow_grow])⟩

theorem SearchState.recordAll_spec {t : Store Datum} (h : Restarting q P r shown t s) {nogoods : List Nogood}
    (hscope : ∀ g ∈ nogoods, ∀ l ∈ g.literals, q.start.owns l.var = true)
    (hg : ∀ g ∈ nogoods, ∀ a, q.Seeks s.found s.measures.best a → g.Holds a) :
    (s.recordAll nogoods).Quiet fun s' => (∃ r, Restarting q P r shown t s') ∧
      s' = { s with
        network := s'.network
        recorded := s'.recorded } := by
  induction nogoods generalizing s r with
  | nil => exact .pure ⟨⟨r, h⟩, rfl⟩
  | cons g rest ih =>
    obtain ⟨hg, hrest⟩ := List.forall_mem_cons.mp hg
    obtain ⟨hscope, hscopes⟩ := List.forall_mem_cons.mp hscope
    rw [recordAll]
    refine Quiet.bind (record_spec h hscope hg) ?_
    rintro s1 ⟨⟨r1, h1⟩, hs1⟩
    refine Quiet.mono (ih h1 hscopes fun g hg => ?_) ?_
    · rw [hs1]
      exact hrest g hg
    · rintro s2 ⟨h2, hs2⟩
      exact ⟨h2, by rw [hs2, hs1]⟩

section Turns

variable (ho : ∀ o, q.task.objective = some o → q.start.owns o.var = true)

include ho

/-- What becomes of the search once the nogoods are posted. -/
theorem Restarting.finish {t : Store Datum} (h : Restarting q P r shown t s) (ht : t.Linked) {below : List Datum}
    (hbelow : t.pop = .ok (q.start.store.grow below)) (hpath : s.path.fromDeepest = []) :
    Turns q P shown (do
      let (outcome, network) ← s.network.improveAndPropagate q.task.objective s.measures.best .restart
      let s := { s with network }
      match outcome with
      | .ok () =>
        let network ← Activity.quietly (s.network.mapModel Model.commitWorld)
        return { s with network, turn := .node }
      | .error c =>
        let s ← s.fail c
        let network ← Activity.quietly (s.network.mapModel Model.popWorld)
        return { s with network, turn := .stop }) := by
  have hs := h.sound
  obtain ⟨values, hstore⟩ := h.store
  have hpop : s.network.model.store.pop = .ok (t.grow values) := by
    rw [hstore, ht.push.pop_grow, ht.pop_push]
    rfl
  have hbase : (t.grow values).pop = .ok (q.start.store.grow (below ++ values)) := by
    rw [ht.pop_grow, hbelow]
    exact congrArg _ (Store.grow_grow _ _ _)
  have hroot := ht.world_of_pop hbelow
  refine Quiet.before (h.staged.improveAndPropagate_spec ho hs.improves hs.ledger.fits
    (Store.world_pos_of_pop hpop) .restart (fun _ h => by cases h)) ?_
  rintro ⟨outcome, n⟩ hlands
  rw [hpop] at hlands
  cases outcome with
  | ok u =>
    obtain ⟨habove, hcalm, hnode, hbeats⟩ := hlands
    have hworld := habove.linked.world_of_pop habove.pop
    rw [Store.world_grow] at hworld hroot
    obtain ⟨c, hcommit, hlinked, -, hsize⟩ := habove.linked.exists_commit (by omega)
    refine Quiet.before (.answer (Network.mapModel_eq_ok (Model.commitWorld_eq_ok hcommit)) rfl) ?_
    rintro _ rfl
    refine Turns.done (r := r) ?_
    have hget := fun i => Store.get?_commit hcommit i
    have hagrees : n.model.Agrees { n.model with store := c } := ⟨rfl, hlinked, Nat.le_of_eq hsize.symm, fun i _ => hget i⟩
    simp only [SearchState.Stands, hpath]
    refine ⟨?_, ?_, hnode.same_contents hlinked hsize hget, ?_⟩
    · exact { hs.above habove hcalm with
        wired := habove.wired.withModel _
        frame := habove.frame.step rfl
        linked := hlinked }
    · refine ⟨below ++ values, ?_⟩
      rw [habove.linked.pop_commit (by omega) hcommit, habove.pop]
      exact hbase
    · exact fun o b heq hb v hv => hbeats o b heq hb v ((hagrees.has_iff _ _).mp hv)
  | error c =>
    obtain ⟨habove, hnone⟩ := hlands
    refine Turns.after (SearchState.fail_spec _ c) ?_
    rintro _ new ⟨hnew, rfl⟩
    have hfail := (hs.skip hnew).fail habove (s.measures.fails + 1)
    refine Quiet.before (.answer (Network.mapModel_eq_ok (Model.popWorld_eq_ok habove.pop)) rfl) ?_
    rintro _ rfl
    refine Turns.done (r := r) ?_
    simp only [SearchState.Stands, hpath]
    refine ⟨fun _ => False, ?_, ⟨_, hbase⟩, fun _ _ hc => hc⟩
    have hstop := hfail.turn (T := fun _ => False) (fun a ha _ => hnone a ha (onPath_nil a)) fun _ _ hc => hc.elim
    exact { hstop with
      wired := hstop.wired.withModel _
      frame := hstop.frame.step rfl
      linked := ht.grow values }

/-! ### The beginning -/

omit ho

/-- A network that a search can begin with: the constraints fit the domains, and propagation did not fail. -/
structure Quest.Begins (q : Quest) (n : Network) : Prop where
  wired : n.Wired q.posted
  calm : n.failed = false
  model_eq : n.model = q.start
  suits : q.posted.Suits q.start

theorem Quest.Begins.staged {n : Network} (h : q.Begins n) : Staged q q.posted (q.Seeks #[] none) []
    ({ n with model := { n.model with store := n.model.store.push } } : Network).start.scheduleAll := by
  have hwired := h.wired.withModel { n.model with store := n.model.store.push }
  have hpush := Model.agrees_push h.suits.wellFormed
  generalize hn : ({ n with model := { n.model with store := n.model.store.push } } : Network) = n1 at hwired
  have hmodel : n1.model = { q.start with store := q.start.store.push } := by rw [← hn, h.model_eq]
  have hstart := Network.start_rouses hwired
  have hall := Network.scheduleAll_rouses hstart.wired
  have hcalm : n1.start.failed = false := hstart.failed_eq.trans (by rw [← hn]; exact h.calm)
  have hmodel' : n1.start.scheduleAll.model = { q.start with store := q.start.store.push } :=
    hall.model_eq.trans (hstart.model_eq.trans hmodel)
  rw [← hmodel'] at hpush
  refine ⟨hall.wired, hall.started_eq.trans hstart.started_eq, hall.failed_eq.trans hcalm,
    by rw [Quest.Frames, hmodel'], ?_, ?_, ?_, ?_⟩
  · refine h.suits.agrees hpush fun id e _ => ?_
    rw [hmodel']
    rfl
  · exact fun id e he => .inl (Network.scheduled_scheduleAll hstart.wired hcalm he)
  · exact fun a ha => ⟨(hpush.allows_iff a).mp ha, onPath_nil a⟩
  · exact fun a ha _ => (hpush.allows_iff a).mpr ha.1.1

include ho

namespace SearchState

/-- **The root of a search** is a node at which nothing that is looked for is missing. -/
theorem propagateRoot_spec {n : Network} (h : q.Begins n) {b : σ} (hP : P b) :
    Turns q P [] (propagateRoot q.task (begin n b)) := by
  have hlinked : q.start.store.Linked := h.suits.wellFormed.linked
  have hstaged := h.staged
  rw [propagateRoot]
  generalize hn : ({ n with model := { n.model with store := n.model.store.push } } : Network) = n1 at hstaged
  refine Quiet.before (.answer (x := n1) (by rw [← hn]; rfl) rfl) ?_
  rintro _ rfl
  have hstore : n1.model.store = q.start.store.push := by rw [← hn, h.model_eq]
  have hroot : n1.model.world = q.root := by rw [Model.world, hstore, Store.world_push]; rfl
  have hpop : n1.start.scheduleAll.model.store.pop = .ok q.start.store := by
    have hwired := h.wired.withModel { n.model with store := n.model.store.push }
    rw [hn] at hwired
    have hstart := Network.start_rouses hwired
    rw [(Network.scheduleAll_rouses hstart.wired).model_eq, hstart.model_eq]
    show n1.model.store.pop = _
    rw [hstore, hlinked.pop_push]
  have hseeks : ∀ a, q.Seeks #[] none a → q.posted.Admits a ∧ Improves q.task.objective none a :=
    fun a ha => ⟨ha.1.2, ha.2.1⟩
  refine Quiet.before (hstaged.improveAndPropagate_spec ho hseeks (fun b hb => by cases hb)
    (Store.world_pos_of_pop hpop) .objective (fun _ h => by cases h)) ?_
  rintro ⟨outcome, n2⟩ hlands
  rw [hpop] at hlands
  have hsound : Sound q P q.posted [] (Region [])
      { begin n b with network := n1.start.scheduleAll, root := n1.model.world } := by
    refine ⟨hstaged.wired, hstaged.started, hstaged.calm, hstaged.frame, hstaged.suits.wellFormed.linked,
      fun _ _ he => he, ⟨?_, List.nodup_nil⟩, hP, hroot, rfl, ?_, ?_, ?_, ?_, ?_⟩
    · intro id
      simp only [begin, Array.not_mem_empty, false_iff]
      exact fun hid => hid.2 hid.1
    · refine ⟨rfl, ?_, rfl, ?_, (fun b hb => by cases hb), List.nodup_nil⟩ <;> simp [begin]
    · exact fun a ha => ha.1.2
    · exact fun a _ => .inl (onPath_nil a)
    · simp [begin]
    · simp [begin]
  have hladder : n2.Above q q.posted (.ok q.start.store) →
      Ladder q q.posted (q.Seeks #[] none) [] n2.model.store :=
    fun hc => ⟨[], hc.pop.trans (by rw [Store.grow_nil])⟩
  cases outcome with
  | ok u =>
    obtain ⟨habove, hcalm, hnode, hbeats⟩ := hlands
    refine Turns.tell trivial (Turns.done (r := q.posted) ?_)
    simp only [Stands]
    exact ⟨{ (hsound.above habove hcalm).skip rfl with }, hladder habove, hnode, hbeats⟩
  | error c =>
    obtain ⟨habove, hnone⟩ := hlands
    refine Turns.after (SearchState.fail_spec _ c) ?_
    rintro _ new ⟨hnew, rfl⟩
    refine Turns.done (r := q.posted) ?_
    have hfail := (hsound.skip hnew).fail habove 1
    have hstop := hfail.turn (T := fun _ => False) (fun a ha _ => hnone a ha (onPath_nil a)) fun _ _ hc => hc.elim
    simp only [Stands]
    exact ⟨fun _ => False, { hstop with }, hladder habove, fun _ _ hc => hc⟩

/-- **A restart loses nothing that is looked for**, and finds nothing again. -/
theorem restart_spec (hturn : s.turn = .restart) (h : s.Stands q P r shown) {strategy : Strategy σ}
    (hstrategy : strategy.Splits q.start P) : Turns q P shown (s.restart q.task strategy) := by
  simp only [Stands, hturn] at h
  obtain ⟨hsound, hladder, henabled, t, hland⟩ := h
  have hg : ∀ g ∈ (if q.task.config.nogoodsOnRestart then s.path.nogoods else []),
      ∀ a, q.Seeks s.found s.measures.best a → g.Holds a := by
    intro g hg a ha
    split at hg
    · exact DecisionPath.nogoods_hold hladder.tried (hsound.ahead a ha) g hg
    · exact absurd hg List.not_mem_nil
  have hscope : ∀ g ∈ (if q.task.config.nogoodsOnRestart then s.path.nogoods else []), ∀ l ∈ g.literals,
      q.start.owns l.var = true := by
    intro g hg l hl
    split at hg
    · obtain ⟨d, hd, hvar⟩ := DecisionPath.vars_of_nogoods g hg l hl
      exact hvar ▸ hladder.owns d hd
    · exact absurd hg List.not_mem_nil
  generalize hn : (if q.task.config.nogoodsOnRestart then s.path.nogoods else []) = nogoods at hg hscope
  have hpop := hland.popUntil
  rw [← hsound.root] at hpop
  have hstaged := hland.staged hsound.wired hsound.started hsound.frame
  rw [restart]
  simp only [hn]
  refine Quiet.before (.answer (Network.mapModel_eq_ok (Model.popUntil_eq_ok hpop)) rfl) ?_
  rintro _ rfl
  refine Quiet.before (.report rfl) fun _ _ => ?_
  refine Turns.tell trivial ?_
  generalize hn : ({ { s.network with model := { s.network.model with store := t } }.flush with
    model := { s.network.model with store := t.push, events := #[] } } : Network) = n at hstaged
  refine Quiet.before (.answer (x := n) (by rw [← hn]; rfl) rfl) ?_
  rintro _ rfl
  have hstore : n.model.store = t.push := by rw [← hn]
  have hrestarting : ∀ m, Restarting q P r (shown ++ [(.restarted (s.measures.restarts + 1), m)]) t { s with
      network := n
      path := {}
      nodesSinceRestart := 0
      measures := { s.measures with restarts := s.measures.restarts + 1 }
      brancher := strategy.restarted s.brancher (s.measures.restarts + 1) } := by
    refine fun m => ⟨?_, hstaged, [], hstore.trans (Store.grow_nil _).symm⟩
    have hregion := (hsound.skip (rfl : solutionsOf [(.restarted (s.measures.restarts + 1), m)] = [])).turn
      (T := Region []) (fun a _ _ => .inl (onPath_nil a)) fun hd => by
        rw [henabled] at hd
        cases hd
    exact { hregion with
      wired := hstaged.wired
      started := hstaged.started
      calm := hstaged.calm
      frame := hstaged.frame
      linked := hstaged.suits.wellFormed.linked
      strategy := hstrategy.restarted _ _ hsound.strategy }
  refine Quiet.before (recordAll_spec
    (hrestarting { s.network with model := { s.network.model with store := t } }.flush.model) hscope hg) ?_
  rintro s' ⟨⟨r', h'⟩, hs'⟩
  obtain ⟨below, hbelow⟩ := hland.ladder
  exact h'.finish ho hland.suits.wellFormed.linked hbelow (by rw [hs']; rfl)

/-- **Every turn keeps up the invariant.** -/
theorem step_spec (h : s.Stands q P r shown) {strategy : Strategy σ} (hstrategy : strategy.Splits q.start P)
    (signals : Signals) : Turns q P shown (s.step q.task strategy signals) := by
  rw [step]
  cases hturn : s.turn with
  | root => simp only [Stands, hturn] at h
  | node => exact openNode_spec hturn h hstrategy ho signals
  | down => exact goDown_spec ho hturn h
  | up => exact goUp_spec ho hturn h
  | restart => exact restart_spec ho hturn h hstrategy
  | stop => exact Turns.done h

end SearchState

end Turns

end FiniteDomain
