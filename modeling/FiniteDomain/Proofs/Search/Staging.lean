import FiniteDomain.Proofs.Search.Ladder

/-!
# Coming to a node

A search opens a world, changes the network in it, and asks for a better objective and propagates there. Either
it lands at a node or none of the assignments on the path is among those that are looked for.

* `Staged.improveAndPropagate_spec`: from a network that is ready for propagation;
* `Staged.post_spec`: posting a constraint there;
* `SearchState.branch_spec`: taking an alternative of a decision.
-/

namespace FiniteDomain

open Activity

/-- The model is that of the start, with another store and other changes to look at. -/
def Quest.Frames (q : Quest) (m : Model) : Prop := m = { q.start with store := m.store, events := m.events }

namespace Quest.Frames

variable {q : Quest} {m m' : Model}

theorem vars_eq (h : q.Frames m) : m.vars = q.start.vars := by rw [h]

theorem owns_eq (h : q.Frames m) (x : VarId) : m.owns x = q.start.owns x := by rw [Model.owns, Model.owns, h.vars_eq]

theorem modelAt_agrees (h : q.Frames m) (hl : m.store.Linked) : (q.modelAt m.store).Agrees m :=
  ⟨h.vars_eq, hl, Nat.le_refl _, fun _ _ => rfl⟩

theorem agrees_modelAt (h : q.Frames m) (hl : m.store.Linked) : m.Agrees (q.modelAt m.store) :=
  ⟨h.vars_eq.symm, hl, Nat.le_refl _, fun _ _ => rfl⟩

theorem step (h : q.Frames m) (hm : m' = { m with store := m'.store, events := m'.events }) : q.Frames m' := by
  rw [Frames, hm, h]

end Quest.Frames

section Steps

variable {n n' : Network} {m m' : Model} {t : Store Datum}

/-- Nothing but the model of a network matters for its model. -/
theorem Network.Wired.withModel {r : Roster} (h : n.Wired r) (m : Model) : { n with model := m }.Wired r :=
  ⟨h.member, h.removed, h.watched, h.queued, h.waiting, h.owing, h.calm⟩

theorem Model.agrees_push (hw : m.WellFormed) : m.Agrees { m with store := m.store.push } :=
  ⟨rfl, hw.linked.push, Nat.le_refl _, fun _ _ => rfl⟩

end Steps

/-! ### Ready for propagation -/

/-- The network of a search, in a world that is popped to the given store. -/
structure Network.Above (q : Quest) (r : Roster) (below : Except Fault (Store Datum)) (n : Network) : Prop where
  wired : n.Wired r
  started : n.started = true
  frame : q.Frames n.model
  linked : n.model.store.Linked
  pop : n.model.store.pop = below

/-- Every constraint is on the agenda or decided, and the assignments that are left are on the path; of those
that are looked for none is missing. -/
structure Staged [Tolerance] (q : Quest) (r : Roster) (L : Assignment → Prop) (path : List Decision)
    (n : Network) : Prop where
  wired : n.Wired r
  started : n.started = true
  calm : n.failed = false
  frame : q.Frames n.model
  suits : r.Suits n.model
  attended : Network.Attended r n
  sound : ∀ a, n.model.Allows a → q.start.Allows a ∧ OnPath path a
  complete : ∀ a, L a → OnPath path a → n.model.Allows a

/-- What going to the node below some decisions comes to. -/
def Lands [Tolerance] (q : Quest) (r : Roster) (L : Assignment → Prop) (best : Option Int) (path : List Decision)
    (below : Except Fault (Store Datum)) : Except Contradiction Unit × Network → Prop
  | (.ok (), n) => n.Above q r below ∧ n.failed = false ∧ Node q r L path n.model.store ∧
      n.model.Beats q.task.objective best
  | (.error _, n) => n.Above q r below ∧ ∀ a, L a → ¬OnPath path a

variable [Tolerance] {q : Quest} {r : Roster} {L : Assignment → Prop} {best : Option Int} {path : List Decision}
  {n n' : Network}

theorem Network.Course.above (h : Network.Course r n n') (hst : n.started = true) (hf : q.Frames n.model)
    (hl : n.model.store.Linked) (hw : 0 < n.model.store.world) : n'.Above q r n.model.store.pop :=
  ⟨h.wired, h.started.trans hst, hf.step h.shrinks.frame, h.shrinks.writes.linked hl, h.shrinks.writes.pop_eq hl hw⟩

/-- **Propagation lands at a node**, or shows that nothing that is looked for is on the path. -/
theorem Staged.improveAndPropagate_spec (h : Staged q r L path n)
    (ho : ∀ o, q.task.objective = some o → q.start.owns o.var = true)
    (hL : ∀ a, L a → r.Admits a ∧ Improves q.task.objective best a) (hb : Network.BestFits best)
    (hw : 0 < n.model.store.world) (cause : Cause) (hc : ∀ id, cause ≠ .propagator id) :
    (n.improveAndPropagate q.task.objective best cause).Quiet (Lands q r L best path n.model.store.pop) := by
  have hl := h.suits.wellFormed.linked
  have howns : ∀ o, q.task.objective = some o → n.model.owns o.var = true := fun o heq =>
    (h.frame.owns_eq _).trans (ho o heq)
  refine Quiet.mono (Network.improveAndPropagate_spec h.wired h.started h.calm h.suits h.attended howns hb hc) ?_
  rintro ⟨outcome, n'⟩ hr
  cases outcome with
  | error c =>
    obtain ⟨hcourse, hnone⟩ := hr
    refine ⟨hcourse.above h.started h.frame hl hw, fun a ha hp => ?_⟩
    exact hnone a (hL a ha).1 (hL a ha).2 (h.complete a ha hp)
  | ok u =>
    obtain ⟨hcourse, hcalm, hsettles, -, hbeats, hkeeps⟩ := hr
    have habove := hcourse.above h.started h.frame hl hw
    have hagrees := habove.frame.agrees_modelAt habove.linked
    refine ⟨habove, hcalm, ⟨hsettles.agrees hagrees fun _ _ _ => rfl, ?_, ?_⟩, hbeats⟩
    · exact fun a ha => h.sound a (hcourse.shrinks.allows ((hagrees.allows_iff a).mp ha))
    · exact fun a ha hp => (hagrees.allows_iff a).mpr (hkeeps a (hL a ha).1 (hL a ha).2 (h.complete a ha hp))

/-- What posting a constraint in a world ready for propagation comes to. -/
structure Restaged [Tolerance] (q : Quest) (r : Roster) (L : Assignment → Prop) (path : List Decision) (c : Constraint)
    (n : Network) (id : PropId) (n' : Network) : Prop where
  staged : Staged q (r.insert id ⟨c, n.model.store.slots.size⟩) L path n'
  store : n'.model.store = n.model.store.grow [.bool true]
  fresh : r id = none

omit [Tolerance] in
theorem Posted.fresh {c : Constraint} {id : PropId} (h : Network.Posted r c n id n') (hw : n.Wired r) :
    r id = none := by
  cases he : r id with
  | none => rfl
  | some e =>
    obtain ⟨p, hp, -⟩ := hw.member id e he
    rw [h.id_eq] at hp
    exact absurd (Array.getElem?_eq_some_iff.mp hp).1 (Nat.lt_irrefl _)

theorem Staged.post_spec (h : Staged q r L path n) {c : Constraint} (hc : c.Suits n.model) :
    (n.post c.propagator).Quiet fun s => Restaged q r L path c n s.1 s.2 := by
  refine Quiet.mono (Network.post_spec h.wired hc.scope) ?_
  rintro ⟨i, n'⟩ hp
  have hmodel := hp.model_eq
  have hagrees := Model.Agrees.grow h.suits.wellFormed [.bool true]
  have hsuits := h.suits.post hc i
  rw [← hmodel] at hagrees hsuits
  refine ⟨⟨hp.wired, hp.started_eq.trans h.started, hp.failed_eq.trans h.calm, h.frame.step (by rw [hmodel]), hsuits,
    ?_, ?_, ?_⟩, by rw [hmodel], Posted.fresh hp h.wired⟩
  · intro j e he
    rcases Roster.insert_cases he with ⟨rfl, rfl⟩ | ⟨-, he⟩
    · exact .inl (hp.due h.started h.calm)
    · refine (h.attended j e he).imp (hp.scheduled j) fun hm => ?_
      refine hm.imp hagrees.decided ?_
      rw [hmodel]
      exact id
  · exact fun a ha => h.sound a ((hagrees.allows_iff a).mp ha)
  · exact fun a ha hpath => (hagrees.allows_iff a).mpr (h.complete a ha hpath)

/-! ### Alternatives -/

variable {σ : Type}

/-- What taking the next alternative of a decision comes to, in a world above the node. -/
def Branches (q : Quest) (r : Roster) (L : Assignment → Prop) (d : Decision) (path : List Decision)
    (s : SearchState σ) (e : Except Contradiction Unit × SearchState σ) : Prop :=
  e.2 = { s with
      network := e.2.network
      path := s.path.replaceLast { d with tried := d.tried + 1 } } ∧
    Lands q r L s.measures.best ({ d with tried := d.tried + 1 } :: path) (.ok s.network.model.store) (e.1, e.2.network)

/-- A world on top of a node is ready for propagation. -/
theorem Node.staged_push (h : Node q r L path n.model.store) (hw : n.Wired r) (hst : n.started = true)
    (hcalm : n.failed = false) (hf : q.Frames n.model) :
    Staged q r L path { n with model := { n.model with store := n.model.store.push } } := by
  have hagrees := hf.modelAt_agrees h.linked
  have hwf := hagrees.wellFormed h.settles.wellFormed
  have hpush := Model.agrees_push hwf
  have hsettles := (h.settles.agrees hagrees fun _ _ _ => rfl).agrees hpush fun _ _ _ => rfl
  refine ⟨hw.withModel _, hst, hcalm, hf.step rfl, hsettles.toSuits, ?_, ?_, ?_⟩
  · exact fun id e he => .inr (.inl (hsettles.decided id e he))
  · intro a ha
    exact h.sound a ((hagrees.allows_iff a).mp ((hpush.allows_iff a).mp ha))
  · intro a ha hp
    exact (hpush.allows_iff a).mpr ((hagrees.allows_iff a).mpr (h.complete a ha hp))

/-- **An alternative is taken**: the search lands at the node below it, or nothing that is looked for is there. -/
theorem SearchState.branch_spec {s : SearchState σ} (hw : s.network.Wired r) (hst : s.network.started = true)
    (hcalm : s.network.failed = false) (hf : q.Frames s.network.model)
    (hnode : Node q r L path s.network.model.store) {d : Decision}
    (hd : d.Parts (q.modelAt s.network.model.store)) (hlt : d.tried < 2)
    (ho : ∀ o, q.task.objective = some o → q.start.owns o.var = true)
    (hL : ∀ a, L a → r.Admits a ∧ Improves q.task.objective s.measures.best a)
    (hb : Network.BestFits s.measures.best) : (s.branch q.task d).Quiet (Branches q r L d path s) := by
  have hstaged := hnode.staged_push hw hst hcalm hf
  have hl := hnode.linked
  generalize hn : ({ s.network with
    model := { s.network.model with store := s.network.model.store.push } } : Network) = n at hstaged
  have hpush : s.network.mapModel (fun m => .ok m.pushWorld) = .ok n := by rw [← hn]; rfl
  have hstore : n.model.store = s.network.model.store.push := by rw [← hn]
  have hworld : 0 < n.model.store.world := by rw [hstore, Store.world_push]; omega
  have hpop : n.model.store.pop = .ok s.network.model.store := by rw [hstore, hl.pop_push]
  have hparts : d.Parts n.model := by
    have hagrees := hf.modelAt_agrees hl
    rw [← hn]
    exact (hd.agrees hagrees).agrees (Model.agrees_push (hagrees.wellFormed hnode.settles.wellFormed))
  rw [branch, hpush]
  refine Quiet.bind (R := fun m => m = n) (.answer rfl rfl) ?_
  rintro _ rfl
  refine Quiet.bind (Network.takeNext_spec hstaged.wired hstaged.suits hstaged.attended hparts hlt) ?_
  rintro ⟨outcome, d', n'⟩ htakes
  cases outcome with
  | error c =>
    obtain ⟨rfl, rfl, hnone⟩ := htakes
    refine .pure ⟨rfl, ⟨hstaged.wired, hstaged.started, hstaged.frame, hstaged.suits.wellFormed.linked, hpop⟩, ?_⟩
    intro a ha hp
    obtain ⟨hd, hp⟩ := onPath_cons.mp hp
    exact hnone a hd (hstaged.complete a ha hp)
  | ok u =>
    obtain ⟨rfl, hcourse, hfailed, hattended, hkeeps, hleaves⟩ := htakes
    have habove := hcourse.above hstaged.started hstaged.frame hstaged.suits.wellFormed.linked hworld
    rw [hpop] at habove
    have hstaged' : Staged q r L ({ d with tried := d.tried + 1 } :: path) n' := by
      refine ⟨habove.wired, habove.started, hfailed.trans hstaged.calm, habove.frame, hcourse.shrinks.suits, hattended,
        ?_, ?_⟩
      · intro a ha
        obtain ⟨hstart, hp⟩ := hstaged.sound a (hcourse.shrinks.allows ha)
        exact ⟨hstart, onPath_cons.mpr ⟨hleaves a ha, hp⟩⟩
      · intro a ha hp
        obtain ⟨hd, hp⟩ := onPath_cons.mp hp
        exact hkeeps a hd (hstaged.complete a ha hp)
    have hworld' : 0 < n'.model.store.world := Store.world_pos_of_pop habove.pop
    refine Quiet.bind (hstaged'.improveAndPropagate_spec ho hL hb hworld' .objective (fun _ h => by cases h)) ?_
    rintro ⟨outcome, n''⟩ hlands
    rw [habove.pop] at hlands
    exact .pure ⟨rfl, hlands⟩

end FiniteDomain
