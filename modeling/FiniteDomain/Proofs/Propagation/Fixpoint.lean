import FiniteDomain.Proofs.Model.Worlds
import FiniteDomain.Proofs.Propagation.Filter
import FiniteDomain.Proofs.Propagation.Budget

/-!
# Propagation to a fixed point

While propagators run, each constraint is *minded*: its propagator is on the agenda, or it is decided, or one
of its variables was fixed by another and nobody has looked at that yet. When the agenda is empty and no change
is left to look at, all constraints are decided.

* `execute_spec`: one run;
* `drain_spec`, `propagate_spec`: runs until none waits.
-/

namespace FiniteDomain

open Activity

/-- The constraint is decided, or one of its variables was fixed by another. -/
def Constraint.Minded (c : Constraint) (id : PropId) (m : Model) : Prop :=
  c.Decided m ∨ ∃ ev ∈ m.events, Network.Stirs id c ev

/-- Narrowings by others leave a constraint minded. -/
theorem Constraint.Minded.narrows {c : Constraint} {id : PropId} {p : Cause → Prop} {m m' : Model}
    (h : c.Minded id m) (hn : Model.Narrows p m m') (hp : ∀ cause, p cause → cause ≠ .propagator id) :
    c.Minded id m' := by
  obtain ⟨new, hevents, hcause, hfixed⟩ := hn.events
  have hold : ∀ ev ∈ m.events, ev ∈ m'.events := by
    intro ev hev
    rw [← Array.mem_toList_iff, hevents]
    exact List.mem_append_left _ (Array.mem_toList_iff.mpr hev)
  have hnew : ∀ ev ∈ new, ev ∈ m'.events := by
    intro ev hev
    rw [← Array.mem_toList_iff, hevents]
    exact List.mem_append_right _ hev
  rcases h with hd | ⟨ev, hev, hs⟩
  · by_cases hall : ∀ x ∈ c.propagator.scope, m'.Fixed x → m.Fixed x
    · exact .inl fun hf a ha => hd (fun x hx => hall x hx (hf x hx)) a (hn.allows ha)
    · obtain ⟨x, hx⟩ := Classical.not_forall.mp hall
      obtain ⟨hmem, hx⟩ := Classical.not_imp.mp hx
      obtain ⟨hf, hnf⟩ := Classical.not_imp.mp hx
      obtain ⟨ev, hev, rfl, hkind⟩ := hfixed x hf hnf
      exact .inr ⟨ev, hnew ev hev, hmem, hkind, hp _ (hcause ev hev)⟩
  · exact .inr ⟨ev, hold ev hev, hs⟩

namespace Roster

/-- The cells that say which propagators are still to be woken. -/
def Flags (r : Roster) (cell : Nat) : Prop := ∃ id e, r id = some e ∧ e.cell = cell

/-- The constraints suit the model, each has a cell of its own outside the domains, and those that are not to
be woken admit every choice of the values left. -/
structure Suits [Tolerance] (r : Roster) (m : Model) : Prop where
  wellFormed : m.WellFormed
  suits : ∀ id e, r id = some e → e.constraint.Suits m
  housed : ∀ id e, r id = some e → e.cell < m.store.slots.size
  apart : ∀ id e, r id = some e → ¬m.Owns e.cell
  distinct : ∀ i j e f, r i = some e → r j = some f → e.cell = f.cell → i = j
  passive : ∀ id e, r id = some e → m.store.flag e.cell = false → ∀ a, m.Allows a → e.constraint.Admits a

/-- All constraints are decided. -/
structure Settles [Tolerance] (r : Roster) (m : Model) : Prop extends r.Suits m where
  decided : ∀ id e, r id = some e → e.constraint.Decided m

/-- The second model came about from the first by narrowings and by sending propagators to sleep. -/
structure Shrinks [Tolerance] (r : Roster) (m m' : Model) : Prop where
  frame : m' = { m with store := m'.store, events := m'.events }
  writes : Store.Writes (fun c => m.Owns c ∨ r.Flags c) m.store m'.store
  suits : r.Suits m'
  has : ∀ x v, m'.Has x v → m.Has x v
  spends : ∀ x, m'.changes x + m'.count x ≤ m.changes x + m.count x

variable [Tolerance] {r : Roster} {m m' m'' : Model}

namespace Shrinks

theorem vars_eq (h : r.Shrinks m m') : m'.vars = m.vars := by rw [h.frame]

theorem owns_eq (h : r.Shrinks m m') (x : VarId) : m'.owns x = m.owns x := by rw [Model.owns, Model.owns, h.vars_eq]

theorem allows (h : r.Shrinks m m') {a : Assignment} (ha : m'.Allows a) : m.Allows a := fun x hx =>
  h.has x _ (ha x ((h.owns_eq x).trans hx))

theorem refl (h : r.Suits m) : r.Shrinks m m := ⟨rfl, .refl, h, fun _ _ hv => hv, fun _ => Nat.le_refl _⟩

theorem trans (h1 : r.Shrinks m m') (h2 : r.Shrinks m' m'') : r.Shrinks m m'' := by
  have howns : ∀ c, m'.Owns c ↔ m.Owns c := fun c => by rw [Model.Owns, Model.Owns, h1.vars_eq]
  refine ⟨by rw [h2.frame, h1.frame], h1.writes.trans (h2.writes.mono ?_), h2.suits,
    fun x v hv => h1.has x v (h2.has x v hv), fun x => (h2.spends x).trans (h1.spends x)⟩
  exact fun c hc => hc.imp_left (howns c).mp

/-- Narrowings leave the flags alone. -/
theorem of_narrows {p : Cause → Prop} (h : r.Suits m) (hn : Model.Narrows p m m') : r.Shrinks m m' := by
  have howns : ∀ c, m'.Owns c ↔ m.Owns c := fun c => by rw [Model.Owns, Model.Owns, hn.vars_eq]
  refine ⟨hn.frame, hn.writes.mono fun c hc => .inl hc, ⟨hn.wellFormed, ?_, ?_, ?_, h.distinct, ?_⟩, hn.has,
    hn.spends⟩
  · intro id e he
    exact (h.suits id e he).of_narrower (fun x hx => (hn.owns_eq x).trans hx) hn.has
  · intro id e he
    rw [hn.writes.size_eq]
    exact h.housed id e he
  · exact fun id e he hc => h.apart id e he ((howns _).mp hc)
  · intro id e he hf a ha
    refine h.passive id e he ?_ a (hn.allows ha)
    rw [← hf, Store.flag, Store.flag, hn.writes.get?_eq (h.apart id e he)]

end Shrinks

/-- A model with the same domains and the same flags. -/
theorem Suits.agrees (h : r.Suits m) (ha : m.Agrees m')
    (hflag : ∀ id e, r id = some e → m'.store.flag e.cell = m.store.flag e.cell) : r.Suits m' := by
  refine ⟨ha.wellFormed h.wellFormed, fun id e he => ha.suits (h.suits id e he),
    fun id e he => Nat.lt_of_lt_of_le (h.housed id e he) ha.size, ?_, h.distinct, ?_⟩
  · exact fun id e he hc => h.apart id e he ((ha.owns_iff _).mp hc)
  · intro id e he hf a hall
    exact h.passive id e he (hflag id e he ▸ hf) a ((ha.allows_iff a).mp hall)

theorem Settles.agrees (h : r.Settles m) (ha : m.Agrees m')
    (hflag : ∀ id e, r id = some e → m'.store.flag e.cell = m.store.flag e.cell) : r.Settles m' :=
  ⟨h.toSuits.agrees ha hflag, fun id e he => ha.decided (h.decided id e he)⟩

/-- A propagator of a constraint that admits every choice of the values left goes to sleep. -/
theorem Suits.setCell (h : r.Suits m) {id : PropId} {e : Member} (he : r id = some e)
    (hall : ∀ a, m.Allows a → e.constraint.Admits a) :
    r.Shrinks m (m.setCell e.cell (.bool false)) ∧ m.Agrees (m.setCell e.cell (.bool false)) := by
  have hagrees : m.Agrees (m.setCell e.cell (.bool false)) := .setCell h.wellFormed (h.apart id e he) _
  have hspends : ∀ x, (m.setCell e.cell (.bool false)).changes x + (m.setCell e.cell (.bool false)).count x ≤
      m.changes x + m.count x := fun x => by
    rw [hagrees.count_eq]
    exact Nat.le_refl _
  refine ⟨⟨rfl, .one (.inr ⟨id, e, he, rfl⟩) _, ?_, fun x v => (hagrees.has_iff x v).mp, hspends⟩, hagrees⟩
  refine ⟨hagrees.wellFormed h.wellFormed, fun i f hf => hagrees.suits (h.suits i f hf), ?_, ?_, h.distinct,
    ?_⟩
  · intro i f hf
    exact Nat.lt_of_lt_of_le (h.housed i f hf) hagrees.size
  · exact fun i f hf hc => h.apart i f hf ((hagrees.owns_iff _).mp hc)
  · intro i f hf hflag a ha
    have ha := (hagrees.allows_iff a).mp ha
    by_cases hi : i = id
    · subst hi
      cases he.symm.trans hf
      exact hall a ha
    · refine h.passive i f hf ?_ a ha
      rw [← hflag, Store.flag, Store.flag]
      congr 1
      exact (Store.get?_set_of_ne _ (fun heq => hi (h.distinct i id f e hf he heq.symm)) _).symm

end Roster

namespace Network

/-! ### One run -/

variable [Tolerance] {r : Roster} {n n' : Network}

/-- What the run of a propagator comes to. -/
def Runs (r : Roster) (id : PropId) (c : Constraint) (m : Model) : Except Contradiction Unit × Model → Prop
  | (.ok (), m') => r.Shrinks m m' ∧ c.Decided m' ∧ (∀ a, c.Admits a → m.Allows a → m'.Allows a) ∧
      ∀ j d, j ≠ id → Constraint.Minded d j m → Constraint.Minded d j m'
  | (.error _, m') => r.Shrinks m m' ∧ ∀ a, c.Admits a → ¬m.Allows a

theorem runPasses_spec {m : Model} (h : r.Suits m) {id : PropId} {e : Member} (he : r id = some e) (full : Bool)
    (pending : List (Nat × EventMask)) :
    (runPasses e.constraint.propagator e.cell id full pending m).Quiet (Runs r id e.constraint m) := by
  have hpasses : passes e.constraint.propagator full pending = e.constraint.propagator.run := by
    rw [passes, Constraint.not_reacts, Bool.not_false, Bool.or_true, if_pos rfl]
  rw [runPasses, hpasses]
  refine .bind (.report rfl) fun _ _ => ?_
  have hfilter := Constraint.filter_spec { self := id, model := m } h.wellFormed (h.suits id e he) rfl
  refine Quiet.bind hfilter ?_
  rintro ⟨outcome, scene⟩ hends
  obtain ⟨self, m', passive⟩ := scene
  cases outcome with
  | error c =>
    obtain ⟨hn, hnone⟩ := hends
    exact .bind (.report rfl) fun _ _ => .pure ⟨.of_narrows h hn, hnone⟩
  | ok u =>
    obtain ⟨⟨-, hn, hkeeps⟩, hdecided⟩ := hends
    have hn : Model.Narrows (· = .propagator id) m m' := hn
    have hs : r.Shrinks m m' := .of_narrows h hn
    have hminded : ∀ j d, j ≠ id → Constraint.Minded d j m → Constraint.Minded d j m' := by
      intro j d hj hd
      refine hd.narrows hn ?_
      rintro cause rfl heq
      cases heq
      exact hj rfl
    cases passive with
    | false => exact .pure ⟨hs, hdecided.ground, hkeeps, hminded⟩
    | true =>
      obtain ⟨hs', hagrees⟩ := hs.suits.setCell he (hdecided.passive rfl)
      refine .bind (.report rfl) fun _ _ => .pure ⟨hs.trans hs', hagrees.decided hdecided.ground, ?_, ?_⟩
      · exact fun a ha hall => (hagrees.allows_iff a).mpr (hkeeps a ha hall)
      · intro j d hj hd
        exact (hminded j d hj hd).imp_left hagrees.decided

/-- Every constraint is on the agenda or minded. -/
def Attended (r : Roster) (n : Network) : Prop := ∀ id e, r id = some e → n.Scheduled id ∨ e.constraint.Minded id n.model

/-- What came of a network on which propagators ran. -/
structure Course (r : Roster) (n n' : Network) : Prop where
  wired : n'.Wired r
  shrinks : r.Shrinks n.model n'.model
  started : n'.started = n.started

/-- What the execution of a propagator comes to. -/
def Executes (r : Roster) (n : Network) : Except Contradiction Unit × Network → Prop
  | (.ok (), n') => Course r n n' ∧ n'.failed = false ∧ Attended r n' ∧ n'.effort < n.effort ∧
      ∀ a, r.Admits a → n.model.Allows a → n'.model.Allows a
  | (.error _, n') => Course r n n' ∧ ∀ a, r.Admits a → ¬n.model.Allows a

theorem onModel_quiet {α : Type} {f : Model → Activity (α × Model)} {R : α × Model → Prop} (n : Network)
    (h : (f n.model).Quiet R) :
    (n.onModel f).Quiet fun s => ∃ m', R (s.1, m') ∧ s.2 = { n with model := m' } :=
  Quiet.bind h fun s hs => .pure ⟨s.2, hs, rfl⟩

theorem execute_spec (h : n.Wired r) (hf : n.failed = false) (hs : r.Suits n.model) (ha : Attended r n)
    {id : PropId} {agenda : Agenda} (hnext : n.agenda.next? = some (id, agenda)) :
    ({ n with agenda }.execute id).Quiet (Executes r n) := by
  have hids := Agenda.ids_of_next? hnext
  obtain ⟨e, he⟩ := Option.ne_none_iff_exists'.mp (h.waiting id (hids ▸ List.mem_cons_self))
  obtain ⟨p, hp, hprop, hactive, hremoved⟩ := h.member id e he
  have hget := getElem?_posts_set hp
  have hkept : ∀ j ∈ n.agenda.ids, j ≠ id → j ∈ agenda.ids := by
    intro j hj hne
    rw [hids] at hj
    exact (List.mem_cons.mp hj).resolve_left hne
  have hnew : ∀ j ∈ agenda.ids, j ∈ n.agenda.ids := fun j hj => hids ▸ List.mem_cons_of_mem id hj
  simp only [execute, hp, hprop, hactive]
  refine Quiet.bind (onModel_quiet { n with agenda } (runPasses_spec hs he p.full p.pendingList)) ?_
  rintro ⟨outcome, _⟩ ⟨m', hruns, rfl⟩
  cases outcome with
  | error c =>
    obtain ⟨hshrinks, hnone⟩ := hruns
    refine .pure ⟨⟨?_, hshrinks, rfl⟩, fun a hall => hnone a (hall id e he)⟩
    exact h.update hp { p.clearPending with state := .failed, full := false, executions := p.executions + 1 } rfl rfl
      (by simp [hremoved]) (by simp) (by simp) hkept (fun j hj => .inl (hnew j hj)) (by simp) _ _ _ _
  | ok u =>
    obtain ⟨hshrinks, hdecided, hkeeps, hminded⟩ := hruns
    refine .pure ⟨⟨?_, hshrinks, rfl⟩, hf, ?_, effort_run hnext rfl rfl hshrinks.vars_eq hshrinks.spends,
      fun a hall => hkeeps a (hall id e he)⟩
    · exact h.update hp { p.clearPending with state := .idle, full := false, executions := p.executions + 1 } rfl rfl
        (by simp [hremoved]) (by simp) (by simp) hkept (fun j hj => .inl (hnew j hj)) (fun hf => ⟨hf, by simp⟩) _ _ _ _
    · intro j f hj
      by_cases hjid : j = id
      · subst hjid
        cases he.symm.trans hj
        exact .inr (.inl hdecided)
      · rcases ha j f hj with ⟨q, hq, hsch⟩ | hm
        · exact .inl ⟨q, by simp only [hget, if_neg hjid, hq], hsch⟩
        · exact .inr (hminded j _ hjid hm)

/-! ### Runs until none waits -/

theorem Course.trans {n'' : Network} (h1 : Course r n n') (h2 : Course r n' n'') : Course r n n'' :=
  ⟨h2.wired, h1.shrinks.trans h2.shrinks, h2.started.trans h1.started⟩

/-- Looking at the changes leaves the domains as they are, and nothing to look at. -/
theorem absorb_course (h : n.Wired r) (hs : r.Suits n.model) : Course r n n.absorb := by
  have hr := absorb_rouses h
  refine ⟨hr.wired, ?_, hr.started_eq⟩
  rw [hr.model_eq]
  refine ⟨rfl, .refl, hs.agrees ⟨rfl, hs.wellFormed.linked, Nat.le_refl _, fun _ _ => rfl⟩ fun _ _ _ => rfl,
    fun _ _ hv => hv, fun x => ?_⟩
  rw [show n.model.clearEvents.changes x = 0 from rfl, Nat.zero_add]
  exact Nat.le_add_left _ _

/-- Once the changes were looked at, each constraint is on the agenda or decided. -/
theorem absorb_attended (h : n.Wired r) (hf : n.failed = false) (hs : r.Suits n.model) (ha : Attended r n) :
    ∀ id e, r id = some e → n.absorb.Scheduled id ∨ e.constraint.Decided n.model := by
  intro id e he
  have hr := absorb_rouses h
  rcases ha id e he with hsch | hd | ⟨ev, hev, hstirs⟩
  · exact .inl (hr.scheduled id hsch)
  · exact .inr hd
  · cases hflag : n.model.store.flag e.cell with
    | true => exact .inl (scheduled_absorb h hf he hev hstirs hflag)
    | false => exact .inr fun _ => hs.passive id e he hflag

/-- What propagation comes to. -/
def Propagates (r : Roster) (n : Network) : Except Contradiction Unit × Network → Prop
  | (.ok (), n') => Course r n n' ∧ n'.failed = false ∧ r.Settles n'.model ∧ n'.model.events = #[] ∧
      ∀ a, r.Admits a → n.model.Allows a → n'.model.Allows a
  | (.error _, n') => Course r n n' ∧ ∀ a, r.Admits a → ¬n.model.Allows a

/-- A step before propagation that keeps all that is admitted. -/
theorem Propagates.after {s : Except Contradiction Unit × Network} (hc : Course r n n')
    (hkeeps : ∀ a, r.Admits a → n.model.Allows a → n'.model.Allows a) (h : Propagates r n' s) : Propagates r n s := by
  obtain ⟨outcome, n''⟩ := s
  cases outcome with
  | error c =>
    obtain ⟨hc', hnone⟩ := h
    exact ⟨hc.trans hc', fun a hall ha => hnone a hall (hkeeps a hall ha)⟩
  | ok u =>
    obtain ⟨hc', hf, hs, hev, hkeeps'⟩ := h
    exact ⟨hc.trans hc', hf, hs, hev, fun a hall ha => hkeeps' a hall (hkeeps a hall ha)⟩

theorem propagates_of_idle (h : n.Wired r) (hf : n.failed = false) (hs : r.Suits n.model)
    (ha : ∀ id e, r id = some e → n.Scheduled id ∨ e.constraint.Decided n.model) (hev : n.model.events = #[])
    (hidle : n.agenda.ids = []) : Propagates r n (.ok (), n) := by
  refine ⟨⟨h, .refl hs, rfl⟩, hf, ⟨hs, fun id e he => ?_⟩, hev, fun _ _ ha => ha⟩
  refine (ha id e he).resolve_left fun hsch => ?_
  have := h.queued id hsch
  rw [hidle] at this
  cases this

/-- **Propagators run until all constraints are decided**, or until one finds that they admit nothing. No more
of them run than there is effort for. -/
theorem drain_spec {fuel : Nat} (h : n.Wired r) (hf : n.failed = false) (hs : r.Suits n.model)
    (ha : ∀ id e, r id = some e → n.Scheduled id ∨ e.constraint.Decided n.model) (hev : n.model.events = #[])
    (hfuel : n.effort ≤ fuel) : (n.drain fuel).Quiet (Propagates r n) := by
  induction fuel generalizing n with
  | zero =>
    obtain ⟨hidle, hempty⟩ := isEmpty_of_effort hfuel
    rw [drain, if_pos hempty]
    exact .pure (propagates_of_idle h hf hs ha hev hidle)
  | succ fuel ih =>
    rw [drain]
    split
    · rename_i hnext
      exact .pure (propagates_of_idle h hf hs ha hev (Agenda.ids_of_next?_none hnext))
    · rename_i id agenda hnext
      have hattended : Attended r n := fun i e he => (ha i e he).imp_right .inl
      refine Quiet.bind (execute_spec h hf hs hattended hnext) ?_
      rintro ⟨outcome, n1⟩ hexec
      cases outcome with
      | error c => exact .pure hexec
      | ok u =>
        obtain ⟨hcourse, hf1, ha1, heffort, hkeeps⟩ := hexec
        have hs1 := hcourse.shrinks.suits
        have hr := absorb_rouses hcourse.wired
        have hc2 := absorb_course hcourse.wired hs1
        have hmodel := hr.model_eq
        have htracked : n1.Tracked := tracked_of_spends hev hcourse.shrinks.vars_eq hcourse.shrinks.spends
        have hfuel1 : n1.absorb.effort ≤ fuel := by
          have := absorb_effort htracked
          omega
        refine Quiet.mono (ih hr.wired (hr.failed_eq.trans hf1) hc2.shrinks.suits ?_ (by rw [hmodel]; rfl) hfuel1) ?_
        · intro i e he
          refine (absorb_attended hcourse.wired hf1 hs1 ha1 i e he).imp_right fun hd => ?_
          rw [hmodel]
          exact hd
        · intro s hp
          refine Propagates.after (hcourse.trans hc2) (fun a hall hallows => ?_) hp
          rw [hmodel]
          exact hkeeps a hall hallows

omit [Tolerance] in
theorem start_rouses (h : n.Wired r) : Rouses r { n with started := true } n.start := by
  rw [start]
  split
  · rename_i hst
    have : ({ n with started := true } : Network) = n := by rw [← hst]
    rw [this]
    exact .refl h
  · exact scheduleAll_rouses ⟨h.member, h.removed, h.watched, h.queued, h.waiting, h.owing, h.calm⟩

/-- **Propagation reaches a point at which all constraints are decided**, or finds that they admit nothing. -/
theorem propagate_spec (h : n.Wired r) (hst : n.started = true) (hf : n.failed = false) (hs : r.Suits n.model)
    (ha : Attended r n) : n.propagate.Quiet (Propagates r n) := by
  have hstart : n.start = n := by rw [start, if_pos hst]
  have hr := absorb_rouses h
  have hc := absorb_course h hs
  have hmodel := hr.model_eq
  have hevents : n.absorb.model.events = #[] := by rw [hmodel]; rfl
  simp only [propagate, hf, hstart, Bool.false_eq_true, if_false]
  refine Quiet.mono (drain_spec hr.wired (hr.failed_eq.trans hf) hc.shrinks.suits ?_ hevents (effort_le_budget hevents)) ?_
  · intro id e he
    refine (absorb_attended h hf hs ha id e he).imp_right fun hd => ?_
    rw [hmodel]
    exact hd
  · intro s hp
    refine Propagates.after hc (fun a _ hallows => ?_) hp
    rw [hmodel]
    exact hallows

end Network

end FiniteDomain
