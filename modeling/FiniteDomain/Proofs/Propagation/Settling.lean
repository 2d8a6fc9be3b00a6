import FiniteDomain.Proofs.Constraint.Still
import FiniteDomain.Proofs.Propagation.Roll
import FiniteDomain.Proofs.Propagation.Waking

/-!
# Where a propagation settles

While a network propagates, everyone who is awake is called for or has nothing to do: an execution leaves its own
constraint still, and of the changes that it makes the others hear what matters to them. At the end nobody is called
for, and so all constraints are still.

* `Treats`: what an execution does to a model;
* `Heeds`: what holds all along, and `Unfolds.heeds`, that it does;
* `Balanced`: what holds between two propagations;
* `Balanced.propagate`: a whole propagation leaves all constraints still.
-/

namespace FiniteDomain

open Activity

/-! ### Rosters and models -/

/-- All constraints of the roster fit the model, and each has a cell to itself. -/
structure Roster.Seats (r : Roster) (m : Model) : Prop where
  wellFormed : m.WellFormed
  seated : ∀ id e, r id = some e → e.constraint.Seated m
  apart : ∀ id e, r id = some e → ¬m.Owns e.cell
  distinct : ∀ i j e f, r i = some e → r j = some f → e.cell = f.cell → i = j

theorem Roster.Seats.within {r : Roster} {m m' : Model} (h : r.Seats m) (hn : m.Within m') : r.Seats m' := by
  refine ⟨hn.wellFormed, fun id e he => (h.seated id e he).within hn, fun id e he => ?_, h.distinct⟩
  rw [Model.Owns, hn.vars]
  exact h.apart id e he

/-- Narrowings leave all flags alone that are not in cells of domains. -/
theorem Model.Chain.flag_eq {cause : Cause} {m m' : Model} (h : Chain cause m m') {cell : Nat} (hc : ¬m.Owns cell) :
    m'.store.flag cell = m.store.flag cell := by
  rw [Store.flag, Store.flag, h.rewrites.writes.get?_eq hc]

/-- At some time the constraint was still, and all that happened since is left to look at. -/
def Constraint.Bides (c : Constraint) (m : Model) : Prop :=
  ∃ m₀ : Model, m₀.WellFormed ∧ c.Seated m₀ ∧ c.Still m₀ ∧ m₀.Recounts m.events.toList m ∧
    ∀ ev ∈ m.events.toList, ∀ id, ev.cause ≠ .propagator id

namespace Network

variable {r : Roster} {n n' : Network} {id : PropId} {e : Member} {m m' : Model} {past : Past}

/-- The posts that were not removed are the members of the roster. -/
structure Enrols (r : Roster) (n : Network) : Prop where
  member : ∀ id e, r id = some e → n.roll[id.index]? = some ⟨e.constraint.propagator, e.cell, false⟩
  removed : ∀ (id : PropId) q, r id = none → n.roll[id.index]? = some q → q.removed = true

theorem Wired.enrols (h : n.Wired r) : n.Enrols r := by
  refine ⟨fun id e he => ?_, fun id q hid hq => ?_⟩
  · obtain ⟨p, hp, hpropagator, hactive, hlive⟩ := h.member id e he
    rw [getElem?_roll, hp, Option.map_some, Post.enrolment, hpropagator, hactive, decide_eq_false hlive]
  · rw [getElem?_roll] at hq
    obtain ⟨p, hp, rfl⟩ := Option.map_eq_some_iff.mp hq
    exact decide_eq_true (h.removed id p hid hp)

namespace Enrols

theorem of_roll (h : n.Enrols r) (hroll : n'.roll = n.roll) : n'.Enrols r := by
  refine ⟨?_, ?_⟩ <;> rw [hroll]
  · exact h.member
  · exact h.removed

theorem exists_post (h : n.Enrols r) (he : r id = some e) : ∃ p, n.posts[id.index]? = some p ∧
    p.propagator = e.constraint.propagator ∧ p.active = e.cell ∧ p.state ≠ .removed := by
  have hroll := h.member id e he
  rw [getElem?_roll] at hroll
  obtain ⟨p, hp, heq⟩ := Option.map_eq_some_iff.mp hroll
  simp only [Post.enrolment, Enrolment.mk.injEq, decide_eq_false_iff_not] at heq
  exact ⟨p, hp, heq⟩

/-- Whoever was posted and not removed is on the roster. -/
theorem exists_member (h : n.Enrols r) {p : Post} (hp : n.posts[id.index]? = some p) (hlive : p.state ≠ .removed) :
    ∃ e, r id = some e ∧ p.propagator = e.constraint.propagator ∧ p.active = e.cell := by
  cases he : r id with
  | none =>
    have hremoved := h.removed id p.enrolment he (by rw [getElem?_roll, hp]; rfl)
    exact absurd (of_decide_eq_true hremoved) hlive
  | some e =>
    obtain ⟨q, hq, hpropagator, hactive, -⟩ := h.exists_post he
    cases hp.symm.trans hq
    exact ⟨e, rfl, hpropagator, hactive⟩

end Enrols

/-! ### One execution -/

/-- The propagator of a constraint does not ask what it is called for. -/
theorem Works.run_eq {c : Constraint} {full : Bool} {calls : List (Nat × EventMask)} {s s' : Scene}
    {outcome : Except Contradiction Unit} {before after : Array Notice}
    (h : Works c.propagator full calls s before outcome s' after) :
    c.propagator.run.run s before = .ok (outcome, s') after := by
  cases h with
  | whole _ hrun => exact hrun
  | places _ hreacts =>
    rw [c.not_reacts] at hreacts
    cases hreacts

/-- What the execution of a member of the roster does to a model without events. -/
structure Treats (r : Roster) (id : PropId) (m m' : Model) : Prop where
  causes : ∀ ev ∈ m'.events.toList, ev.cause = .propagator id
  recounts : m.Recounts m'.events.toList m'
  flags : ∀ j f, r j = some f → j ≠ id → m'.store.flag f.cell = m.store.flag f.cell
  still : ∀ e, r id = some e → m'.store.flag e.cell = true → e.constraint.Still m'

theorem Performs.treats (hseats : r.Seats m) (he : r id = some e) {p : Post}
    (hpropagator : p.propagator = e.constraint.propagator) (hactive : p.active = e.cell) (hevents : m.events = #[])
    {full : Bool} {calls : List (Nat × EventMask)} {before after : Array Notice}
    (h : Performs p id full calls m before (.ok ()) m' after) : Treats r id m m' := by
  -- what a run does that came to its end
  have hworks : ∀ {s notices}, Works p.propagator full calls { self := id, model := m }
      (before.push (.executing p.propagator.name id full)) (.ok ()) s notices →
      (∀ ev ∈ s.model.events.toList, ev.cause = .propagator id) ∧ m.Recounts s.model.events.toList s.model ∧
        (∀ j f, r j = some f → s.model.store.flag f.cell = m.store.flag f.cell) ∧
        (s.passive = false → e.constraint.Still s.model) := by
    intro s notices hworks
    rw [hpropagator] at hworks
    have hrun := hworks.run_eq
    obtain ⟨-, hchain⟩ := @Gives.yields _ .worldly _ _ (e.constraint.lawful.run _) _ _ _ hrun
    obtain ⟨told, htold, hcauses, hrecounts⟩ := hchain.recounts hseats.wellFormed
    obtain rfl : s.model.events.toList = told := by simpa [hevents] using htold
    exact ⟨hcauses, hrecounts, fun j f hf => hchain.flag_eq (hseats.apart j f hf),
      e.constraint.run_stills hseats.wellFormed (hseats.seated id e he) hrun⟩
  cases h with
  | kept hw hawake =>
    obtain ⟨hcauses, hrecounts, hflags, hstill⟩ := hworks hw
    refine ⟨hcauses, hrecounts, fun j f hf _ => hflags j f hf, fun e' he' _ => ?_⟩
    cases he.symm.trans he'
    exact hstill hawake
  | slept hw hasleep =>
    obtain ⟨hcauses, hrecounts, hflags, -⟩ := hworks hw
    have hseats' := hseats.within hrecounts.toWithin
    have hagrees := Model.Agrees.setCell hrecounts.wellFormed (hactive ▸ hseats'.apart id e he) (.bool false)
    refine ⟨hcauses, ?_, fun j f hf hj => ?_, fun e' he' hflag => ?_⟩
    · have := hrecounts.trans (.of_agrees hrecounts.wellFormed hagrees)
      rwa [List.append_nil] at this
    · rw [← hflags j f hf]
      show (Store.set _ _ _).flag _ = _
      rw [Store.flag, Store.flag, Store.get?_set_of_ne]
      intro heq
      exact hj (hseats.distinct j id f e hf he (heq.symm.trans hactive))
    · cases he.symm.trans he'
      rw [← hactive] at hflag
      exact absurd hflag (Bool.eq_false_iff.mp (Store.flag_set_false _ _))

/-! ### Who has something to do -/

theorem called_noteAll : n.Called id (noteAll m past) ↔
    n.Called id past ∨ ∃ ev ∈ m.events.toList, ∃ place, n.hears id place ev m.clearEvents = true := by
  have haux : ∀ (l : List Event) past, n.Called id (l.foldl (fun past ev => .noted ev m.clearEvents :: past) past) ↔
      n.Called id past ∨ ∃ ev ∈ l, ∃ place, n.hears id place ev m.clearEvents = true := by
    intro l
    induction l with
    | nil => simp
    | cons ev rest ih =>
      intro past
      rw [List.foldl_cons, ih, called_noted, or_assoc]
      simp
  exact haux _ _

/-- Whoever is awake is called for or has nothing to do. -/
def Heeds (n : Network) (r : Roster) (past : Past) (m : Model) : Prop :=
  ∀ id e, r id = some e → m.store.flag e.cell = true → n.Called id past ∨ e.constraint.Still m

/-- A constraint that was still is so after changes by others, or its propagator is called for. -/
theorem called_or_still (h : n.Enrols r) (he : r id = some e) (hw : m.WellFormed) (hs : e.constraint.Seated m)
    (hstill : e.constraint.Still m) (hr : m.Recounts m'.events.toList m')
    (hcause : ∀ ev ∈ m'.events.toList, ev.cause ≠ .propagator id) (hflag : m'.store.flag e.cell = true)
    (past : Past) : n.Called id (noteAll m' past) ∨ e.constraint.Still m'.clearEvents := by
  by_cases hheard : ∃ ev ∈ m'.events.toList, ∃ place, n.hears id place ev m'.clearEvents = true
  · exact .inl (called_noteAll.mpr (.inr hheard))
  · obtain ⟨p, hp, hpropagator, hactive, hlive⟩ := h.exists_post he
    have hstill' : e.constraint.Still m' := by
      refine hstill.unheard hw hs hr fun place x hx ev hev hvar => Bool.eq_false_iff.mpr fun hmask => hheard ?_
      refine ⟨ev, hev, place, hears_iff.mpr ⟨p, hp, hlive, ?_, ?_, hcause ev hev, ?_⟩⟩
      · rw [hpropagator, hx, hvar]
      · rw [hpropagator]
        exact hmask
      · rw [hactive]
        exact hflag
    exact .inr (hstill'.agrees hr.wellFormed (hs.within hr.toWithin) (.clearEvents hr.wellFormed))

/-- **All along a propagation everyone heeds what happens.** -/
theorem Unfolds.heeds (henrols : n.Enrols r) (hseats : r.Seats n.model)
    (hbegin : n.Heeds r (noteAll n.model []) n.model.clearEvents) {before after : Array Notice}
    (h : Unfolds n before past m after) : r.Seats m ∧ m.events = #[] ∧ n.Heeds r past m := by
  have hclear : ∀ {m : Model}, r.Seats m → r.Seats m.clearEvents := fun h =>
    h.within (Model.Recounts.of_agrees h.wellFormed (.clearEvents h.wellFormed)).toWithin
  induction h with
  | begin => exact ⟨hclear hseats, rfl, hbegin⟩
  | @run past m m' middle after id p _ hnext hperforms ih =>
    obtain ⟨hseats, hevents, hheeds⟩ := ih
    obtain ⟨e, he, hpropagator, hactive⟩ := henrols.exists_member hnext.post hnext.live
    have htreats := hperforms.treats hseats he hpropagator hactive hevents
    have hseats' := hseats.within htreats.recounts.toWithin
    refine ⟨hclear hseats', rfl, fun j f hf hflag => ?_⟩
    have hflag : m'.store.flag f.cell = true := hflag
    by_cases hj : j = id
    · subst hj
      have hstill := htreats.still f hf hflag
      exact .inr (hstill.agrees hseats'.wellFormed (hseats'.seated j f hf) (.clearEvents hseats'.wellFormed))
    · rcases hheeds j f hf (htreats.flags j f hf hj ▸ hflag) with hcalled | hstill
      · exact .inl (called_noteAll.mpr (.inl (called_executed.mpr ⟨hj, hcalled⟩)))
      · refine called_or_still henrols hf hseats.wellFormed (hseats.seated j f hf) hstill htreats.recounts ?_ hflag _
        intro ev hev hcause
        rw [htreats.causes ev hev, Cause.propagator.injEq] at hcause
        exact hj hcause.symm

/-! ### When a propagation begins -/

theorem Owed.scheduleFull (h : n.Owed id) (i : PropId) : (n.scheduleFull i).Owed id := by
  obtain ⟨p, hp, hfull, hlive⟩ := h
  by_cases hid : id = i
  · subst hid
    exact owed_scheduleFull hp hlive
  · rw [Network.scheduleFull]
    split
    · exact ⟨p, hp, hfull, hlive⟩
    · rename_i q hq
      split
      · exact ⟨p, hp, hfull, hlive⟩
      · rw [wake]
        split <;> exact ⟨p, by simp only [getElem?_posts_set hq, if_neg hid, hp], hfull, hlive⟩

/-- When propagation begins for the first time a full pass of everyone is due. -/
theorem Enrols.called_start (h : n.Enrols r) (he : r id = some e) (hst : n.started = false) :
    n.start.Called id [] := by
  have howed : ∀ (l : List Nat) (n : Network), n.Enrols r → id.index ∈ l →
      (l.foldl (fun n i => n.scheduleFull ⟨i⟩) n).Owed id := by
    intro l n h hmem
    obtain ⟨before, behind, rfl⟩ := List.append_of_mem hmem
    rw [List.foldl_append, List.foldl_cons]
    obtain ⟨p, hp, -, -, hlive⟩ :=
      (h.of_roll (roll_foldl (fun n i => roll_scheduleFull n ⟨i⟩) before n)).exists_post he
    exact List.foldlRecOn (motive := fun n : Network => n.Owed id) behind _ (owed_scheduleFull hp hlive)
      fun n h i _ => h.scheduleFull ⟨i⟩
  obtain ⟨p, hp, -⟩ := h.exists_post he
  obtain ⟨q, hq, hfull, -⟩ : n.start.Owed id := by
    rw [Network.start, hst]
    exact howed _ { n with started := true } (h.of_roll rfl)
      (List.mem_range.mpr (Array.getElem?_eq_some_iff.mp hp).1)
  refine .inl ?_
  rw [owes, hq]
  exact hfull

/-! ### From one propagation to the next -/

/-- The constraints of the roster are all that is posted, and whoever is awake was still at some time and has all
that happened since before it. -/
structure Balanced (r : Roster) (n : Network) : Prop where
  reachable : n.Reachable
  lawful : n.Lawful
  enrols : n.Enrols r
  seats : r.Seats n.model
  bides : n.started = true → ∀ id e, r id = some e → n.model.store.flag e.cell = true → e.constraint.Bides n.model

namespace Balanced

variable (h : n.Balanced r) {before after : Array Notice}

include h

/-- **A propagation without a contradiction leaves every constraint still** whose propagator is awake. -/
theorem propagate (hrun : n.propagate before = .ok (.ok (), n') after) :
    n'.Balanced r ∧ ∀ id e, r id = some e → n'.model.store.flag e.cell = true → e.constraint.Still n'.model := by
  obtain ⟨past, hcloses, -⟩ := (h.reachable.rested_of_propagate hrun).closes hrun
  have henrols : n.start.Enrols r := h.enrols.of_roll (roll_start n)
  have hmodel : n.start.model = n.model := by
    rw [Network.start]
    split
    · rfl
    · rw [scheduleAll_reschedules]
  have hbegin : n.start.Heeds r (noteAll n.start.model []) n.start.model.clearEvents := by
    rw [hmodel]
    intro id e he hflag
    cases hst : n.started with
    | false => exact .inl (called_noteAll.mpr (.inl (h.enrols.called_start he hst)))
    | true =>
      obtain ⟨m₀, hw, hs, hstill, hr, hcause⟩ := h.bides hst id e he hflag
      exact called_or_still henrols he hw hs hstill hr (fun ev hev => hcause ev hev id) hflag []
  cases hcloses with
  | settled hunfolds _ hnone =>
    obtain ⟨hseats, hevents, hheeds⟩ := hunfolds.heeds henrols (hmodel ▸ h.seats) hbegin
    have hstill : ∀ id e, r id = some e → n'.model.store.flag e.cell = true → e.constraint.Still n'.model :=
      fun id e he hflag => (hheeds id e he hflag).resolve_left (hnone id)
    obtain ⟨hlawful, hevolves⟩ := @Gives.yields _ .worldly _ _ h.lawful.propagate _ _ _ hrun
    refine ⟨⟨h.reachable.propagate hrun, hlawful, h.enrols.of_roll hevolves.roll, hseats, ?_⟩, hstill⟩
    intro _ id e he hflag
    refine ⟨n'.model, hseats.wellFormed, hseats.seated id e he, hstill id e he hflag, ?_, ?_⟩
    · rw [hevents]
      exact .refl hseats.wellFormed
    · simp [hevents]

/-- A narrowing that is none of a propagator leaves events behind. -/
theorem narrow {x : VarId} {μ : Mutation} {cause : Cause} (hcause : ∀ id, cause ≠ .propagator id)
    {outcome : Except Contradiction Bool} (hrun : n.narrow x μ cause before = .ok (outcome, n') after) :
    n'.Balanced r := by
  obtain ⟨m, hmodel, rfl⟩ := onModel_eq_ok hrun
  have happly : n.model.apply x μ cause = .ok (outcome, m) :=
    @Gives.yields _ .worldly _ _ (n.model.narrow_gives x μ cause) _ _ _ hmodel
  obtain ⟨told, htold, hcauses, hr⟩ := Model.apply_recounts h.seats.wellFormed happly
  refine ⟨h.reachable.change m, h.lawful.withModel m, h.enrols.of_roll rfl, h.seats.within hr.toWithin, ?_⟩
  intro hst id e he hflag
  have hflag : n.model.store.flag e.cell = true := by
    rw [← (Model.Chain.one happly).flag_eq (h.seats.apart id e he)]
    exact hflag
  obtain ⟨m₀, hw, hs, hstill, hr₀, hcause₀⟩ := h.bides hst id e he hflag
  refine ⟨m₀, hw, hs, hstill, ?_, ?_⟩
  · rw [htold]
    exact hr₀.trans hr
  · rw [htold]
    exact List.forall_mem_append.mpr ⟨hcause₀, fun ev hev i hi => hcause i ((hcauses ev hev).symm.trans hi)⟩

end Balanced

end Network

end FiniteDomain
