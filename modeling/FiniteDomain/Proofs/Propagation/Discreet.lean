import FiniteDomain.Proofs.Activity
import FiniteDomain.Proofs.Constraint.Passes
import FiniteDomain.Proofs.Propagation.Roll

/-!
# Discreet propagators

The observers of a search are called by the search alone: a propagator is discreet if no run of it calls them, however
the run ends.

* `Constraint.discreet`, `Script.discreet`: the propagators at hand are discreet;
* `Network.Discreet`: networks of discreet propagators, on which no operation calls the observers.
-/

namespace FiniteDomain

open Activity

namespace Filter

/-- No run of the filter calls the observers. -/
def Discreet {α : Type} (f : Filter α) : Prop := ∀ s : Scene, @Quiet _ .lenient (f.run s) fun _ => True

end Filter

theorem Model.narrow_quiet (m : Model) (x : VarId) (μ : Mutation) (cause : Cause) :
    @Quiet _ .lenient (m.narrow x μ cause) fun _ => True := by
  let := Tolerance.lenient
  have hnotice : ∀ (name : String) r es notice, Notice.ofMutation? name cause r es = some notice → notice.moment? = none := by
    intro name r es notice h
    match r with
    | .error c => cases h; rfl
    | .ok false => cases h
    | .ok true =>
      obtain ⟨e, -, rfl⟩ := Option.map_eq_some_iff.mp h
      rfl
  refine .bind (.question (.lenient _)) fun r _ => .bind (.question (.lenient _)) fun name _ => ?_
  split
  · rename_i notice h
    exact .bind (.report (hnotice _ _ _ notice h)) fun _ _ => .pure trivial
  · exact .bind (R := fun _ => True) (.pure trivial) fun _ _ => .pure trivial

namespace Filter

namespace Discreet

variable {α β : Type}

theorem pure (x : α) : Discreet (Pure.pure x) := fun _ => @Quiet.pure _ .lenient _ _ trivial

theorem bind {f : Filter α} {g : α → Filter β} (hf : f.Discreet) (hg : ∀ x, (g x).Discreet) : (f >>= g).Discreet := by
  let := Tolerance.lenient
  intro s
  refine Quiet.bind (hf s) ?_
  rintro ⟨r, s'⟩ -
  cases r with
  | error c => exact .pure trivial
  | ok x => exact hg x s'

theorem map {f : Filter α} (g : α → β) (hf : f.Discreet) : (g <$> f).Discreet := by
  let := Tolerance.lenient
  intro s
  refine Quiet.bind (hf s) ?_
  rintro ⟨r, s'⟩ -
  cases r <;> exact .pure trivial

theorem throw (c : Contradiction) : Discreet (MonadExcept.throw c : Filter α) :=
  fun _ => @Quiet.pure _ .lenient _ _ trivial

/-- To end as an outcome says. -/
theorem ended (outcome : Except Contradiction Unit) :
    Discreet (match outcome with | .ok () => Pure.pure () | .error c => MonadExcept.throw c : Filter Unit) := by
  cases outcome with
  | ok u => exact .pure ()
  | error c => exact .throw c

theorem ask (question : Model → Except Fault α) : (Filter.ask question).Discreet := by
  let := Tolerance.lenient
  exact fun s => .bind (.question (.lenient _)) fun _ _ => .pure trivial

theorem self : Filter.self.Discreet := fun _ => @Quiet.pure _ .lenient _ _ trivial

theorem narrow (x : VarId) (μ : Mutation) : (Filter.narrow x μ).Discreet := by
  let := Tolerance.lenient
  rintro ⟨self, model, passive⟩
  exact .bind (model.narrow_quiet x μ _) fun _ _ => .pure trivial

theorem fail (conflict : Conflict) : Discreet (Filter.fail conflict : Filter α) :=
  fun _ => @Quiet.pure _ .lenient _ _ trivial

theorem abort (fault : Fault) : Discreet (Filter.abort fault : Filter α) :=
  fun _ => @Quiet.throw _ .lenient _ _ trivial

theorem setPassive : Filter.setPassive.Discreet := fun _ => @Quiet.pure _ .lenient _ _ trivial

theorem log (entry : FilterEntry) : (Filter.log entry).Discreet := by
  let := Tolerance.lenient
  exact fun s => .bind (.report rfl) fun _ _ => .pure trivial

theorem attempt {f : Filter α} (h : f.Discreet) : f.attempt.Discreet := by
  let := Tolerance.lenient
  exact fun s => .bind (h s) fun _ _ => .pure trivial

theorem forM {f : α → Filter PUnit} (h : ∀ x, (f x).Discreet) (l : List α) : (l.forM f).Discreet := by
  induction l with
  | nil => exact .pure _
  | cons x rest ih => exact (h x).bind fun _ => ih

end Discreet

variable {α : Type} {R : Model → Model → Prop} {l : List VarId}

/-- What may come of results that a filter never has does not matter. -/
theorem Discreet.sequel {β : Type} {f : Filter α} {g : α → Filter β} (hf : f.Discreet)
    (hg : ∀ x, f.Produces x → (g x).Discreet) : (f >>= g).Discreet := by
  let := Tolerance.lenient
  intro s
  have hproduces : (f.run s).Yields fun r => ∀ x, r.1 = .ok x → f.Produces x := by
    rintro before ⟨r, t⟩ after hrun x rfl
    exact ⟨s, t, before, after, hrun⟩
  refine Quiet.bind ((hf s).and hproduces) ?_
  rintro ⟨r, t⟩ ⟨-, hr⟩
  cases r with
  | error c => exact .pure trivial
  | ok x => exact hg x (hr x rfl) t

theorem Built.discreet {f : Filter α} (h : Built R l f) : f.Discreet := by
  induction h with
  | pure x => exact .pure x
  | ask _ => exact .ask _
  | narrow _ μ => exact .narrow _ μ
  | fail conflict => exact .fail conflict
  | abort fault => exact .abort fault
  | sequel _ _ ihf ihg => exact ihf.sequel ihg

theorem Concludes.discreet {f : Filter Unit} (h : Concludes R l f) : f.Discreet := by
  induction h with
  | built hf => exact hf.discreet
  | setPassive => exact .setPassive
  | sequel hf _ ihg => exact hf.discreet.sequel ihg

end Filter

open FiniteDomain.Filter

/-- No pass of the propagator calls the observers. -/
structure Propagator.Discreet (p : Propagator) : Prop where
  run : p.run.Discreet
  runOn : ∀ place mask, (p.runOn place mask).Discreet

/-- **The constraints at hand are discreet.** -/
theorem Constraint.discreet (c : Constraint) : c.propagator.Discreet := by
  have hrun := c.run_concludes.discreet
  refine ⟨hrun, fun _ _ => ?_⟩
  cases c <;> exact hrun

theorem Nogood.discreet (c : Nogood) : c.propagator.Discreet := (Constraint.nogood c).discreet

namespace Script

variable (s : Script)

theorem discreet_performAll (replies : Array Reply) (actions : List ScriptAction) :
    (performAll replies actions).Discreet := by
  induction actions generalizing replies with
  | nil => exact .pure _
  | cons a rest ih =>
    have hmet : a.isMet.Discreet := by
      rw [ScriptAction.isMet]
      split
      · exact .ask _
      · exact .pure true
    have hperform : a.perform.Discreet := by
      rw [ScriptAction.perform]
      split
      · exact .narrow _ _
      · exact .fail _
    refine .bind hmet fun met => ?_
    split
    · refine .bind (.attempt hperform) fun r => ?_
      cases r with
      | ok any => exact ih _
      | error c => exact .pure _
    · exact ih _

theorem discreet_filter (on : Option (Nat × EventMask)) : (s.filter on).Discreet := by
  refine .bind .self fun id => ?_
  dsimp only
  split <;> refine .bind ?_ fun look => .bind (discreet_performAll _ _) fun r => .bind (.log _) fun _ =>
    .bind (.ask _) fun settled => ?_
  case isTrue.refine_1 => exact .map _ (.ask _)
  case isFalse.refine_1 => exact .pure none
  all_goals
    split
    · exact .bind .setPassive fun _ => .ended _
    · exact .ended _

/-- **The scripted propagators are discreet.** -/
theorem discreet : s.propagator.Discreet := ⟨s.discreet_filter _, fun _ _ => s.discreet_filter _⟩

theorem discreet_witness (name : String) (scope : Array VarId) : (witness name scope).Discreet :=
  ⟨discreet_filter _ _, fun _ _ => discreet_filter _ _⟩

end Script

/-! ### Networks of discreet propagators -/

namespace Network

/-- All propagators are discreet. -/
def Discreet (n : Network) : Prop := ∀ e ∈ n.roll, e.propagator.Discreet

theorem passes_discreet {p : Propagator} (hp : p.Discreet) (full : Bool) (pending : List (Nat × EventMask)) :
    (passes p full pending).Discreet := by
  rw [passes]
  split
  · exact hp.run
  · exact .forM (fun e => hp.runOn e.1 e.2) pending

theorem runPasses_quiet {p : Propagator} (hp : p.Discreet) (active : Nat) (id : PropId) (full : Bool)
    (pending : List (Nat × EventMask)) (m : Model) :
    @Quiet _ .lenient (runPasses p active id full pending m) fun _ => True := by
  let := Tolerance.lenient
  refine .bind (.report rfl) fun _ _ => .bind (passes_discreet hp full pending _) ?_
  rintro ⟨outcome, self, m', passive⟩ -
  cases outcome with
  | error c => exact .bind (.report rfl) fun _ _ => .pure trivial
  | ok u =>
    dsimp only
    split
    · exact .bind (.report rfl) fun _ _ => .pure trivial
    · exact .pure trivial

namespace Discreet

variable {n n' : Network}

theorem of_roll (h : n.Discreet) (hroll : n'.roll = n.roll) : n'.Discreet := fun e he => h e (hroll ▸ he)

theorem start (h : n.Discreet) : n.start.Discreet := h.of_roll (roll_start n)

theorem scheduleAll (h : n.Discreet) : n.scheduleAll.Discreet := h.of_roll (roll_scheduleAll n)

theorem absorb (h : n.Discreet) : n.absorb.Discreet := h.of_roll (roll_absorb n)

theorem flush (h : n.Discreet) : n.flush.Discreet := h.of_roll (roll_flush n)

theorem mapModel (h : n.Discreet) (f : Model → Except Fault Model) :
    @Quiet _ .lenient (quietly (n.mapModel f)) fun n' => n'.Discreet ∧ ∃ m, f n.model = .ok m ∧ n' = { n with model := m } := by
  let := Tolerance.lenient
  refine .question ⟨fun n' hn => ?_, fun _ _ => trivial⟩
  obtain ⟨m, hm, hn⟩ := bind_eq_ok.mp hn
  cases hn
  exact ⟨h, m, hm, rfl⟩

/-- A post is set down again with the propagator that it had. -/
theorem setPost (h : n.Discreet) {i : Nat} {p q : Post} (hp : n.posts[i]? = some p) (hq : q.propagator = p.propagator) :
    ∀ e ∈ (n.posts.setIfInBounds i q).map Post.enrolment, e.propagator.Discreet := by
  intro e he
  obtain ⟨r, hr, rfl⟩ := Array.mem_map.mp he
  rcases Array.mem_or_eq_of_mem_setIfInBounds hr with hr | rfl
  · exact h _ (Array.mem_map_of_mem hr)
  · show r.propagator.Discreet
    rw [hq]
    exact h p.enrolment (Array.mem_map_of_mem (Array.mem_of_getElem? hp))

theorem execute (h : n.Discreet) (id : PropId) : @Quiet _ .lenient (n.execute id) fun s => s.2.Discreet := by
  let := Tolerance.lenient
  rw [Network.execute]
  split
  · exact .throw trivial
  · rename_i p hp
    have hpasses := runPasses_quiet (h _ (Array.mem_map_of_mem (Array.mem_of_getElem? hp))) p.active id p.full
      p.pendingList n.model
    refine .bind (.bind hpasses fun r _ => .pure (Q := fun s : Except Contradiction Unit × Network =>
      ∃ m, s.2 = { n with model := m }) ⟨r.2, rfl⟩) ?_
    rintro ⟨outcome, -⟩ ⟨m, rfl⟩
    cases outcome with
    | ok u => exact .pure (h.setPost hp rfl)
    | error c => exact .pure (h.setPost hp rfl)

theorem drain (h : n.Discreet) (fuel : Nat) : @Quiet _ .lenient (n.drain fuel) fun s => s.2.Discreet := by
  let := Tolerance.lenient
  induction fuel generalizing n with
  | zero =>
    rw [Network.drain]
    split
    · exact .pure h
    · exact .throw trivial
  | succ fuel ih =>
    rw [Network.drain]
    split
    · exact .pure h
    · rename_i id agenda _
      have h : Discreet { n with agenda } := h
      refine .bind (h.execute id) ?_
      rintro ⟨outcome, n'⟩ h'
      cases outcome with
      | error c => exact .pure h'
      | ok u => exact ih h'.absorb

/-- **Propagation** calls no observers. -/
theorem propagate (h : n.Discreet) : @Quiet _ .lenient n.propagate fun s => s.2.Discreet := by
  let := Tolerance.lenient
  rw [Network.propagate]
  split
  · exact .bind (R := fun _ => False) (.throw trivial) fun _ hc => hc.elim
  · exact h.start.absorb.drain _

/-! ### Steps of a search -/

theorem narrow (h : n.Discreet) (x : VarId) (μ : Mutation) (cause : Cause) :
    @Quiet _ .lenient (n.narrow x μ cause) fun s => s.2.Discreet := by
  let := Tolerance.lenient
  exact .bind (n.model.narrow_quiet x μ cause) fun r _ => .pure h

theorem improveAndPropagate (h : n.Discreet) (objective : Option Objective) (best : Option Int) (cause : Cause) :
    @Quiet _ .lenient (n.improveAndPropagate objective best cause) fun s => s.2.Discreet := by
  let := Tolerance.lenient
  have himprove : (n.improve objective best cause).Quiet fun s => s.2.Discreet := by
    cases objective with
    | none => exact .pure h
    | some o =>
      cases best with
      | none => exact .pure h
      | some b =>
        rw [Network.improve]
        split
        · exact .pure h
        · exact .bind (h.narrow _ _ cause) fun s hs => .pure hs
  refine .bind himprove ?_
  rintro ⟨outcome, n'⟩ h'
  cases outcome with
  | error c => exact .pure h'
  | ok u => exact h'.propagate

theorem takeNext (h : n.Discreet) (d : Decision) : @Quiet _ .lenient (n.takeNext d) fun s =>
    s.2.2.Discreet ∧ d.tried < 2 ∧ s.2.1 = { d with tried := d.tried + 1 } := by
  let := Tolerance.lenient
  have htake : (d.takeNext n.model).Quiet fun s => d.tried < 2 ∧ s.2.1 = { d with tried := d.tried + 1 } := by
    rw [Decision.takeNext]
    split
    · rename_i hnext
      exact .bind (.question (.lenient _)) fun μ _ => .bind (n.model.narrow_quiet _ μ .decision) fun r _ =>
        .pure ⟨of_decide_eq_true hnext, rfl⟩
    · exact .throw trivial
  rw [Network.takeNext]
  refine .bind (R := fun s => s.2.Discreet ∧ d.tried < 2 ∧ s.1.2 = { d with tried := d.tried + 1 }) ?_
    fun s hs => .pure hs
  refine .bind (R := fun r => d.tried < 2 ∧ r.1.2 = { d with tried := d.tried + 1 }) ?_ fun r hr => .pure ⟨h, hr⟩
  exact .bind htake fun s hs => .pure hs

/-! ### Posting -/

theorem post (h : n.Discreet) {p : Propagator} (hp : p.Discreet) :
    @Quiet _ .lenient (n.post p) fun s => s.2.Discreet := by
  let := Tolerance.lenient
  rw [Network.post]
  split
  · exact .throw trivial
  · refine .bind (.report rfl) fun _ _ => ?_
    have hpushed : ∀ q : Post, q.propagator = p → ∀ e ∈ (n.posts.push q).map Post.enrolment, e.propagator.Discreet := by
      intro q hq e he
      rw [Array.map_push] at he
      rcases Array.mem_push.mp he with he | rfl
      · exact h e he
      · show q.propagator.Discreet
        rw [hq]
        exact hp
    refine .pure ?_
    dsimp only
    split
    · refine of_roll ?_ (roll_scheduleFull _ _)
      exact hpushed _ rfl
    · exact hpushed _ rfl

end Discreet

/-- Removing calls no observers, whoever the propagators are. -/
theorem unpost_quiet (n : Network) (id : PropId) : @Quiet _ .lenient (n.unpost id) fun _ => True := by
  let := Tolerance.lenient
  rw [Network.unpost]
  split
  · exact .throw trivial
  · split
    · exact .bind (R := fun _ => False) (.throw trivial) fun _ hc => hc.elim
    · exact .bind (.report rfl) fun _ _ => .pure trivial

end Network

end FiniteDomain
