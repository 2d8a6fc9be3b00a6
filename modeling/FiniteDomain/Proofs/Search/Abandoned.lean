import FiniteDomain.Proofs.Propagation.Echo
import FiniteDomain.Proofs.Search.Traceless

/-!
# Abandoned branches

A branch is opened in a world of its own and propagated there, and when that ends in a contradiction the world is popped
and what was pending is let go. The domains are then as they were. Of the full passes that were due before, those that
were made in the branch count as made.

* `Network.Spends`: what becomes of the full passes that are due;
* `Founded.abandon`: the branch leaves the model as it was;
* `Attained.abandoned_branch`: unless one that owed a full pass ran in the branch, it might as well not have been opened.
-/

namespace FiniteDomain

open Activity

namespace Model

/-- The second model came about by mutations of domains, whoever caused them and however they ended. -/
inductive Mutates (m : Model) : Model → Prop
  | refl : Mutates m m
  | step {m' m'' : Model} {x : VarId} {μ : Mutation} {cause : Cause} {result : Except Contradiction Bool}
      (h : Mutates m m') (ha : m'.apply x μ cause = .ok (result, m'')) : Mutates m m''

theorem Mutates.rewrites {m m' : Model} (h : m.Mutates m') : m.Rewrites m.Owns m' := by
  induction h with
  | refl => exact .refl m
  | step _ ha ih => exact ih.trans ((apply_rewrites ha).mono fun c => (ih.owns_iff c).mp)

end Model

/-! ### Full passes that are due -/

/-- Either the propagator did not run and owes what it owed, or it ran and owes no full pass. -/
def Post.Spends (p p' : Post) : Prop :=
  p'.executions = p.executions ∧ p'.full = p.full ∨ p.executions < p'.executions ∧ p'.full = false

theorem Post.Spends.trans {p p' p'' : Post} (h : p.Spends p') (h' : p'.Spends p'') : p.Spends p'' := by
  rcases h with ⟨hsame, hfull⟩ | ⟨hlt, hfull⟩ <;> rcases h' with ⟨hsame', hfull'⟩ | ⟨hlt', hfull'⟩
  · exact .inl ⟨hsame'.trans hsame, hfull'.trans hfull⟩
  · exact .inr ⟨hsame ▸ hlt', hfull'⟩
  · exact .inr ⟨hsame' ▸ hlt, hfull'.trans hfull⟩
  · exact .inr ⟨Nat.lt_trans hlt hlt', hfull'⟩

namespace Network

variable {n n' n'' : Network} {m : Model}

/-- Those that ran owe no full pass, and the others owe what they owed. -/
structure Spends (n n' : Network) : Prop where
  started : n'.started = n.started
  post : ∀ (id : PropId) p, n.posts[id.index]? = some p → ∃ p', n'.posts[id.index]? = some p' ∧ p.Spends p'

namespace Spends

theorem of_posts (hs : n'.started = n.started) (h : n'.posts = n.posts) : n.Spends n' :=
  ⟨hs, fun _ p hp => ⟨p, by rw [h, hp], .inl ⟨rfl, rfl⟩⟩⟩

theorem trans (h : n.Spends n') (h' : n'.Spends n'') : n.Spends n'' := by
  refine ⟨h'.started.trans h.started, fun id p hp => ?_⟩
  obtain ⟨p', hp', hspends⟩ := h.post id p hp
  obtain ⟨p'', hp'', hspends'⟩ := h'.post id p' hp'
  exact ⟨p'', hp'', hspends.trans hspends'⟩

theorem of_set {id : PropId} {p q : Post} (hp : n.posts[id.index]? = some p) (hs : n'.started = n.started)
    (h : n'.posts = n.posts.setIfInBounds id.index q) (hq : p.Spends q) : n.Spends n' := by
  refine ⟨hs, fun j r hr => ?_⟩
  rw [h, getElem?_posts_set hp]
  by_cases hj : j = id
  · subst hj
    cases hp.symm.trans hr
    exact ⟨q, if_pos rfl, hq⟩
  · exact ⟨r, by rw [if_neg hj, hr], .inl ⟨rfl, rfl⟩⟩

theorem foldl {α : Type} {f : Network → α → Network} (hf : ∀ (n : Network) x, n.Spends (f n x)) (l : List α) (n : Network) :
    n.Spends (l.foldl f n) := by
  induction l generalizing n with
  | nil => exact .of_posts rfl rfl
  | cons x rest ih => exact (hf n x).trans (ih (f n x))

theorem notify (n : Network) (e : Event) (w : Watcher) : n.Spends (n.notify e w) := by
  have hrefl : n.Spends n := .of_posts rfl rfl
  rw [Network.notify]
  split
  · exact hrefl
  · split
    · exact hrefl
    · rename_i p hp
      split
      · rw [wake]
        split <;> exact .of_set hp rfl rfl (.inl ⟨rfl, rfl⟩)
      · exact hrefl

theorem absorb (n : Network) : n.Spends n.absorb := by
  rw [Network.absorb, ← Array.foldl_toList]
  have hcleared : n.Spends { n with model := n.model.clearEvents } := .of_posts rfl rfl
  refine hcleared.trans (foldl (fun n e => ?_) _ _)
  rw [distribute_eq]
  exact foldl (fun n w => notify n e w) _ n

theorem execute (n : Network) (agenda : Agenda) (id : PropId) :
    (Network.execute { n with agenda } id).Yields fun s => n.Spends s.2 := by
  rw [Network.execute]
  split
  · exact .throw
  · rename_i p hp
    refine .bind (onModel_yields _ _) ?_
    rintro ⟨outcome, _⟩ ⟨m, rfl⟩
    cases outcome with
    | ok u => exact .pure (.of_set hp rfl rfl (.inr ⟨Nat.lt_succ_self _, rfl⟩))
    | error c => exact .pure (.of_set hp rfl rfl (.inr ⟨Nat.lt_succ_self _, rfl⟩))

theorem drain (n : Network) (fuel : Nat) : (n.drain fuel).Yields fun s => n.Spends s.2 := by
  induction fuel generalizing n with
  | zero =>
    rw [Network.drain]
    split
    · exact .pure (.of_posts rfl rfl)
    · exact .throw
  | succ fuel ih =>
    rw [Network.drain]
    split
    · exact .pure (.of_posts rfl rfl)
    · refine .bind (execute n _ _) ?_
      rintro ⟨outcome, n'⟩ hn'
      cases outcome with
      | error c => exact .pure hn'
      | ok u => exact fun before s after hrun => (hn'.trans (absorb n')).trans (ih n'.absorb before s after hrun)

/-- **A propagation makes the full passes of those that it runs**, and takes none from the others. -/
theorem propagate (n : Network) : n.propagate.Yields fun s => n.start.Spends s.2 := by
  rw [Network.propagate]
  split
  · exact .bind (R := fun _ => False) .throw fun _ hc => hc.elim
  · exact fun before s after hrun => (absorb n.start).trans (drain _ _ before s after hrun)

theorem flush (n : Network) : n.Spends n.flush := by
  refine ⟨rfl, fun id p hp => ?_⟩
  have hposts : n.flush.posts = n.posts.map letGo := rfl
  obtain ⟨-, hexecutions, hfull, -⟩ := letGo_same p
  exact ⟨letGo p, by rw [hposts, Array.getElem?_map, hp]; rfl, .inl ⟨hexecutions, hfull⟩⟩

end Spends

/-! ### The branch -/

/-- **What is left of a branch**, whether its world is popped first or what was pending is let go first: the model that
was there before. -/
theorem Founded.abandon (h : n.Founded) (hevents : n.model.events = #[]) (hm : n.model.pushWorld.Mutates m)
    {before after : Array Notice} {outcome : Except Contradiction Unit}
    (hrun : propagate { n with model := m } before = .ok (outcome, n') after) :
    n'.flush.mapModel Model.popWorld = .ok { n'.flush with model := n.model } ∧
      Network.flush <$> n'.mapModel Model.popWorld = .ok { n'.flush with model := n.model } := by
  obtain ⟨-, hevolves⟩ := @Gives.yields _ .worldly _ _ (h.lawful.withModel m).propagate _ _ _ hrun
  have hpushed := hm.rewrites
  have hrewrites := (hpushed.mono (fun _ _ => True.intro)).trans (hevolves.model.mono (Q := fun _ => True) fun _ _ => True.intro)
  have hpop : n'.model.store.pop = .ok n.model.store := by
    rw [hrewrites.writes.pop_eq h.separate.linked.push (by rw [Model.pushWorld, Store.world_push]; omega)]
    exact h.separate.linked.pop_push
  have hmodel : { n'.model with store := n.model.store, events := #[] } = n.model := by
    rw [hrewrites.frame, ← hevents]
    rfl
  constructor
  · rw [mapModel_eq_ok (Model.popWorld_eq_ok (m := n'.flush.model) hpop)]
    exact congrArg (fun model => Except.ok { n'.flush with model }) hmodel
  · rw [mapModel_eq_ok (Model.popWorld_eq_ok hpop)]
    exact congrArg (fun model => Except.ok { n'.flush with model }) hmodel

/-! ### The next propagation -/

/-- Whenever one of two propagations comes to a result the other does, with the same outcome and the same domains. -/
def Concurs (n n' : Network) : Prop :=
  let same (r r' : Except Contradiction Unit × Network) : Prop :=
    r'.1 = r.1 ∧ ∀ x, r'.2.model.extent x = r.2.model.extent x ∧ ∀ v, r'.2.model.contains x v = r.2.model.contains x v
  Activity.Matches same n.propagate n'.propagate ∧ Activity.Matches same n'.propagate n.propagate

/-- In networks that rest the states of two posts with the same enrolment differ only where one of them owes a full
pass. -/
theorem Rested.state_eq (h : n.Rested) (h' : n'.Rested) {id : PropId} {p p' : Post} (hp : n.posts[id.index]? = some p)
    (hp' : n'.posts[id.index]? = some p') (henrolment : p'.enrolment = p.enrolment) (hfull : p'.full = p.full) :
    p'.state = p.state := by
  have hstate : ∀ {n : Network} {p : Post}, n.Rested → n.posts[id.index]? = some p →
      p.state = if p.enrolment.removed then .removed else if p.full then .scheduled else .idle := by
    intro n p h hp
    have hdue := (h.coherent.sound.fits id p hp).full
    have hrests := (h.rests p (Array.mem_of_getElem? hp)).due
    have hfailed := h.coherent.ne_failed h.failed hp
    cases hs : p.state <;> cases hfull : p.full <;> simp_all [Post.enrolment]
  rw [hstate h' hp', hstate h hp, henrolment, hfull]

/-- Networks in use that rest, with the same model and the same roll, of which the same owe a full pass, are propagated
in the same way. -/
theorem Rested.matches (h : n.Rested) (h' : n'.Rested) (hf : n.Founded) (hmodel : n'.model = n.model)
    (hevents : n.model.events = #[]) (hroll : n'.roll = n.roll)
    (hshipped : n.Shipped)
    (hfull : ∀ (id : PropId) p p', n.posts[id.index]? = some p → n'.posts[id.index]? = some p' → p'.full = p.full)
    (hstarted : n.started = true) (hstarted' : n'.started = true) (hline : n.agenda.InLine) (hline' : n'.agenda.InLine) :
    Activity.Matches (fun r r' => r'.1 = r.1 ∧
      ∀ x, r'.2.model.extent x = r.2.model.extent x ∧ ∀ v, r'.2.model.contains x v = r.2.model.contains x v)
      n.propagate n'.propagate := by
  have hsize : n'.posts.size = n.posts.size := size_eq_of_roll hroll
  let k : Residue := ⟨⟨n.model.store.slots.size, 0⟩, ⟨n.posts.size, 0⟩, n'.executions - n.executions, 0⟩
  have hexecutions : (n'.executions : Int) = n.executions + k.executions := by
    show (n'.executions : Int) = n.executions + (n'.executions - n.executions)
    omega
  have hsame : n.model.Echoes k n'.model := by
    rw [hmodel]
    exact ⟨rfl, .refl hf.separate.linked (Nat.le_refl _), by rw [hevents, Array.map_empty], hf.separate.housed⟩
  have hecho : n.Echoes k n' := by
    refine echoes_of_roll h.coherent h'.coherent hsame ?_ rfl (Nat.le_of_eq hsize.symm) (fun i _ => by rw [hroll]) ?_
      hf.housed hshipped ?_ hstarted hstarted' (h'.failed.trans h.failed.symm) hline hline' hexecutions
    · rw [hsize, Nat.sub_self]
    · intro i e hi he
      exact absurd hi (Nat.not_le_of_lt (hsize ▸ lt_of_roll he))
    · intro id p p' hp hp'
      obtain ⟨q, hq, henrolment⟩ := exists_of_roll (by rw [hroll]) hp
      cases hp'.symm.trans hq
      have hdue := hfull id p p' hp hp'
      exact ⟨h.state_eq h' hp hp' henrolment hdue, hdue⟩
  refine hecho.propagate.mono ?_
  rintro ⟨r, t⟩ ⟨r', t'⟩ ⟨heq, ht⟩
  refine ⟨heq.trans ?_, fun x => ⟨ht.model.extent_eq x, ht.model.contains_eq x⟩⟩
  cases r with
  | error c => exact congrArg Except.error (Contradiction.across_of_gap_eq_zero rfl c)
  | ok u => rfl

/-- **A branch that was abandoned.** It is opened on a network in use whose propagators are those of constraints, no
change of which is still to be looked at. Whichever comes first, popping its world or letting go, the same network is
left: the model is the one that was there before, and a propagator owes a full pass if it owed one before and did not
run in the branch. If none that owed one ran, and those that waited did so in the order of posting, the next propagation
has the outcome and the domains that it would have had without the branch. -/
theorem Attained.abandoned_branch {c : Contradiction} (h : n.Attained) (hshipped : n.Shipped) (hevents : n.model.events = #[])
    (hm : n.model.pushWorld.Mutates m) {before after : Array Notice}
    (hrun : Network.propagate { n with model := m } before = .ok (.error c, n') after) :
    ∃ n₂, n'.flush.mapModel Model.popWorld = .ok n₂ ∧ Network.flush <$> n'.mapModel Model.popWorld = .ok n₂ ∧
      n₂.model = n.model ∧ n₂.failed = false ∧
      (∀ (id : PropId) p, n.start.posts[id.index]? = some p → ∃ p₂, n₂.posts[id.index]? = some p₂ ∧
        p₂.propagator = p.propagator ∧ (p₂.full = true ↔ p.full = true ∧ p₂.executions = p.executions)) ∧
      ((∀ (id : PropId) p p₂, n.start.posts[id.index]? = some p → n₂.posts[id.index]? = some p₂ → p.full = true →
          p₂.executions = p.executions) → n.start.agenda.InLine → n.Concurs n₂) := by
  obtain ⟨hpop, hpop'⟩ := h.founded.abandon hevents hm hrun
  obtain ⟨hlawful, hevolves⟩ := @Gives.yields _ .worldly _ _ (h.founded.lawful.withModel m).propagate _ _ _ hrun
  have hf : n.failed = false := by
    rw [Network.propagate] at hrun
    split at hrun
    · cases hrun
    · rename_i hf
      exact Bool.eq_false_iff.mpr hf
  have hspends : n.start.Spends n'.flush := by
    refine Spends.trans ?_ (.flush n')
    have hpassed := Spends.propagate _ _ _ _ hrun
    rw [start_withModel] at hpassed
    exact ⟨hpassed.started, hpassed.post⟩
  have hroll : n'.flush.roll = n.start.roll := by
    rw [roll_flush, roll_start]
    exact hevolves.roll
  have hrested : n.start.Rested := (h.rested hf).start
  have hrested' : Rested { n'.flush with model := n.model } :=
    ⟨(hlawful.flush.withModel n.model).coherent, rfl, rests_flush hlawful.coherent⟩
  refine ⟨_, hpop, hpop', rfl, rfl, fun id p hp => ?_, fun hnone hline => ?_⟩
  · obtain ⟨p₂, hp₂, hspent⟩ := hspends.post id p hp
    have hentry : n'.flush.roll[id.index]? = n.start.roll[id.index]? := by rw [hroll]
    obtain ⟨q, hq, henrolment⟩ := exists_of_roll hentry hp
    cases hp₂.symm.trans hq
    refine ⟨p₂, hp₂, (Enrolment.mk.inj henrolment).1, ?_⟩
    rcases hspent with ⟨hsame, hfull⟩ | ⟨hlt, hfull⟩
    · rw [hfull]
      exact ⟨fun hdue => ⟨hdue, hsame⟩, And.left⟩
    · rw [hfull]
      exact ⟨by simp, fun hdue => absurd hdue.2 (Nat.ne_of_gt hlt)⟩
  · have hmodel := model_start n
    have hfull : ∀ (id : PropId) p p₂, n.start.posts[id.index]? = some p → n'.flush.posts[id.index]? = some p₂ →
        p₂.full = p.full := by
      intro id p p₂ hp hp₂
      obtain ⟨q, hq, hspent⟩ := hspends.post id p hp
      cases hp₂.symm.trans hq
      rcases hspent with ⟨-, hfull⟩ | ⟨hlt, hfull⟩
      · exact hfull
      · cases hdue : p.full with
        | false => exact hfull
        | true => exact absurd (hnone id p p₂ hp hp₂ hdue) (Nat.ne_of_gt hlt)
    have hline' := (queues_flush n').2
    have hfounded := h.start.founded
    have hstarted : n'.flush.started = true := hspends.started.trans (started_start n)
    have hshipped := hshipped.of_roll (roll_start n)
    have hshipped' : Shipped { n'.flush with model := n.model } := hshipped.of_roll hroll
    rw [Concurs, ← propagate_start]
    refine ⟨hrested.matches hrested' hfounded hmodel.symm (hmodel ▸ hevents) hroll hshipped hfull (started_start n)
      hstarted hline hline', hrested'.matches hrested ?_ hmodel hevents hroll.symm hshipped' ?_ hstarted
      (started_start n) hline' hline⟩
    · exact ⟨hlawful.flush.withModel n.model, h.founded.separate, fun e he => hmodel ▸ hfounded.housed e (hroll ▸ he)⟩
    · exact fun id p p' hp hp' => (hfull id p' p hp' hp).symm

/-- Two variables that may not add up to six, which was propagated, and a constraint that was posted after that. -/
def late? (c : Constraint) : Option Network := do
  let (x, m) ← (Model.newEnumerated { name := "late" } "x" 0 5).toOption
  let (y, m) ← (m.newEnumerated "y" 0 5).toOption
  let (_, n) ← (post { model := m } (Constraint.unequalSum ⟨x, y, 6, (true, true)⟩).propagator).outcome?
  let (_, n) ← n.propagate.outcome?
  let (_, n) ← (n.post c.propagator).outcome?
  return n

theorem late_attained {c : Constraint} (h : late? c = some n) : n.Attained ∧ n.Shipped := by
  simp only [late?, Option.bind_eq_bind, Option.bind_eq_some_iff, toOption_eq_some] at h
  obtain ⟨⟨x, m⟩, hx, ⟨y, m'⟩, hy, ⟨_, n1⟩, hpost, ⟨_, n2⟩, hrun, ⟨_, n3⟩, hlate, h⟩ := h
  cases h
  obtain ⟨_, hpost⟩ := outcome?_eq_some hpost
  obtain ⟨_, hrun⟩ := outcome?_eq_some hrun
  obtain ⟨_, hlate⟩ := outcome?_eq_some hlate
  have hmodel := ((Attained.new "late").edit (.newEnumerated hx)).edit (.newEnumerated hy)
  have hposted := hmodel.post (Constraint.lawful _) hpost
  have hpropagated := hposted.propagate hrun
  have hempty : Shipped { model := m' } := by simp [Shipped]
  have hshipped := hempty.post hmodel.founded.lawful _ _ _ _ hpost
  have hshipped := hshipped.propagate hposted.founded.lawful _ _ _ hrun
  exact ⟨hpropagated.post (Constraint.lawful _) hlate, hshipped.post hpropagated.founded.lawful c _ _ _ hlate⟩

/-- A branch in which both variables are fixed to three. -/
def threes? (n : Network) : Option Model := do
  let (_, m) ← (n.model.pushWorld.apply ⟨0⟩ (.assign 3) .decision).toOption
  let (_, m) ← (m.apply ⟨1⟩ (.assign 3) .decision).toOption
  return m

theorem mutates_of_threes (h : n.threes? = some m) : n.model.pushWorld.Mutates m := by
  simp only [threes?, Option.bind_eq_bind, Option.bind_eq_some_iff, toOption_eq_some] at h
  obtain ⟨⟨_, m1⟩, hx, ⟨_, m2⟩, hy, h⟩ := h
  cases h
  exact (Model.Mutates.refl.step hx).step hy

/-- For each post whether a full pass is due, and how often it ran. -/
def dues (n : Network) : List (Bool × Nat) := n.posts.toList.map fun p => (p.full, p.executions)

theorem getElem?_dues {id : PropId} {p : Post} (hp : n.posts[id.index]? = some p) :
    n.dues[id.index]? = some (p.full, p.executions) := by
  rw [dues, List.getElem?_map, Array.getElem?_toList, hp]
  rfl

/-- The sum fails before the constraint that was posted last has run, and that then makes its full pass. -/
theorem abandoned_branch_of_late : ∃ (n n' n₂ : Network) (m : Model) (c : Contradiction) (after : Array Notice),
    n.Attained ∧ n.Shipped ∧ n.model.events = #[] ∧ n.model.pushWorld.Mutates m ∧
      Network.propagate { n with model := m } #[] = .ok (.error c, n') after ∧
      n'.flush.mapModel Model.popWorld = .ok n₂ ∧ n.dues = [(false, 1), (true, 0)] ∧
      n₂.dues = [(false, 2), (true, 0)] ∧ n.Concurs n₂ := by
  have heval : (late? (.linear ⟨[⟨1, ⟨0⟩⟩], .le, 4⟩)).bind (fun n => n.threes?.bind fun m =>
      (Network.propagate { n with model := m }).outcome?.bind fun s =>
        (s.2.flush.mapModel Model.popWorld).toOption.map fun n₂ =>
          (s.1.toBool, [n.model.events.size, n.start.agenda.entries.length], [n.dues, n.start.dues, n₂.dues])) =
      some (false, [0, 1], [[(false, 1), (true, 0)], [(false, 1), (true, 0)], [(false, 2), (true, 0)]]) := by
    decide +kernel
  obtain ⟨n, hn, heval⟩ := Option.bind_eq_some_iff.mp heval
  obtain ⟨m, hm, heval⟩ := Option.bind_eq_some_iff.mp heval
  obtain ⟨⟨outcome, n'⟩, hrun, heval⟩ := Option.bind_eq_some_iff.mp heval
  obtain ⟨n₂, hpop, heval⟩ := Option.map_eq_some_iff.mp heval
  obtain ⟨after, hrun⟩ := outcome?_eq_some hrun
  simp only [Prod.mk.injEq, List.cons.injEq, and_true, toOption_eq_some] at heval hpop
  obtain ⟨houtcome, ⟨hevents, hlength⟩, hdues, hstart, hafter⟩ := heval
  obtain ⟨hattained, hshipped⟩ := late_attained hn
  have hevents : n.model.events = #[] := Array.eq_empty_of_size_eq_zero hevents
  have hmutates := mutates_of_threes hm
  cases outcome with
  | ok u => cases houtcome
  | error c =>
    obtain ⟨n₃, hpop', -, -, -, -, hneutral⟩ := hattained.abandoned_branch hshipped hevents hmutates hrun
    cases hpop.symm.trans hpop'
    refine ⟨n, n', n₂, m, c, after, hattained, hshipped, hevents, hmutates, hrun, hpop, hdues, hafter,
      hneutral (fun id p p₂ hp hp₂ hdue => ?_) (.of_length_le (Nat.le_of_eq hlength))⟩
    have hp := getElem?_dues hp
    have hp₂ := getElem?_dues hp₂
    rw [hstart] at hp
    rw [hafter] at hp₂
    match id with
    | ⟨0⟩ | ⟨1⟩ | ⟨i + 2⟩ => simp_all

/-- The constraint that was posted last fails in the branch. Its full pass is lost: without the branch it would have
removed a value. -/
theorem pass_lost_of_late : ∃ (n n' n₂ : Network) (m : Model) (c : Contradiction) (after : Array Notice),
    n.Attained ∧ n.Shipped ∧ n.model.events = #[] ∧ n.model.pushWorld.Mutates m ∧
      Network.propagate { n with model := m } #[] = .ok (.error c, n') after ∧
      n'.flush.mapModel Model.popWorld = .ok n₂ ∧ n.dues = [(false, 1), (true, 0)] ∧
      n₂.dues = [(false, 1), (false, 1)] ∧ ¬n.Concurs n₂ := by
  have heval : (late? (.unequal ⟨⟨0⟩, 3⟩)).bind (fun n => n.threes?.bind fun m =>
      (Network.propagate { n with model := m }).outcome?.bind fun s =>
        (s.2.flush.mapModel Model.popWorld).toOption.bind fun n₂ =>
          n.propagate.outcome?.bind fun t => n₂.propagate.outcome?.map fun t₂ =>
            ([n.model.events.isEmpty, s.1.toBool], [n.dues, n₂.dues],
              [t, t₂].map fun t => (t.2.model.contains ⟨0⟩ 3).toOption)) =
      some ([true, false], [[(false, 1), (true, 0)], [(false, 1), (false, 1)]], [some false, some true]) := by
    decide +kernel
  obtain ⟨n, hn, heval⟩ := Option.bind_eq_some_iff.mp heval
  obtain ⟨m, hm, heval⟩ := Option.bind_eq_some_iff.mp heval
  obtain ⟨⟨outcome, n'⟩, hrun, heval⟩ := Option.bind_eq_some_iff.mp heval
  obtain ⟨n₂, hpop, heval⟩ := Option.bind_eq_some_iff.mp heval
  obtain ⟨⟨r, t⟩, hnext, heval⟩ := Option.bind_eq_some_iff.mp heval
  obtain ⟨⟨r₂, t₂⟩, hnext₂, heval⟩ := Option.map_eq_some_iff.mp heval
  obtain ⟨after, hrun⟩ := outcome?_eq_some hrun
  obtain ⟨_, hnext⟩ := outcome?_eq_some hnext
  obtain ⟨_, hnext₂⟩ := outcome?_eq_some hnext₂
  simp only [Prod.mk.injEq, List.map_cons, List.map_nil, List.cons.injEq, and_true, toOption_eq_some] at heval hpop
  obtain ⟨⟨hevents, houtcome⟩, ⟨hdues, hafter⟩, hremoved, hkept⟩ := heval
  obtain ⟨hattained, hshipped⟩ := late_attained hn
  cases outcome with
  | ok u => cases houtcome
  | error c =>
    refine ⟨n, n', n₂, m, c, after, hattained, hshipped, Array.isEmpty_iff.mp hevents, mutates_of_threes hm,
      hrun, hpop, hdues, hafter, fun hconcurs => ?_⟩
    obtain ⟨_, _, hsame, -, hdomains⟩ := hconcurs.1 _ _ _ hnext #[]
    cases hnext₂.symm.trans hsame
    have hcontains := (hdomains ⟨0⟩).2 3
    rw [hremoved, hkept] at hcontains
    cases hcontains

end Network

end FiniteDomain
