import FiniteDomain.Proofs.Propagation.Lawful
import FiniteDomain.Proofs.Propagation.Scheduling
import FiniteDomain.Search.Step

/-!
# The roll of a network

What is kept of the posts of a network for good is its roll. Scheduling, propagating and letting go never change
it, and if the propagators are lawful they write no cells but those of the domains and those on the roll; posting
and removing change one entry.

* `Evolves`: what is said of an operation;
* `Lawful.propagate`, `Lawful.takeNext`, `Lawful.post`, `Lawful.unpost`: the operations on networks of lawful
  propagators.
-/

namespace FiniteDomain

open Activity

/-- What is kept of a post for good. -/
structure Enrolment where
  propagator : Propagator
  active : Nat
  removed : Bool

def Post.enrolment (p : Post) : Enrolment := ⟨p.propagator, p.active, decide (p.state = .removed)⟩

namespace Network

/-- The posts as they were entered, and whether they were removed. -/
def roll (n : Network) : Array Enrolment := n.posts.map Post.enrolment

variable {n n' n'' : Network}

theorem getElem?_roll (n : Network) (i : Nat) : n.roll[i]? = n.posts[i]?.map Post.enrolment := Array.getElem?_map ..

@[simp] theorem size_roll (n : Network) : n.roll.size = n.posts.size := Array.size_map ..

theorem size_eq_of_roll (h : n'.roll = n.roll) : n'.posts.size = n.posts.size := by rw [← size_roll, h, size_roll]

theorem lt_of_roll {i : Nat} {e : Enrolment} (he : n.roll[i]? = some e) : i < n.posts.size :=
  size_roll n ▸ (Array.getElem?_eq_some_iff.mp he).1

theorem getElem?_roll_of {i : Nat} {p : Post} (hp : n.posts[i]? = some p) : n.roll[i]? = some p.enrolment := by
  rw [getElem?_roll, hp, Option.map_some]

/-- A post with the same entry on the roll. -/
theorem exists_of_roll {i : Nat} {p : Post} (h : n'.roll[i]? = n.roll[i]?) (hp : n.posts[i]? = some p) :
    ∃ p', n'.posts[i]? = some p' ∧ p'.enrolment = p.enrolment := by
  rw [getElem?_roll, getElem?_roll_of hp] at h
  exact Option.map_eq_some_iff.mp h

/-! ### What leaves the roll alone -/

theorem enrolment_set {id : PropId} {p q : Post} (hp : n.posts[id.index]? = some p)
    (hq : q.enrolment = p.enrolment) :
    (n.posts.setIfInBounds id.index q).map Post.enrolment = n.roll := by
  apply Array.ext_getElem?
  intro i
  rw [Array.getElem?_map, getElem?_roll, Array.getElem?_setIfInBounds]
  split
  · rename_i hi
    subst hi
    rw [hp, if_pos (Array.getElem?_eq_some_iff.mp hp).1]
    exact congrArg some hq
  · rfl

theorem roll_wake {id : PropId} {p q : Post} (hp : n.posts[id.index]? = some p) (hq : q.enrolment = p.enrolment) :
    (n.wake id q).roll = n.roll := by
  rw [wake]
  split
  · rename_i hidle
    refine enrolment_set hp (Eq.trans ?_ hq)
    rw [Post.enrolment, Post.enrolment, hidle]
    rfl
  · exact enrolment_set hp hq

theorem roll_scheduleFull (n : Network) (id : PropId) : (n.scheduleFull id).roll = n.roll := by
  rw [scheduleFull]
  split
  · rfl
  · rename_i p hp
    split
    · rfl
    · exact roll_wake hp rfl

theorem roll_notify (n : Network) (e : Event) (w : Watcher) : (n.notify e w).roll = n.roll := by
  rw [notify]
  split
  · rfl
  · split
    · rfl
    · rename_i p hp
      split
      · exact roll_wake hp rfl
      · rfl

theorem roll_foldl {α : Type} {f : Network → α → Network} (hf : ∀ n x, (f n x).roll = n.roll) (l : List α)
    (n : Network) : (l.foldl f n).roll = n.roll := by
  induction l generalizing n with
  | nil => rfl
  | cons x rest ih => exact (ih (f n x)).trans (hf n x)

theorem roll_scheduleAll (n : Network) : n.scheduleAll.roll = n.roll :=
  roll_foldl (fun n i => roll_scheduleFull n ⟨i⟩) _ n

theorem roll_start (n : Network) : n.start.roll = n.roll := by
  rw [start]
  split
  · rfl
  · exact roll_scheduleAll _

theorem roll_distribute (n : Network) (e : Event) : (n.distribute e).roll = n.roll := by
  rw [distribute]
  split
  · rw [← Array.foldl_toList]
    exact roll_foldl (fun n w => roll_notify n e w) _ n
  · rfl

theorem roll_absorb (n : Network) : n.absorb.roll = n.roll := by
  rw [absorb, ← Array.foldl_toList]
  exact roll_foldl roll_distribute _ _

theorem roll_flush (n : Network) : n.flush.roll = n.roll := by
  have henrolment : ∀ p, (letGo p).enrolment = p.enrolment := by
    intro p
    have hpropagator := (letGo_same p).1
    rw [Post.enrolment, Post.enrolment, hpropagator, active_letGo, state_letGo]
    by_cases hr : p.state = .removed
    · rw [if_pos hr, hr]
    · rw [if_neg hr]
      split <;> simp [hr]
  show (n.posts.map letGo).map Post.enrolment = n.posts.map Post.enrolment
  rw [Array.map_map]
  exact Array.map_congr_left fun p _ => henrolment p

/-- All propagators are those of constraints. -/
def Shipped (n : Network) : Prop := ∀ p ∈ n.posts, ∃ c : Constraint, p.propagator = c.propagator

/-- Every propagator is one that the first network has, or one of a nogood. -/
def Learns (n n' : Network) : Prop :=
  ∀ e ∈ n'.roll, (∃ d ∈ n.roll, e.propagator = d.propagator) ∨ ∃ c : Nogood, e.propagator = c.propagator

theorem shipped_iff : n.Shipped ↔ ∀ e ∈ n.roll, ∃ c : Constraint, e.propagator = c.propagator := by
  constructor
  · intro h e he
    obtain ⟨p, hp, rfl⟩ := Array.mem_map.mp he
    exact h p hp
  · exact fun h p hp => h p.enrolment (Array.mem_map_of_mem hp)

theorem Shipped.learns (h : n.Shipped) (hl : Learns n n') : n'.Shipped := by
  refine shipped_iff.mpr fun e he => ?_
  rcases hl e he with ⟨d, hd, heq⟩ | ⟨c, hc⟩
  · obtain ⟨c, hc⟩ := shipped_iff.mp h d hd
    exact ⟨c, heq.trans hc⟩
  · exact ⟨.nogood c, hc⟩

theorem Shipped.of_roll (h : n.Shipped) (hroll : n'.roll = n.roll) : n'.Shipped :=
  h.learns fun e he => .inl ⟨e, hroll ▸ he, rfl⟩

/-- Behind a roll that is kept there are only entries that were removed. -/
theorem roll_split (hroll : ∀ i < n.posts.size, n'.roll[i]? = n.roll[i]?)
    (hremoved : ∀ i e, n.posts.size ≤ i → n'.roll[i]? = some e → e.removed = true) :
    ∃ rest, n'.roll.toList = n.roll.toList ++ rest ∧ ∀ e ∈ rest, e.removed = true := by
  refine ⟨n'.roll.toList.drop n.roll.size, ?_, ?_⟩
  · have hold : n'.roll.toList.take n.roll.size = n.roll.toList := by
      apply List.ext_getElem?
      intro i
      rw [List.getElem?_take]
      split
      · rename_i hi
        rw [size_roll] at hi
        simpa using hroll i hi
      · rename_i hi
        rw [List.getElem?_eq_none (by simpa using hi)]
    rw [← hold, List.take_append_drop]
  · intro e he
    obtain ⟨i, hi⟩ := List.getElem?_of_mem he
    rw [List.getElem?_drop, Array.getElem?_toList] at hi
    exact hremoved _ e (by rw [size_roll]; exact Nat.le_add_right _ _) hi

/-- Who watches a variable can be read off the roll. -/
theorem entriesOf_eq_of_roll (hroll : ∀ i < n.posts.size, n'.roll[i]? = n.roll[i]?)
    (hremoved : ∀ i e, n.posts.size ≤ i → n'.roll[i]? = some e → e.removed = true) (x : VarId) :
    entriesOf n'.posts x = entriesOf n.posts x := by
  let enter (e : Enrolment × Nat) : List Watcher :=
    if e.1.removed then []
    else (e.1.propagator.scope.toList.zipIdx.filter fun f => f.1 = x).map fun f =>
      ⟨⟨e.2⟩, f.2, e.1.propagator.condition f.2⟩
  have hread : ∀ n : Network, entriesOf n.posts x = n.roll.toList.zipIdx.flatMap enter := by
    intro n
    rw [entriesOf, roll, Array.toList_map, List.zipIdx_map, List.flatMap_map]
    refine List.flatMap_congr fun e _ => ?_
    by_cases hr : e.1.state = .removed <;> simp [enter, Post.entries, Post.enrolment, hr]
  obtain ⟨rest, hsplit, hnew⟩ := roll_split hroll hremoved
  have hgone : ∀ k, (rest.zipIdx k).flatMap enter = [] := fun k =>
    List.flatMap_eq_nil_iff.mpr fun e he => if_pos (hnew e.1 (List.fst_mem_of_mem_zipIdx he))
  rw [hread, hread, hsplit, List.zipIdx_append, List.flatMap_append, hgone, List.append_nil]

/-! ### What propagation may write -/

/-- The cells of domains, and those that say whether a propagator is to be woken. -/
def Touches (n : Network) (c : Nat) : Prop := n.model.Owns c ∨ ∃ e ∈ n.roll, e.active = c

/-- The roll is the same, and no cells were written but those that propagation may write. -/
structure Evolves (n n' : Network) : Prop where
  roll : n'.roll = n.roll
  model : n.model.Rewrites n.Touches n'.model

namespace Evolves

theorem touches_iff (h : Evolves n n') (c : Nat) : n'.Touches c ↔ n.Touches c := by
  rw [Touches, Touches, h.roll, h.model.owns_iff]

theorem refl (n : Network) : Evolves n n := ⟨rfl, .refl _⟩

theorem trans (h1 : Evolves n n') (h2 : Evolves n' n'') : Evolves n n'' :=
  ⟨h2.roll.trans h1.roll, h1.model.trans (h2.model.mono fun c => (h1.touches_iff c).mp)⟩

theorem of_model {m : Model} (h : n.model.Rewrites n.model.Owns m) : Evolves n { n with model := m } :=
  ⟨rfl, h.mono fun _ => .inl⟩

theorem scheduleAll (n : Network) : Evolves n n.scheduleAll :=
  ⟨roll_scheduleAll n, by rw [scheduleAll_reschedules n]; exact .refl _⟩

theorem start (n : Network) : Evolves n n.start := by
  refine ⟨roll_start n, ?_⟩
  rw [Network.start]
  split
  · exact .refl _
  · rw [scheduleAll_reschedules]
    exact .refl _

theorem absorb (n : Network) : Evolves n n.absorb :=
  ⟨roll_absorb n, by rw [absorb_reschedules n]; exact .clearEvents _⟩

theorem flush (n : Network) : Evolves n n.flush := ⟨roll_flush n, .clearEvents _⟩

end Evolves

/-! ### Networks of lawful propagators -/

/-- Scheduling is coherent and all propagators are lawful. -/
structure Lawful (n : Network) : Prop where
  coherent : n.Coherent
  lawful : ∀ e ∈ n.roll, e.propagator.Lawful

theorem lawful_passes {p : Propagator} (hp : p.Lawful) (full : Bool) (pending : List (Nat × EventMask)) :
    (passes p full pending).Lawful := by
  rw [passes]
  split
  · exact hp.run
  · exact .forM (fun e => hp.runOn e.1 e.2) pending

theorem runPasses_gives {p : Propagator} (hp : p.Lawful) (active : Nat) (id : PropId) (full : Bool)
    (pending : List (Nat × EventMask)) (m : Model) :
    @Activity.Gives _ .worldly (runPasses p active id full pending m) fun r =>
      m.Rewrites (fun c => m.Owns c ∨ active = c) r.2 := by
  let := Tolerance.worldly
  refine .bind (.report _) fun _ _ => .bind (lawful_passes hp full pending _) ?_
  rintro ⟨outcome, self, m', passive⟩ ⟨-, hchain⟩
  have hm' : m.Rewrites (fun c => m.Owns c ∨ active = c) m' := hchain.rewrites.mono fun _ => .inl
  cases outcome with
  | error c => exact .bind (.report _) fun _ _ => .pure hm'
  | ok u =>
    dsimp only
    split
    · exact .bind (.report _) fun _ _ => .pure (hm'.trans (.setCell (.inr rfl) _))
    · exact .pure hm'

namespace Lawful

theorem evolve (h : n.Lawful) (he : Evolves n n') (hc : n'.Coherent) : n'.Lawful :=
  ⟨hc, fun e hmem => h.lawful e (he.roll ▸ hmem)⟩

theorem withModel (h : n.Lawful) (m : Model) : Lawful { n with model := m } :=
  ⟨⟨h.coherent.queues, h.coherent.sound, h.coherent.watched, h.coherent.counted⟩, h.lawful⟩

theorem scheduleAll (h : n.Lawful) : n.scheduleAll.Lawful := h.evolve (.scheduleAll n) h.coherent.scheduleAll

theorem start (h : n.Lawful) : n.start.Lawful := h.evolve (.start n) h.coherent.start

theorem flush (h : n.Lawful) : n.flush.Lawful := h.evolve (.flush n) h.coherent.flush

theorem takeLast (h : n.Lawful) : n.takeLast.2.Lawful :=
  ⟨⟨h.coherent.queues, h.coherent.sound, h.coherent.watched, h.coherent.counted⟩, h.lawful⟩

theorem execute (h : n.Lawful) {id : PropId} {agenda : Agenda} (hnext : n.agenda.next? = some (id, agenda)) :
    @Activity.Gives _ .worldly (Network.execute { n with agenda } id) fun s => Evolves n s.2 := by
  let := Tolerance.worldly
  rw [Network.execute]
  split
  · exact .throw not_false
  · rename_i p hp
    have hp : n.posts[id.index]? = some p := hp
    have hmem : p.enrolment ∈ n.roll := Array.mem_map_of_mem (Array.mem_of_getElem? hp)
    -- a removed post would come to life by the run; but what is scheduled was not removed
    have hlive : p.state ≠ .removed := by
      rw [h.coherent.queues.scheduled_next? hnext hp]
      simp
    have hdone : ∀ q : Post, q.propagator = p.propagator → q.active = p.active → q.state ≠ .removed →
        q.enrolment = p.enrolment := by
      intro q h1 h2 h3
      rw [Post.enrolment, Post.enrolment, h1, h2, decide_eq_false h3, decide_eq_false hlive]
    refine .bind (.bind (runPasses_gives (h.lawful _ hmem) p.active id p.full p.pendingList n.model)
      fun r hr => .pure (Q := fun s : Except Contradiction Unit × Network =>
        ∃ m, s.2 = { n with model := m, agenda } ∧ n.model.Rewrites n.Touches m)
        ⟨r.2, rfl, hr.mono fun c hc => hc.imp_right fun heq => ⟨_, hmem, heq⟩⟩) ?_
    rintro ⟨outcome, -⟩ ⟨m, rfl, hm⟩
    cases outcome with
    | ok u => exact .pure ⟨enrolment_set hp (hdone _ rfl rfl (by simp)), hm⟩
    | error c => exact .pure ⟨enrolment_set hp (hdone _ rfl rfl (by simp)), hm⟩

theorem drain (h : n.Lawful) (hf : n.failed = false) (fuel : Nat) :
    @Activity.Gives _ .worldly (n.drain fuel) fun s => Evolves n s.2 := by
  let := Tolerance.worldly
  induction fuel generalizing n with
  | zero =>
    rw [Network.drain]
    split
    · exact .pure (.refl n)
    · exact .throw not_false
  | succ fuel ih =>
    rw [Network.drain]
    split
    · exact .pure (.refl n)
    · rename_i id agenda hnext
      refine .bind ((h.execute hnext).and (h.coherent.execute hf hnext)) ?_
      rintro ⟨outcome, n'⟩ ⟨hevolves, hcoherent, -, hcalm, -⟩
      cases outcome with
      | error c => exact .pure hevolves
      | ok u =>
        have hcalm := hcalm rfl
        have hstep := hevolves.trans (.absorb n')
        refine (ih (h.evolve hstep (hcoherent.absorb hcalm)) ?_).mono fun s hs => hstep.trans hs
        rw [absorb_reschedules n']
        exact hcalm

/-- **Propagation** leaves the roll alone. -/
theorem propagate (h : n.Lawful) :
    @Activity.Gives _ .worldly n.propagate fun s => s.2.Lawful ∧ Evolves n s.2 := by
  let := Tolerance.worldly
  have hgives : n.propagate.Gives fun s => Evolves n s.2 := by
    rw [Network.propagate]
    split
    · exact .bind (R := fun _ => False) (.throw not_false) fun _ hc => hc.elim
    · rename_i hf
      have hf : n.start.failed = false := (failed_start n).trans (Bool.eq_false_iff.mpr hf)
      have hstep := (Evolves.start n).trans (.absorb n.start)
      refine (drain (h.evolve hstep (h.coherent.start.absorb hf)) ?_ _).mono fun s hs => hstep.trans hs
      rw [absorb_reschedules n.start]
      exact hf
  exact (hgives.and h.coherent.propagate).mono fun s hs => ⟨h.evolve hs.1 hs.2.1, hs.1⟩

/-! ### Steps of a search -/

theorem narrow (h : n.Lawful) (x : VarId) (μ : Mutation) (cause : Cause) :
    @Activity.Gives _ .worldly (n.narrow x μ cause) fun s => s.2.Lawful ∧ Evolves n s.2 := by
  let := Tolerance.worldly
  exact .bind (n.model.narrow_gives x μ cause) fun r hr =>
    .pure ⟨h.withModel r.2, .of_model (Model.apply_rewrites hr)⟩

theorem improveAndPropagate (h : n.Lawful) (objective : Option Objective) (best : Option Int) (cause : Cause) :
    @Activity.Gives _ .worldly (n.improveAndPropagate objective best cause) fun s =>
      s.2.Lawful ∧ Evolves n s.2 := by
  let := Tolerance.worldly
  have himprove : (n.improve objective best cause).Gives fun s => s.2.Lawful ∧ Evolves n s.2 := by
    cases objective with
    | none => exact .pure ⟨h, .refl n⟩
    | some o =>
      cases best with
      | none => exact .pure ⟨h, .refl n⟩
      | some b =>
        rw [Network.improve]
        split
        · exact .pure ⟨h, .refl n⟩
        · exact .bind (h.narrow _ _ cause) fun s hs => .pure hs
  refine .bind himprove ?_
  rintro ⟨outcome, n'⟩ ⟨h', hevolves⟩
  cases outcome with
  | error c => exact .pure ⟨h', hevolves⟩
  | ok u => exact h'.propagate.mono fun s hs => ⟨hs.1, hevolves.trans hs.2⟩

theorem takeNext (h : n.Lawful) (d : Decision) :
    @Activity.Gives _ .worldly (n.takeNext d) fun s => s.2.2.Lawful ∧ Evolves n s.2.2 := by
  let := Tolerance.worldly
  have hmutation : ∀ d : Decision, Sheltered d.mutation := by
    intro d
    rw [Decision.mutation]
    split
    · exact .ok _
    · cases d.split with
      | assign => exact .ok _
      | remove => exact .ok _
      | lower => exact .bind (sheltered_successor _) fun _ => .ok _
      | upper => exact .bind (sheltered_predecessor _) fun _ => .ok _
  have htake : (d.takeNext n.model).Gives fun s => n.model.Rewrites n.model.Owns s.2.2 := by
    rw [Decision.takeNext]
    split
    · refine .bind (.question (hmutation _)) fun μ _ => .bind (n.model.narrow_gives _ μ .decision) fun r hr => ?_
      exact .pure (Model.apply_rewrites hr)
    · exact .throw not_false
  rw [Network.takeNext]
  refine .bind (R := fun s => ∃ m, s.2 = { n with model := m } ∧ n.model.Rewrites n.model.Owns m) ?_ ?_
  · refine .bind (R := fun r => n.model.Rewrites n.model.Owns r.2) ?_ fun r hr => .pure ⟨r.2, rfl, hr⟩
    exact .bind htake fun s hs => .pure hs
  rintro ⟨r, -⟩ ⟨m, rfl, hm⟩
  exact .pure ⟨h.withModel m, .of_model hm⟩

/-! ### Posting -/

theorem post (h : n.Lawful) {p : Propagator} (hp : p.Lawful) :
    @Activity.Gives _ .worldly (n.post p) fun s => s.2.Lawful ∧ s.1 = ⟨n.posts.size⟩ ∧
      s.2.roll = n.roll.push ⟨p, n.model.store.slots.size, false⟩ ∧
      s.2.model = { n.model with store := n.model.store.grow [.bool true] } := by
  let := Tolerance.worldly
  have hgives : (n.post p).Gives fun s => s.1 = ⟨n.posts.size⟩ ∧
      s.2.roll = n.roll.push ⟨p, n.model.store.slots.size, false⟩ ∧
      s.2.model = { n.model with store := n.model.store.grow [.bool true] } := by
    rw [Network.post]
    split
    · exact .throw not_false
    · refine .bind (.report _) fun _ _ => ?_
      rw [Store.make_eq_grow]
      refine .pure ⟨rfl, ?_, ?_⟩
      · dsimp only
        split
        · rw [roll_scheduleFull]
          exact Array.map_push
        · exact Array.map_push
      · dsimp only
        split
        · rw [scheduleFull_reschedules]
        · rfl
  refine (hgives.and (h.coherent.post p)).mono ?_
  rintro ⟨id, n'⟩ ⟨⟨hid, hroll, hmodel⟩, hcoherent⟩
  refine ⟨⟨hcoherent, fun e he => ?_⟩, hid, hroll, hmodel⟩
  rw [hroll] at he
  rcases Array.mem_push.mp he with he | rfl
  · exact h.lawful e he
  · exact hp

theorem unpost (h : n.Lawful) (id : PropId) :
    @Activity.Gives _ .worldly (n.unpost id) fun n' => n'.Lawful ∧
      n'.roll = n.roll.modify id.index (fun e => { e with removed := true }) ∧ n'.model = n.model ∧
      n'.failed = n.failed := by
  let := Tolerance.worldly
  have hgives : (n.unpost id).Gives fun n' =>
      n'.roll = n.roll.modify id.index (fun e => { e with removed := true }) ∧ n'.model = n.model ∧
      n'.failed = n.failed := by
    rw [Network.unpost]
    split
    · exact .throw not_false
    · rename_i p hp
      split
      · exact .bind (R := fun _ => False) (.throw not_false) fun _ hc => hc.elim
      · refine .bind (.report _) fun _ _ => .pure ⟨?_, rfl, rfl⟩
        apply Array.ext_getElem?
        intro i
        rw [getElem?_roll, Array.getElem?_modify, getElem?_roll, Array.getElem?_setIfInBounds]
        split
        · rename_i hi
          subst hi
          rw [hp, if_pos (Array.getElem?_eq_some_iff.mp hp).1]
          rfl
        · rfl
  refine (hgives.and (h.coherent.unpost id)).mono ?_
  rintro n' ⟨⟨hroll, hmodel, hfailed⟩, hcoherent⟩
  refine ⟨⟨hcoherent, fun e he => ?_⟩, hroll, hmodel, hfailed⟩
  obtain ⟨i, hi⟩ := Array.getElem?_of_mem he
  rw [hroll, Array.getElem?_modify] at hi
  split at hi
  · obtain ⟨e', he', rfl⟩ := Option.map_eq_some_iff.mp hi
    exact h.lawful e' (Array.mem_of_getElem? he')
  · exact h.lawful e (Array.mem_of_getElem? hi)

end Lawful

theorem Shipped.post (h : n.Shipped) (hl : n.Lawful) (c : Constraint) :
    (n.post c.propagator).Yields fun s => s.2.Shipped := by
  intro before s after hrun
  obtain ⟨-, -, hroll, -⟩ := @Gives.yields _ .worldly _ _ (hl.post c.lawful) _ _ _ hrun
  refine shipped_iff.mpr fun e he => ?_
  rw [hroll] at he
  rcases Array.mem_push.mp he with he | rfl
  · exact shipped_iff.mp h e he
  · exact ⟨c, rfl⟩

theorem Shipped.propagate (h : n.Shipped) (hl : n.Lawful) : n.propagate.Yields fun s => s.2.Shipped := by
  intro before s after hrun
  obtain ⟨-, hevolves⟩ := @Gives.yields _ .worldly _ _ hl.propagate _ _ _ hrun
  exact h.of_roll hevolves.roll

end Network

end FiniteDomain
