import FiniteDomain.Proofs.Constraint.Monotone
import FiniteDomain.Proofs.Model.Twins
import FiniteDomain.Proofs.Solver.Driving

/-!
# The order of posting

Constraints are posted on a model, all variables of which admit holes, and propagated. What a choice of subdomains
shares with all of the propagators, that none of them prunes anything of it, is kept by each execution. The propagation
ends with such a choice itself, and so with the largest there is; or there is none, and it ends in a contradiction. The
order of posting has no part in that.

* `Closed`, `Core`: the choices that no propagator prunes, and the largest one;
* `Closes.nests`: a propagation keeps all of them;
* `Fresh.reaches_core`: it ends with the largest, or in a contradiction if there is none;
* `propagation_confluent`: two orders of posting.
-/

namespace FiniteDomain

open Activity

namespace Model

/-- A choice of subdomains on which no propagator of the constraints prunes or fails. -/
structure Closed (P : Constraint → Prop) (m inner : Model) : Prop where
  within : m.Within inner
  spares : ∀ c, P c → c.propagator.run.Spares inner

/-- The largest of these choices. -/
structure Core (P : Constraint → Prop) (m core : Model) : Prop extends Closed P m core where
  largest : ∀ inner, m.Closed P inner → core.Within inner

variable {P : Constraint → Prop} {m m' core core' inner : Model}

/-- There is only one. -/
theorem Core.twins (h : m.Core P core) (h' : m.Core P core') : Twins core core' :=
  ⟨h.largest core' h'.toClosed, h.within.wellFormed, (h'.largest core h.toClosed).has⟩

theorem Closed.of_twins (hc : m.Closed P inner) (h : Twins m m') : m'.Closed P inner :=
  ⟨⟨hc.within.vars.trans h.vars.symm, hc.within.wellFormed, fun x v hv => h.kept x v (hc.within.has x v hv)⟩, hc.spares⟩

/-- The choice is made from the domains. -/
theorem Core.of_twins (hc : m.Core P core) (h : Twins m m') : m'.Core P core :=
  ⟨hc.toClosed.of_twins h, fun inner hi => hc.largest inner (hi.of_twins h.symm)⟩

theorem Agrees.twins (h : Agrees m m') (hw : m.WellFormed) : Twins m m' :=
  ⟨⟨h.vars, h.wellFormed hw, fun x v => (h.has_iff x v).mp⟩, hw, fun x v => (h.has_iff x v).mpr⟩

end Model

/-- The constraint is on the roster. -/
def Roster.Lists (r : Roster) (c : Constraint) : Prop := ∃ id e, r id = some e ∧ e.constraint = c

namespace Network

variable {r : Roster} {n n' : Network} {m m' inner : Model} {past : Past} {before after : Array Notice}

/-! ### What executions keep -/

/-- The propagator of a listed constraint leaves the subdomains in the domains, and ends in no contradiction. -/
theorem Performs.keeps {id : PropId} {e : Member} (hseats : r.Seats m) (he : r id = some e) {p : Post}
    (hpropagator : p.propagator = e.constraint.propagator) (hactive : p.active = e.cell) (henum : m.Enumerated)
    (hsafe : e.constraint.Safe m) (hclosed : m.Closed r.Lists inner) {full : Bool} {calls : List (Nat × EventMask)}
    {outcome : Except Contradiction Unit} (h : Performs p id full calls m before outcome m' after) :
    outcome = .ok () ∧ m.Within m' ∧ m'.Within inner := by
  have hworks : ∀ {outcome s notices}, Works p.propagator full calls { self := id, model := m }
      (before.push (.executing p.propagator.name id full)) outcome s notices →
      outcome = .ok () ∧ m.Within s.model ∧ s.model.Within inner := by
    intro outcome s notices hworks
    rw [hpropagator] at hworks
    obtain ⟨⟨r, t⟩, _, hrun, hends⟩ := (@Constraint.run_keeps e.constraint inner .strict { self := id, model := m }
      hseats.wellFormed hclosed.within henum (hseats.seated id e he) hsafe rfl
      (hclosed.spares _ ⟨id, e, he, rfl⟩)).returns _
    cases hworks.run_eq.symm.trans hrun
    cases outcome with
    | ok u => exact ⟨rfl, hends.1.narrows.within, hends.1.encloses hclosed.within⟩
    | error c =>
      obtain ⟨a, ha⟩ := hclosed.within.wellFormed.exists_allows
      exact absurd (hclosed.within.allows ha) (hends.2 a ha)
  cases h with
  | kept hw _ => exact hworks hw
  | slept hw _ =>
    obtain ⟨-, hn, hinner⟩ := hworks hw
    have htwins := (Model.Agrees.setCell hn.wellFormed (hactive ▸ (hseats.within hn).apart id e he)
      (.bool false)).twins hn.wellFormed
    exact ⟨rfl, hn.trans htwins.toWithin, htwins.symm.toWithin.trans hinner⟩
  | failed hw => cases (hworks hw).1

section Nests

variable (henrols : n.Enrols r) (hseats : r.Seats n.model) (henum : n.model.Enumerated)
  (hsafe : ∀ id e, r id = some e → e.constraint.Safe n.model)

include henrols hseats henum hsafe

/-- What has come of the model is between it and the subdomains. -/
theorem Unfolds.nests (hclosed : n.model.Closed r.Lists inner) (h : Unfolds n before past m after) :
    n.model.Within m ∧ m.Within inner := by
  have hclear : ∀ {m : Model}, n.model.Within m ∧ m.Within inner →
      n.model.Within m.clearEvents ∧ m.clearEvents.Within inner := by
    rintro m ⟨hn, hinner⟩
    have htwins := (Model.Agrees.clearEvents hn.wellFormed).twins hn.wellFormed
    exact ⟨hn.trans htwins.toWithin, htwins.symm.toWithin.trans hinner⟩
  induction h with
  | begin => exact hclear ⟨.refl hseats.wellFormed, hclosed.within⟩
  | @run past m m' middle after id p _ hnext hperforms ih =>
    obtain ⟨hn, hinner⟩ := ih
    obtain ⟨e, he, hpropagator, hactive⟩ := henrols.exists_member hnext.post hnext.live
    obtain ⟨-, hn', hinner'⟩ := hperforms.keeps (hseats.within hn) he hpropagator hactive (henum.within hn)
      ((hsafe id e he).of_narrower (hseats.seated id e he) hseats.wellFormed hn) ⟨hinner, hclosed.spares⟩
    exact hclear ⟨hn.trans hn', hinner'⟩

/-- **A propagation keeps the subdomains that no propagator prunes**, and ends in no contradiction if there are any. -/
theorem Closes.nests {outcome : Except Contradiction Unit} (hclosed : n.model.Closed r.Lists inner)
    (h : Closes n before past outcome m after) : outcome = .ok () ∧ m.Within inner := by
  cases h with
  | settled hunfolds _ _ => exact ⟨rfl, (hunfolds.nests henrols hseats henum hsafe hclosed).2⟩
  | @failed _ m _ _ _ id p _ hunfolds hnext hperforms =>
    obtain ⟨hn, hinner⟩ := hunfolds.nests henrols hseats henum hsafe hclosed
    obtain ⟨e, he, hpropagator, hactive⟩ := henrols.exists_member hnext.post hnext.live
    obtain ⟨hok, -⟩ := hperforms.keeps (hseats.within hn) he hpropagator hactive (henum.within hn)
      ((hsafe id e he).of_narrower (hseats.seated id e he) hseats.wellFormed hn) ⟨hinner, hclosed.spares⟩
    cases hok

end Nests

/-! ### The first propagation -/

namespace Fresh

variable (h : n.Fresh r) (hw : n.model.WellFormed) (hsafe : ∀ id e, r id = some e → e.constraint.Safe n.model)

include h hw hsafe

/-- The first propagation returns. -/
theorem propagate_returns (before : Array Notice) :
    ∃ s after, n.propagate before = .ok s after ∧ @Propagates .strict r n.start s := by
  let := Tolerance.strict
  have hrouses := start_rouses h.ready.wired
  have hmodel : n.start.model = n.model := hrouses.model_eq
  have hsuits : r.Suits n.start.model := by
    rw [hmodel]
    refine h.ready.suits hw.domains fun id c hc => ?_
    obtain ⟨e, he, rfl⟩ := Roster.postings_eq_some.mp hc
    exact ⟨(hsafe id e he).inRange.mirrored (h.ready.scope id e he) hw, .inr (hsafe id e he).hasRoom⟩
  rw [← propagate_start]
  refine (propagate_spec hrouses.wired hrouses.started_eq (hrouses.failed_eq.trans h.ready.calm) hsuits ?_).returns before
  intro id e he
  have hwired := h.ready.wired
  rw [start, if_neg (Bool.eq_false_iff.mp h.unstarted)]
  refine .inl (scheduled_scheduleAll (n := { n with started := true }) (r := r) ?_ h.ready.calm he)
  exact ⟨hwired.member, hwired.removed, hwired.watched, hwired.queued, hwired.waiting, hwired.owing, hwired.calm⟩

/-- **The first propagation ends with the largest choice of subdomains** that no propagator prunes, or in a
contradiction if there is none. -/
theorem reaches_core (henum : n.model.Enumerated) (before : Array Notice) :
    ∃ outcome n' after, n.propagate before = .ok (outcome, n') after ∧
      (outcome = .ok () ∧ n.model.Core r.Lists n'.model ∨
        (∃ c, outcome = .error c) ∧ ∀ inner, ¬n.model.Closed r.Lists inner) := by
  let := Tolerance.strict
  obtain ⟨⟨outcome, n'⟩, after, hrun, hpropagates⟩ := h.propagate_returns hw hsafe before
  have hbalanced := h.balanced hw.domains
  have hmodel : n.start.model = n.model := (start_rouses h.ready.wired).model_eq
  obtain ⟨past, hcloses, -⟩ := (hbalanced.reachable.rested_of_propagate hrun).closes hrun
  have hnests : ∀ inner, n.model.Closed r.Lists inner → outcome = .ok () ∧ n'.model.Within inner := fun inner hi =>
    hcloses.nests (r := r) (hbalanced.enrols.of_roll (roll_start n)) (hmodel ▸ hbalanced.seats) (hmodel ▸ henum)
      (hmodel ▸ hsafe) (hmodel ▸ hi)
  refine ⟨outcome, n', after, hrun, ?_⟩
  cases outcome with
  | error c => exact .inr ⟨⟨c, rfl⟩, fun inner hi => by cases (hnests inner hi).1⟩
  | ok u =>
    obtain ⟨hbalanced', hstill⟩ := hbalanced.propagate hrun
    obtain ⟨hcourse, -, hsettles, -⟩ := hpropagates
    have hw' := hbalanced'.seats.wellFormed
    have hn : n.model.Within n'.model := by
      rw [← hmodel]
      exact ⟨hcourse.shrinks.vars_eq, hw', hcourse.shrinks.has⟩
    refine .inl ⟨rfl, ⟨hn, ?_⟩, fun inner hi => (hnests inner hi).2⟩
    rintro _ ⟨id, e, he, rfl⟩
    have hseated := hbalanced'.seats.seated id e he
    have hsafe' := (hsafe id e he).of_narrower (hbalanced.seats.seated id e he) hw hn
    cases hflag : n'.model.store.flag e.cell with
    | true => exact ((hstill id e he hflag).leaves hw' hseated (Constraint.clear_of_enumerated (henum.within hn))).spares
    | false =>
      refine Constraint.spares_of_holds hw' hseated hsafe'.hasRoom fun a ha => ?_
      exact (Constraint.admits_iff hsafe'.inRange hseated.scope hw' ha).mp (hsettles.passive id e he hflag a ha)

end Fresh

/-! ### Posting -/

/-- Posts constraints one after the other. -/
def postAll (n : Network) : List Constraint → Activity Network
  | [] => return n
  | c :: rest => do
    let (_, n) ← n.postConstraint c
    n.postAll rest

/-- Posts constraints on a model, one after the other, and propagates. -/
def postAndPropagate (m : Model) (cs : List Constraint) : Activity (Except Contradiction Unit × Network) := do
  let n ← postAll { model := m } cs
  n.propagate

theorem fresh_of_model (hw : m.WellFormed) : Fresh (fun _ => none) { model := m } := by
  refine ⟨.new m, ⟨(Reachable.new m).coherent, fun e he => by simp [roll] at he⟩, rfl, ?_,
    fun _ _ he => by cases he⟩
  exact ready_of_separate ⟨hw.linked, fun c hc => hc.lt hw, hw.apart⟩

/-- All of the constraints get on the roster, and the domains stay as they are. -/
theorem Fresh.postAll {cs : List Constraint} (h : n.Fresh r) (hw : n.model.WellFormed)
    (hseated : ∀ c ∈ cs, c.Seated n.model) (before : Array Notice) :
    ∃ n' r' after, n.postAll cs before = .ok n' after ∧ n'.Fresh r' ∧ n.model.Twins n'.model ∧
      ∀ c, r'.Lists c ↔ r.Lists c ∨ c ∈ cs := by
  induction cs generalizing n r before with
  | nil => exact ⟨n, r, before, rfl, h, .refl hw, by simp⟩
  | cons c rest ih =>
    obtain ⟨hc, hrest⟩ := List.forall_mem_cons.mp hseated
    obtain ⟨⟨id, n₁⟩, middle, hpost, hposted⟩ := (@post_spec r n .strict h.ready.wired c hc.scope).returns before
    have htwins : n.model.Twins n₁.model := by
      rw [hposted.model_eq]
      exact (Model.Agrees.grow hw _).twins hw
    obtain ⟨n', r', after, hrun, hfresh, htwins', hlists⟩ := ih (h.post hc.proper hc.informed hpost)
      htwins.wellFormed (fun c' hc' => (hrest c' hc').within htwins.toWithin) middle
    refine ⟨n', r', after, run_bind_eq_ok.mpr ⟨(id, n₁), middle, hpost, hrun⟩, hfresh, htwins.trans htwins', fun d => ?_⟩
    have hnone : r id = none := by
      refine Option.eq_none_iff_forall_ne_some.mpr fun e he => ?_
      obtain ⟨p, hp, -⟩ := h.ready.wired.member id e he
      rw [show id = ⟨n.posts.size⟩ from hposted.id_eq] at hp
      simp at hp
    rw [hlists, List.mem_cons, ← or_assoc]
    refine or_congr_left ⟨?_, ?_⟩
    · rintro ⟨j, e, he, rfl⟩
      rcases Roster.insert_cases he with ⟨-, rfl⟩ | ⟨-, he⟩
      · exact .inr rfl
      · exact .inl ⟨j, e, he, rfl⟩
    · rintro (⟨j, e, he, rfl⟩ | rfl)
      · exact ⟨j, e, Roster.insert_extends hnone he, rfl⟩
      · exact ⟨id, _, Roster.insert_self r id _, rfl⟩

/-- Posted on a model and propagated, constraints come to the largest choice of subdomains that none of their
propagators prunes, or to a contradiction if there is none. -/
theorem postAndPropagate_spec (hw : m.WellFormed) (henum : m.Enumerated) {cs : List Constraint}
    (hseated : ∀ c ∈ cs, c.Seated m) (hsafe : ∀ c ∈ cs, c.Safe m) (before : Array Notice) :
    ∃ outcome n after, postAndPropagate m cs before = .ok (outcome, n) after ∧
      (outcome = .ok () ∧ m.Core (· ∈ cs) n.model ∨ (∃ c, outcome = .error c) ∧ ∀ inner, ¬m.Closed (· ∈ cs) inner) := by
  obtain ⟨n, r, middle, hpost, hfresh, htwins, hlists⟩ := (fresh_of_model hw).postAll hw hseated before
  have htwins : m.Twins n.model := htwins
  have hlists : ∀ c, r.Lists c ↔ c ∈ cs := by
    intro c
    rw [hlists]
    simp [Roster.Lists]
  have hlisted : ∀ id e, r id = some e → e.constraint ∈ cs := fun id e he => (hlists _).mp ⟨id, e, he, rfl⟩
  obtain ⟨outcome, n', after, hrun, hcase⟩ := hfresh.reaches_core htwins.wellFormed
    (fun id e he => (hsafe _ (hlisted id e he)).of_narrower (hseated _ (hlisted id e he)) hw htwins.toWithin)
    (henum.within htwins.toWithin) middle
  rw [show r.Lists = (· ∈ cs) from funext fun c => propext (hlists c)] at hcase
  refine ⟨outcome, n', after, run_bind_eq_ok.mpr ⟨n, middle, hpost, hrun⟩, hcase.imp ?_ ?_⟩
  · exact fun h => ⟨h.1, h.2.of_twins htwins.symm⟩
  · exact fun h => ⟨h.1, fun inner hi => h.2 inner (hi.of_twins htwins)⟩

/-- **Propagation is confluent** where all variables admit holes and no sum leaves its range. In whatever orders the
constraints are posted, both propagations come to the same domains, the largest that no propagator prunes anything of or
fails on; or there are none, and both come to a contradiction. -/
theorem propagation_confluent (hw : m.WellFormed) (henum : m.Enumerated) {cs cs' : List Constraint}
    (hperm : cs.Perm cs') (hseated : ∀ c ∈ cs, c.Seated m) (hsafe : ∀ c ∈ cs, c.Safe m) (before before' : Array Notice) :
    ∃ outcome n after outcome' n' after', postAndPropagate m cs before = .ok (outcome, n) after ∧
      postAndPropagate m cs' before' = .ok (outcome', n') after' ∧
      ((outcome = .ok () ∧ outcome' = .ok () ∧ m.Core (· ∈ cs) n.model ∧
          ∀ x, n'.model.extent x = n.model.extent x ∧ n'.model.values x = n.model.values x ∧
            ∀ v, n'.model.contains x v = n.model.contains x v) ∨
        (∃ c c', outcome = .error c ∧ outcome' = .error c') ∧ ∀ inner, ¬m.Closed (· ∈ cs) inner) := by
  obtain ⟨outcome, n, after, hrun, hcase⟩ := postAndPropagate_spec hw henum hseated hsafe before
  obtain ⟨outcome', n', after', hrun', hcase'⟩ := postAndPropagate_spec hw henum
    (fun c hc => hseated c (hperm.mem_iff.mpr hc)) (fun c hc => hsafe c (hperm.mem_iff.mpr hc)) before'
  have hsame : (· ∈ cs') = (· ∈ cs) := funext fun c => propext hperm.mem_iff.symm
  rw [hsame] at hcase'
  refine ⟨outcome, n, after, outcome', n', after', hrun, hrun', ?_⟩
  rcases hcase with ⟨hok, hcore⟩ | ⟨⟨c, hc⟩, hnone⟩
  · rcases hcase' with ⟨hok', hcore'⟩ | ⟨-, hnone⟩
    · have htwins := hcore.twins hcore'
      refine .inl ⟨hok, hok', hcore, fun x => ?_⟩
      exact ⟨(htwins.extent_eq x).1, htwins.values_eq x, (htwins.extent_eq x).2⟩
    · exact absurd hcore.toClosed (hnone _)
  · rcases hcase' with ⟨-, hcore'⟩ | ⟨⟨c', hc'⟩, -⟩
    · exact absurd hcore'.toClosed (hnone _)
    · exact .inr ⟨⟨c, c', hc, hc'⟩, hnone⟩

/-- One variable is below another, at a distance of two, and they are not both at their ends. -/
def trio : List Constraint :=
  [.linear ⟨[⟨1, ⟨0⟩⟩, ⟨-1, ⟨1⟩⟩], .le, -1⟩, .distance ⟨⟨0⟩, ⟨1⟩, .eq, 2, (true, true)⟩,
    .nogood ⟨[⟨⟨0⟩, 0, true⟩, ⟨⟨1⟩, 3, true⟩]⟩]

theorem propagation_confluent_of_trio : ∃ m : Model, m.WellFormed ∧ m.Enumerated ∧ trio.Perm trio.reverse ∧
    (∀ c ∈ trio, c.Seated m) ∧ (∀ c ∈ trio, c.Safe m) ∧
    ∃ outcome n after outcome' n' after', postAndPropagate m trio #[] = .ok (outcome, n) after ∧
      postAndPropagate m trio.reverse #[] = .ok (outcome', n') after' ∧
      ((outcome = .ok () ∧ outcome' = .ok () ∧ m.Core (· ∈ trio) n.model ∧
          ∀ x, n'.model.extent x = n.model.extent x ∧ n'.model.values x = n.model.values x ∧
            ∀ v, n'.model.contains x v = n.model.contains x v) ∨
        (∃ c c', outcome = .error c ∧ outcome' = .error c') ∧ ∀ inner, ¬m.Closed (· ∈ trio) inner) := by
  obtain ⟨m, m', hm, hm', hsize, hx, hy, hbounds⟩ : ∃ m m', (Model.mk "pair" {} #[] #[] 0).newEnumerated "x" 0 3 =
      .ok (⟨0⟩, m) ∧ m.newEnumerated "y" 0 3 = .ok (⟨1⟩, m') ∧ m'.vars.size = 2 ∧ m'.isEnumerated ⟨0⟩ = .ok true ∧
        m'.isEnumerated ⟨1⟩ = .ok true ∧
        (Linear.mk [⟨1, ⟨0⟩⟩, ⟨-1, ⟨1⟩⟩] .le (-1)).bounds m' 1 = .ok (some (-3, 3)) :=
    ⟨_, _, rfl, rfl, rfl, rfl, rfl, toOption_eq_some.mp (by decide +kernel)⟩
  have hw : m'.WellFormed := by
    refine Model.History.wellFormed (.create (.create (.start "pair") (.newEnumerated ?_ ?_ ?_ hm))
      (.newEnumerated ?_ ?_ ?_ hm')) ?_
    all_goals simp [Value.Fits, Value.least, Value.greatest]
  have henum : m'.Enumerated := by
    rintro ⟨i⟩ hi
    simp only [Model.owns, hsize, decide_eq_true_eq] at hi
    rcases (by omega : i = 0 ∨ i = 1) with rfl | rfl
    · exact hx
    · exact hy
  have hseated : ∀ c ∈ trio, c.Seated m' := by
    have hscope : ∀ z ∈ [VarId.mk 0, ⟨1⟩], m'.owns z = true := by
      simp [Model.owns, hsize]
    simp only [trio, List.forall_mem_cons, List.not_mem_nil, false_implies, implies_true, and_true]
    refine ⟨⟨fun z hz => hscope z ?_, ?_, trivial⟩, ⟨fun z hz => hscope z ?_, ?_, hx, hy⟩,
      ⟨fun z hz => hscope z ?_, trivial, trivial⟩⟩
    · simpa [Constraint.propagator, Linear.propagator] using hz
    · simp [Constraint.Proper]
    · simpa [Constraint.propagator, Distance.propagator] using hz
    · simp [Constraint.Proper, Value.Fits, Value.least, Value.greatest]
    · simpa [Constraint.propagator, Nogood.propagator] using hz
  have hsafe : ∀ c ∈ trio, c.Safe m' := by
    simp only [trio, List.forall_mem_cons, List.not_mem_nil, false_implies, implies_true, and_true]
    refine ⟨⟨?_, ?_, ?_⟩, ⟨trivial, trivial, by simp⟩, ⟨trivial, trivial, by simp⟩⟩
    · intro side hside
      obtain rfl := List.mem_singleton.mp hside
      exact ⟨_, _, hbounds⟩
    · intro side hside w _ total htotal
      obtain rfl := List.mem_singleton.mp hside
      simp only [Linear.sum?, Linear.sumFrom?, Option.bind_eq_some_iff, Sum.ofInt?_eq_some_iff, Option.some.injEq] at htotal
      obtain ⟨_, -, _, ⟨hfits, rfl⟩, rfl⟩ := htotal
      simp only [Linear.Side.sign, Sum.Fits, Sum.least, Sum.greatest] at hfits ⊢
      omega
    · rintro _ ⟨⟩
      simp [Value.Fits, Value.least, Value.greatest]
  exact ⟨m', hw, henum, (List.reverse_perm _).symm, hseated, hsafe,
    propagation_confluent hw henum (List.reverse_perm _).symm hseated hsafe #[] #[]⟩

end Network

end FiniteDomain
