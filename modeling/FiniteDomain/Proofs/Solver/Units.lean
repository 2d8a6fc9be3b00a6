import FiniteDomain.Proofs.Constraint.Entailment
import FiniteDomain.Proofs.Constraint.Soundness
import FiniteDomain.Proofs.Solver.Driving

/-!
# Nogoods miss no unit literal

A nogood is woken by some events only, and it does not hear of what it did itself. Still, once a propagation has ended
without a contradiction, not all of its literals are true, and if all but one are, the last one is false. A nogood that
is awake is still then. One that is not woken any more was satisfied when it went to sleep, and is so from then on. The
exception is a value in the middle of an interval, which cannot be taken out.

* `Dormant`: whoever is asleep is satisfied, and `Unfolds.dormant`, that this holds all along a propagation;
* `Deepened`: networks on which no world is popped;
* `Nogood.Idle.unit`: what is left to a nogood that is still or satisfied;
* `Deepened.misses_no_unit`: what is left after a propagation.
-/

namespace FiniteDomain

open Activity

/-! ### Constraints that are not woken -/

/-- Of a constraint that is asleep every choice of the values left is a solution. -/
def Roster.Dormant (r : Roster) (m : Model) : Prop :=
  ∀ id e, r id = some e → m.store.flag e.cell = false → ∀ a, m.Allows a → e.constraint.Holds a

theorem Roster.Dormant.within {r : Roster} {m m' : Model} (h : r.Dormant m) (hn : m.Within m')
    (hflags : ∀ id e, r id = some e → m'.store.flag e.cell = m.store.flag e.cell) : r.Dormant m' :=
  fun id e he hflag a ha => h id e he (hflags id e he ▸ hflag) a (hn.allows ha)

namespace Network

variable {r : Roster} {n n' : Network} {id : PropId} {e : Member} {m m' : Model} {past : Past} {posted : Postings}
  {before after : Array Notice}

/-- An execution sends a propagator to sleep only when nothing is left for it to do. -/
theorem Performs.dormant (hseats : r.Seats m) (he : r id = some e) {p : Post}
    (hpropagator : p.propagator = e.constraint.propagator) (hactive : p.active = e.cell) (hevents : m.events = #[])
    (hd : r.Dormant m) {full : Bool} {calls : List (Nat × EventMask)}
    (h : Performs p id full calls m before (.ok ()) m' after) : r.Dormant m' := by
  have htreats := h.treats hseats he hpropagator hactive hevents
  have hothers : ∀ j f, r j = some f → j ≠ id → m'.store.flag f.cell = false → ∀ a, m'.Allows a → f.constraint.Holds a :=
    fun j f hf hj hflag a ha => hd j f hf (htreats.flags j f hf hj ▸ hflag) a (htreats.recounts.toWithin.allows ha)
  refine fun j f hf hflag a ha => ?_
  by_cases hj : j = id
  · subst hj
    cases he.symm.trans hf
    cases h with
    | kept hworks _ =>
      rw [hpropagator] at hworks
      obtain ⟨-, hchain⟩ := @Gives.yields _ .worldly _ _ (e.constraint.lawful.run _) _ _ _ hworks.run_eq
      exact hd j e he (hchain.flag_eq (hseats.apart j e he) ▸ hflag) a (htreats.recounts.toWithin.allows ha)
    | @slept s _ hworks hasleep =>
      rw [hpropagator] at hworks
      have hseated := hseats.seated j e he
      rcases e.constraint.run_sound hseats.wellFormed hseated.scope hseated.proper j
        (before.push (.executing e.constraint.propagator.name j full)) with ⟨result, _, hrun, hsound⟩ | ⟨-, _, hfault⟩
      · cases hrun.symm.trans hworks.run_eq
        have hcell : ¬s.model.Owns p.active := by
          rw [hactive]
          exact (hseats.within hsound.within).apart j e he
        exact hsound.passive hasleep a (((Model.Agrees.setCell hsound.within.wellFormed hcell _).allows_iff a).mp ha)
      · cases hfault.symm.trans hworks.run_eq
  · exact hothers j f hf hj hflag a ha

theorem Unfolds.dormant (henrols : n.Enrols r) (hseats : r.Seats n.model) (hd : r.Dormant n.model)
    (h : Unfolds n before past m after) : r.Seats m ∧ m.events = #[] ∧ r.Dormant m := by
  have hclear : ∀ {m : Model}, r.Seats m ∧ r.Dormant m → r.Seats m.clearEvents ∧ m.clearEvents.events = #[] ∧
      r.Dormant m.clearEvents := by
    rintro m ⟨hseats, hd⟩
    have hin := (Model.Recounts.of_agrees hseats.wellFormed (.clearEvents hseats.wellFormed)).toWithin
    exact ⟨hseats.within hin, rfl, hd.within hin fun _ _ _ => rfl⟩
  induction h with
  | begin => exact hclear ⟨hseats, hd⟩
  | run _ hnext hperforms ih =>
    obtain ⟨hseats, hevents, hd⟩ := ih
    obtain ⟨e, he, hpropagator, hactive⟩ := henrols.exists_member hnext.post hnext.live
    have htreats := hperforms.treats hseats he hpropagator hactive hevents
    exact hclear ⟨hseats.within htreats.recounts.toWithin, hperforms.dormant hseats he hpropagator hactive hevents hd⟩

/-! ### Networks on which no world is popped -/

/-- The networks that come of these by decisions, by worlds that are begun, and by propagations without a contradiction,
once all domains are well-formed. -/
inductive Deepened : Network → Postings → Prop
  | start {n : Network} {posted : Postings} : Assembled n posted →
      (∀ (i : Nat) (y : Variable), n.model.vars[i]? = some y → y.domain.WellFormed n.model.store) → Deepened n posted
  | decide {n n' : Network} {posted : Postings} {x : VarId} {μ : Mutation} {outcome : Except Contradiction Bool}
      {before after : Array Notice} : Deepened n posted → n.narrow x μ .decision before = .ok (outcome, n') after →
      Deepened n' posted
  | pushWorld {n : Network} {posted : Postings} : Deepened n posted →
      Deepened { n with model := n.model.pushWorld } posted
  | propagate {n n' : Network} {posted : Postings} {before after : Array Notice} : Deepened n posted →
      n.propagate before = .ok (.ok (), n') after → Deepened n' posted

theorem Driven.deepened (h : n.Driven posted) : n.Deepened posted := by
  induction h with
  | start h hd => exact .start h hd
  | decide _ hrun ih => exact .decide ih hrun
  | propagate _ hrun ih => exact .propagate ih hrun

theorem Fresh.dormant (h : n.Fresh r) : r.Dormant n.model := by
  intro id e he hflag
  rw [Store.flag, (h.ready.awake id e he).get?_eq] at hflag
  cases hflag

namespace Balanced

variable (h : n.Balanced r)

include h

/-- A new world changes nothing that is there. -/
theorem pushWorld : Network.Balanced r { n with model := n.model.pushWorld } := by
  have hw := h.seats.wellFormed
  have hagrees : n.model.Agrees n.model.pushWorld := ⟨rfl, hw.linked.push, Nat.le_refl _, fun _ _ => rfl⟩
  have hrecounts := Model.Recounts.of_agrees hw hagrees
  refine ⟨h.reachable.change _, h.lawful.withModel _, h.enrols.of_roll rfl, h.seats.within hrecounts.toWithin, ?_⟩
  intro hst id e he hflag
  obtain ⟨m₀, hw₀, hs, hstill, hr, hcause⟩ := h.bides hst id e he hflag
  have := hr.trans hrecounts
  rw [List.append_nil] at this
  exact ⟨m₀, hw₀, hs, hstill, this, hcause⟩

theorem dormant_narrow (hd : r.Dormant n.model) {x : VarId} {μ : Mutation} {cause : Cause}
    {outcome : Except Contradiction Bool} (hrun : n.narrow x μ cause before = .ok (outcome, n') after) :
    r.Dormant n'.model := by
  obtain ⟨m, hmodel, rfl⟩ := onModel_eq_ok hrun
  have happly : n.model.apply x μ cause = .ok (outcome, m) :=
    @Gives.yields _ .worldly _ _ (n.model.narrow_gives x μ cause) _ _ _ hmodel
  obtain ⟨_, -, -, hrecounts⟩ := Model.apply_recounts h.seats.wellFormed happly
  exact hd.within hrecounts.toWithin fun id e he => (Model.Chain.one happly).flag_eq (h.seats.apart id e he)

theorem dormant_propagate (hd : r.Dormant n.model) (hrun : n.propagate before = .ok (.ok (), n') after) :
    r.Dormant n'.model := by
  obtain ⟨past, hcloses, -⟩ := (h.reachable.rested_of_propagate hrun).closes hrun
  have hmodel := model_start n
  cases hcloses with
  | settled hunfolds => exact (hunfolds.dormant (h.enrols.of_roll (roll_start n)) (hmodel ▸ h.seats) (hmodel ▸ hd)).2.2

end Balanced

theorem Deepened.exists_balanced (h : n.Deepened posted) :
    ∃ r, n.Balanced r ∧ r.Dormant n.model ∧ r.postings = posted := by
  induction h with
  | start h hd =>
    obtain ⟨r, hr, rfl⟩ := h.exists_fresh
    exact ⟨r, hr.balanced hd, hr.dormant, rfl⟩
  | decide _ hrun ih =>
    obtain ⟨r, hr, hd, rfl⟩ := ih
    exact ⟨r, hr.narrow (fun _ hc => by cases hc) hrun, hr.dormant_narrow hd hrun, rfl⟩
  | pushWorld _ ih =>
    obtain ⟨r, hr, hd, rfl⟩ := ih
    exact ⟨r, hr.pushWorld, fun id e he hflag a ha => hd id e he hflag a ha, rfl⟩
  | propagate _ hrun ih =>
    obtain ⟨r, hr, hd, rfl⟩ := ih
    exact ⟨r, (hr.propagate hrun).1, hr.dormant_propagate hd hrun, rfl⟩

end Network

/-! ### Nogoods that are still -/

/-- What cannot be removed from a variable that has it is strictly between the bounds of an interval. -/
theorem Model.Inert.between {m : Model} {x : VarId} {v : Int} (h : m.Inert x (.remove v)) (hw : m.WellFormed)
    (hv : m.Has x v) : m.isEnumerated x = .ok false ∧ ∃ lb ub, m.Ranges x lb ub ∧ lb < v ∧ v < ub := by
  obtain ⟨lb, hlb, -, hlow⟩ := hw.lb_spec hv.owns
  obtain ⟨ub, hub, -, hhigh⟩ := hw.ub_spec hv.owns
  have hle := hlow v hv
  have hge := hhigh v hv
  obtain ⟨y, hy, -, hk | ⟨hnone, -, hlow', hhigh'⟩⟩ := h v hv
  · exact absurd rfl hk
  · rw [Model.lb_eq hy, Except.ok.injEq] at hlb
    rw [Model.ub_eq hy, Except.ok.injEq] at hub
    simp only [Mutation.Keeps] at hlow' hhigh'
    refine ⟨?_, lb, ub, ⟨by rw [Model.lb_eq hy, hlb], by rw [Model.ub_eq hy, hub]⟩, by omega, by omega⟩
    rw [Model.isEnumerated_eq hy, Domain.isEnumerated, hnone]
    rfl

theorem Literal.holds_of_true {l : Literal} {m : Model} (hw : m.WellFormed) (hx : m.owns l.var = true)
    (hl : l.truth m = .ok (some true)) {a : Assignment} (ha : m.Allows a) : l.Holds a := by
  obtain ⟨t, ht, htrue, -⟩ := truth_iff hw hx
  cases hl.symm.trans ht
  exact htrue.mp rfl a ha

namespace Nogood

variable {c : Nogood} {m : Model}

/-- True literals leave the standing to the others. -/
theorem standing_append {pre rest : List Literal} (hpre : ∀ l ∈ pre, l.truth m = .ok (some true)) :
    standing m (pre ++ rest) = standing m rest := by
  induction pre with
  | nil => rfl
  | cons l pre ih =>
    rw [List.forall_mem_cons] at hpre
    rw [List.cons_append, standing, hpre.1]
    exact ih hpre.2

theorem standing_of_true {literals : List Literal} (h : ∀ l ∈ literals, l.truth m = .ok (some true)) :
    standing m literals = .ok (.waiting []) := by
  rw [← List.append_nil literals, standing_append h]
  rfl

theorem standing_of_unit {pre post : List Literal} {l : Literal}
    (hothers : ∀ k ∈ pre ++ post, k.truth m = .ok (some true)) (hl : l.truth m = .ok none) :
    standing m (pre ++ l :: post) = .ok (.waiting [l]) := by
  rw [List.forall_mem_append] at hothers
  rw [standing_append hothers.1, standing, hl, ok_bind, standing_of_true hothers.2]
  rfl

/-- The last open literal of a nogood that is still is one that cannot be made false. -/
theorem Still.unit (h : c.Still m) (hw : m.WellFormed) {pre post : List Literal} {l : Literal}
    (hc : c.literals = pre ++ l :: post) (hothers : ∀ k ∈ pre ++ post, k.truth m = .ok (some true))
    (hx : m.owns l.var = true) (hl : l.truth m = .ok none) :
    l.equal = true ∧ m.isEnumerated l.var = .ok false ∧ ∃ lb ub, m.Ranges l.var lb ub ∧ lb < l.value ∧ l.value < ub := by
  obtain ⟨st, hst, -, hinert⟩ := h
  rw [hc, standing_of_unit hothers hl, Except.ok.injEq] at hst
  have hinert := hinert l hst.symm
  obtain ⟨hhas, hfree⟩ := (Literal.truth_eq_none_iff hw hx).mp hl
  rw [Literal.falsify] at hinert
  split at hinert
  · rename_i hequal
    exact ⟨hequal, hinert.between hw hhas⟩
  · exact absurd (hw.fixed_of_unique hx fun v hv => (hinert v hv).keeps not_false) hfree

/-- The nogood is still, or every choice of the values left satisfies it. -/
def Idle (c : Nogood) (m : Model) : Prop := c.Still m ∨ ∀ a, m.Allows a → c.Holds a

namespace Idle

/-- While some choice is forbidden the nogood is still. -/
theorem still (h : c.Idle m) {a : Assignment} (ha : m.Allows a) (hall : ∀ l ∈ c.literals, l.Holds a) : c.Still m :=
  h.resolve_right fun hholds => hholds a ha hall

variable (h : c.Idle m) (hw : m.WellFormed) (hx : ∀ l ∈ c.literals, m.owns l.var = true)

include h hw hx

theorem not_all_true : ¬∀ l ∈ c.literals, l.truth m = .ok (some true) := by
  intro hall
  obtain ⟨a, ha⟩ := hw.exists_allows
  obtain ⟨st, hst, hne, -⟩ := h.still ha fun l hl => Literal.holds_of_true hw (hx l hl) (hall l hl) ha
  rw [standing_of_true hall, Except.ok.injEq] at hst
  exact hne hst.symm

/-- The last literal that is not true is false, or it cannot be made so. -/
theorem unit {pre post : List Literal} {l : Literal} (hc : c.literals = pre ++ l :: post)
    (hothers : ∀ k ∈ pre ++ post, k.truth m = .ok (some true)) :
    l.truth m = .ok (some false) ∨ l.equal = true ∧ m.isEnumerated l.var = .ok false ∧
      ∃ lb ub, m.Ranges l.var lb ub ∧ lb < l.value ∧ l.value < ub := by
  have hmem : l ∈ c.literals := by simp [hc]
  have hcases : ∀ k ∈ c.literals, k = l ∨ k ∈ pre ++ post := by
    intro k hk
    rw [hc, List.mem_append, List.mem_cons] at hk
    rw [List.mem_append]
    tauto
  obtain ⟨t, ht, -⟩ := Literal.truth_iff hw (hx l hmem)
  match t, ht with
  | some false, ht => exact .inl ht
  | some true, ht =>
    exact absurd (fun k hk => (hcases k hk).elim (fun h => h ▸ ht) (hothers k)) (h.not_all_true hw hx)
  | none, ht =>
    obtain ⟨⟨a, ha, hl⟩, -⟩ := Literal.exists_of_open hw (hx l hmem) ht
    have hall : ∀ k ∈ c.literals, k.Holds a := fun k hk => (hcases k hk).elim (fun h => h ▸ hl)
      fun hk' => Literal.holds_of_true hw (hx k hk) (hothers k hk') ha
    exact .inr ((h.still ha hall).unit hw hc hothers (hx l hmem) ht)

end Idle

end Nogood

namespace Network

variable {n n' : Network} {posted : Postings} {before after : Array Notice}

/-- **Nogoods miss no unit literal.** After a propagation without a contradiction no posted nogood has true literals
only, and where all but one are true, the last one is false, or says that an interval is at a value strictly between its
bounds. -/
theorem Deepened.misses_no_unit (h : n.Deepened posted) (hrun : n.propagate before = .ok (.ok (), n') after)
    {id : PropId} {c : Nogood} (hc : posted id = some (.nogood c)) :
    (¬∀ l ∈ c.literals, l.truth n'.model = .ok (some true)) ∧
      ∀ pre l post, c.literals = pre ++ l :: post → (∀ k ∈ pre ++ post, k.truth n'.model = .ok (some true)) →
        l.truth n'.model = .ok (some false) ∨ l.equal = true ∧ n'.model.isEnumerated l.var = .ok false ∧
          ∃ lb ub, n'.model.Ranges l.var lb ub ∧ lb < l.value ∧ l.value < ub := by
  obtain ⟨r, hbalanced, hdormant, rfl⟩ := h.exists_balanced
  have hdormant := hbalanced.dormant_propagate hdormant hrun
  obtain ⟨hbalanced, hstills⟩ := hbalanced.propagate hrun
  obtain ⟨e, he, heq⟩ := Roster.postings_eq_some.mp hc
  have hw := hbalanced.seats.wellFormed
  have hscope := (hbalanced.seats.seated id e he).scope
  rw [heq] at hscope
  have hx : ∀ l ∈ c.literals, n'.model.owns l.var = true := fun l hl => hscope _ (Nogood.mem_scope hl)
  have hidle : c.Idle n'.model := by
    cases hflag : n'.model.store.flag e.cell with
    | true =>
      have hstill := hstills id e he hflag
      rw [heq] at hstill
      exact .inl hstill
    | false =>
      have hholds := hdormant id e he hflag
      rw [heq] at hholds
      exact .inr hholds
  exact ⟨hidle.not_all_true hw hx, fun pre l post hsplit hothers => hidle.unit hw hx hsplit hothers⟩

/-- An interval and a variable that admits holes, and a nogood on both. -/
def guarded? : Option (Network × Nogood) := do
  let (x, m) ← (Model.newBounded { name := "guarded" } "x" 0 10).toOption
  let (y, m) ← (m.newEnumerated "y" 0 3).toOption
  let c : Nogood := ⟨[⟨y, 1, false⟩, ⟨x, 5, true⟩]⟩
  let (_, n) ← (postConstraint { model := m } (.nogood c)).outcome?
  return (n, c)

theorem driven_of_guarded {c : Nogood} (h : guarded? = some (n, c)) :
    ∃ posted id, n.Driven posted ∧ posted id = some (.nogood c) := by
  simp only [guarded?, Option.bind_eq_bind, Option.bind_eq_some_iff, toOption_eq_some] at h
  obtain ⟨⟨x, m⟩, hx, ⟨y, m'⟩, hy, ⟨id, _⟩, hpost, ⟨⟩⟩ := h
  obtain ⟨log, hpost⟩ := outcome?_eq_some hpost
  have hhistory := ((Model.History.start "guarded").create (.newBounded (by decide) (by decide) hx)).create
    (.newEnumerated (by decide) (by decide) (by decide) hy)
  have hbase : (Solver.ofModel m').Reachable fun _ => none :=
    .edit (.edit (.new "guarded") (.newBounded hx)) (.newEnumerated hy)
  have hposted := (Solver.suits_ofModel hhistory (by simp)).post hbase (c := .nogood _) trivial hpost
  have hassembled : Assembled { model := m' } fun _ => none :=
    .edit (.edit (.new "guarded") (.newBounded hx)) (.newEnumerated hy)
  have hmade : (Constraint.nogood ⟨[⟨y, 1, false⟩, ⟨x, 5, true⟩]⟩).MadeFor m' := trivial
  exact ⟨_, id, .start (hassembled.post hmade hpost) hposted.domains, if_pos rfl⟩

/-- A value in the middle of an interval is not taken out, even though the other literal is true. Once a bound comes to
the value in another world, the nogood hears of it. -/
theorem misses_no_unit_of_guarded : ∃ (n n' s s' : Network) (posted : Postings) (id : PropId) (k l : Literal)
    (after after' : Array Notice), n.Deepened posted ∧ posted id = some (.nogood ⟨[k, l]⟩) ∧
      n.propagate #[] = .ok (.ok (), n') after ∧ k.truth n'.model = .ok (some true) ∧
      l.truth n'.model = .ok none ∧ (∃ lb ub, n'.model.Ranges l.var lb ub ∧ lb < l.value ∧ l.value < ub) ∧
      s.Deepened posted ∧ s.propagate #[] = .ok (.ok (), s') after' ∧ k.truth s'.model = .ok (some true) ∧
      l.truth s'.model = .ok (some false) := by
  let k : Literal := ⟨⟨1⟩, 1, false⟩
  let l : Literal := ⟨⟨0⟩, 5, true⟩
  have heval : (guarded?.bind fun g => (g.1.decideAll [(⟨1⟩, .atLeast 2)]).bind fun n =>
      n.propagate.outcome?.bind fun t => t.1.toOption.bind fun _ =>
        (Network.narrow { t.2 with model := t.2.model.pushWorld } ⟨0⟩ (.atMost 5) .decision).outcome?.bind fun u =>
          u.2.propagate.outcome?.bind fun v => v.1.toOption.map fun _ => (g.2,
            [(k.truth t.2.model).toOption, (l.truth t.2.model).toOption, (k.truth v.2.model).toOption],
            (v.2.model.ub l.var).toOption)) =
      some (⟨[k, l]⟩, [some (some true), some none, some (some true)], some 4) := by
    decide +kernel
  simp only [Option.bind_eq_some_iff, Option.map_eq_some_iff, Prod.mk.injEq, List.cons.injEq, and_true,
    toOption_eq_some] at heval
  obtain ⟨⟨n₀, c⟩, hguarded, n, hn, ⟨outcome, n'⟩, hrun, _, houtcome, ⟨_, s⟩, hnarrow, ⟨outcome', s'⟩, hrun', _,
    houtcome', rfl, ⟨hk, hl, hk'⟩, hub⟩ := heval
  obtain rfl : outcome = .ok () := houtcome
  obtain rfl : outcome' = .ok () := houtcome'
  obtain ⟨after, hrun⟩ := outcome?_eq_some hrun
  obtain ⟨_, hnarrow⟩ := outcome?_eq_some hnarrow
  obtain ⟨after', hrun'⟩ := outcome?_eq_some hrun'
  obtain ⟨posted, id, hdriven, hposted⟩ := driven_of_guarded hguarded
  have hn := (hdriven.decideAll hn).deepened
  have hs := (hn.propagate hrun).pushWorld.decide hnarrow
  refine ⟨n, n', s, s', posted, id, k, l, after, after', hn, hposted, hrun, hk, hl, ?_, hs, hrun', hk', ?_⟩
  · obtain ⟨-, hunit⟩ := hn.misses_no_unit hrun hposted
    rcases hunit [k] l [] rfl (by simpa using hk) with hfalse | ⟨-, -, hbetween⟩
    · cases hl.symm.trans hfalse
    · exact hbetween
  · obtain ⟨-, hunit⟩ := hs.misses_no_unit hrun' hposted
    rcases hunit [k] l [] rfl (by simpa using hk') with hfalse | ⟨-, -, lb, ub, hranges, -, hlt⟩
    · exact hfalse
    · cases hub.symm.trans hranges.2
      exact absurd hlt (by decide)

end Network

end FiniteDomain
