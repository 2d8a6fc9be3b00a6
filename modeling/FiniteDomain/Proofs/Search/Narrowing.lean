import FiniteDomain.Proofs.Propagation.Fixpoint
import FiniteDomain.Search.Step

/-!
# Narrowings between propagations

A search narrows domains itself: it asks for a better objective, and it takes the alternatives of decisions.

* `improve_spec`, `improveAndPropagate_spec`: the objective;
* `takeNext_spec`: an alternative.
-/

namespace FiniteDomain

open Activity

/-- The assignment is better than the best value, if there is an objective and a best value. -/
def Improves (objective : Option Objective) (best : Option Int) (a : Assignment) : Prop :=
  ∀ o b, objective = some o → best = some b → o.Better (a o.var) b

/-- Every value left of the objective is better than the best one. -/
def Model.Beats (m : Model) (objective : Option Objective) (best : Option Int) : Prop :=
  ∀ o b, objective = some o → best = some b → ∀ v, m.Has o.var v → o.Better v b

namespace Objective

theorem cut_not_removes {o : Objective} {best : Int} {μ : Mutation} (h : o.cut best = .ok μ) : ¬μ.Removes := by
  cases o <;> simp only [cut] at h <;> split at h <;> cases h <;> exact id

/-- Nothing is better than a value that cannot be improved on. -/
theorem not_better_of_cut {o : Objective} {best : Int} {c : Conflict} (h : o.cut best = .error c) {v : Int}
    (hv : Value.Fits v) (hb : Value.Fits best) : ¬o.Better v best := by
  have hnot : ∀ w, Value.ofInt? w = none → ¬Value.Fits w := by
    intro w hw hf
    rw [Value.ofInt?, if_pos hf] at hw
    cases hw
  cases o with
  | minimize x =>
    simp only [cut] at h
    split at h
    · cases h
    · rename_i heq
      have := hnot _ heq
      simp only [Value.Fits] at this hv hb
      simp only [Better]
      omega
  | maximize x =>
    simp only [cut] at h
    split at h
    · cases h
    · rename_i heq
      have := hnot _ heq
      simp only [Value.Fits] at this hv hb
      simp only [Better]
      omega

end Objective

namespace Network

variable [Tolerance] {r : Roster} {n n' : Network}

/-- A narrowing in the name of nobody on the agenda. -/
theorem Wired.narrows (h : n.Wired r) (hs : r.Suits n.model) {p : Cause → Prop} {m' : Model}
    (hn : Model.Narrows p n.model m') : Course r n { n with model := m' } :=
  ⟨⟨h.member, h.removed, h.watched, h.queued, h.waiting, h.owing, h.calm⟩, .of_narrows hs hn, rfl⟩

omit [Tolerance] in
theorem Attended.narrows (h : Attended r n) {p : Cause → Prop} {m' : Model} (hn : Model.Narrows p n.model m')
    (hp : ∀ id, ¬p (.propagator id)) : Attended r { n with model := m' } := by
  intro id e he
  exact (h id e he).imp_right fun hm => hm.narrows hn fun cause hc heq => hp id (heq ▸ hc)

/-- What a step of the search that is to keep the assignments of `H` comes to. -/
def Keeps (r : Roster) (H : Assignment → Prop) (n : Network) : Except Contradiction Unit × Network → Prop
  | (.ok (), n') => Course r n n' ∧ n'.failed = n.failed ∧ Attended r n' ∧
      ∀ a, H a → n.model.Allows a → n'.model.Allows a
  | (.error _, n') => Course r n n' ∧ ∀ a, H a → ¬n.model.Allows a

/-- The best value is one that a variable can take. -/
def BestFits (best : Option Int) : Prop := ∀ b, best = some b → Value.Fits b

theorem improve_spec (h : n.Wired r) (hs : r.Suits n.model) (ha : Attended r n) {objective : Option Objective}
    {best : Option Int} (ho : ∀ o, objective = some o → n.model.owns o.var = true) (hb : BestFits best)
    {cause : Cause} (hc : ∀ id, cause ≠ .propagator id) :
    (n.improve objective best cause).Quiet fun s => Keeps r (Improves objective best) n s ∧
      (s.1 = .ok () → s.2.model.Beats objective best) := by
  have hrefl : Course r n n := ⟨h, .refl hs, rfl⟩
  rw [improve.eq_def]
  split
  · rename_i o b
    split
    · rename_i conflict hcut
      refine .pure ⟨⟨hrefl, ?_⟩, fun hc => by cases hc⟩
      intro a himp hall
      refine o.not_better_of_cut hcut ?_ (hb b rfl) (himp o b rfl rfl)
      exact hs.wellFormed.fits (hall _ (ho o rfl))
    · rename_i μ hcut
      refine Quiet.bind (onModel_quiet n (Model.narrow_spec hs.wellFormed (ho o rfl) μ cause)) ?_
      rintro ⟨outcome, _⟩ ⟨m', hn, rfl⟩
      rcases hn with ⟨heq, hnone⟩ | ⟨changed, m', heq, hn⟩
      · cases heq
        refine .pure ⟨⟨hrefl, ?_⟩, fun hc => by cases hc⟩
        intro a himp hall
        exact hnone _ (Model.target_of_keeps (hall _ (ho o rfl)) ((o.cut_keeps_iff hcut _).mpr (himp o b rfl rfl)))
      · cases heq
        refine .pure ⟨⟨h.narrows hs hn.narrows, rfl, ha.narrows hn.narrows (fun id heq => hc id heq.symm), ?_⟩, ?_⟩
        · intro a himp hall
          exact hn.allows hall ((o.cut_keeps_iff hcut _).mpr (himp o b rfl rfl))
        · rintro - o' b' ho' hb' v hv
          cases ho'
          cases hb'
          exact (o.cut_keeps_iff hcut v).mp (((hn.has_iff v).mp hv).keeps (o.cut_not_removes hcut))
  · rename_i hno
    refine .pure ⟨⟨hrefl, rfl, ha, fun _ _ hall => hall⟩, ?_⟩
    intro _ o b ho hb
    exact absurd hb (hno o b ho)

/-- What a search comes to that asks for a better value and propagates. -/
def Reaches (r : Roster) (objective : Option Objective) (best : Option Int) (n : Network) :
    Except Contradiction Unit × Network → Prop
  | (.ok (), n') => Course r n n' ∧ n'.failed = false ∧ r.Settles n'.model ∧ n'.model.events = #[] ∧
      n'.model.Beats objective best ∧
      ∀ a, r.Admits a → Improves objective best a → n.model.Allows a → n'.model.Allows a
  | (.error _, n') => Course r n n' ∧ ∀ a, r.Admits a → Improves objective best a → ¬n.model.Allows a

theorem improveAndPropagate_spec (h : n.Wired r) (hst : n.started = true) (hf : n.failed = false)
    (hs : r.Suits n.model) (ha : Attended r n) {objective : Option Objective} {best : Option Int}
    (ho : ∀ o, objective = some o → n.model.owns o.var = true) (hb : BestFits best) {cause : Cause}
    (hc : ∀ id, cause ≠ .propagator id) :
    (n.improveAndPropagate objective best cause).Quiet (Reaches r objective best n) := by
  refine Quiet.bind (improve_spec h hs ha ho hb hc) ?_
  rintro ⟨outcome, n1⟩ ⟨hkeeps, hbeats⟩
  cases outcome with
  | error c => exact .pure ⟨hkeeps.1, fun a _ => hkeeps.2 a⟩
  | ok u =>
    obtain ⟨hcourse, hfailed, hattended, hkeeps⟩ := hkeeps
    refine Quiet.mono (propagate_spec hcourse.wired (hcourse.started.trans hst) (hfailed.trans hf)
      hcourse.shrinks.suits hattended) ?_
    rintro ⟨outcome, n2⟩ hp
    cases outcome with
    | error c => exact ⟨hcourse.trans hp.1, fun a hr himp hall => hp.2 a hr (hkeeps a himp hall)⟩
    | ok u =>
      obtain ⟨hcourse2, hf, hsettles, hevents, hkeeps2⟩ := hp
      refine ⟨hcourse.trans hcourse2, hf, hsettles, hevents, ?_, fun a hr himp hall => hkeeps2 a hr (hkeeps a himp hall)⟩
      exact fun o b ho hb v hv => hbeats rfl o b ho hb v (hcourse2.shrinks.has _ v hv)

end Network

/-! ### Decisions -/

namespace Decision

/-- Each alternative leaves just what it keeps. -/
def Exact (d : Decision) (m : Model) : Prop :=
  ∀ μ, (μ = d.split.choice d.value ∨ d.split.refutation d.value = .ok μ) → ∀ v, m.Target d.var μ v → μ.Keeps v

theorem mutation_keeps_iff {d : Decision} {μ : Mutation} (h : d.mutation = .ok μ) (h0 : d.tried ≠ 0)
    (a : Assignment) : μ.Keeps (a d.var) ↔ d.Holds a := by
  rw [mutation, onFirst] at h
  rw [Holds]
  by_cases h1 : d.tried = 1
  · rw [if_pos (by simp [h1])] at h
    cases h
    rw [if_pos (by omega), d.split.choice_keeps_iff]
  · rw [if_neg (by simp [h1])] at h
    rw [if_neg (by omega), Split.refutation_keeps_iff h]

theorem mutation_cases {d : Decision} {μ : Mutation} (h : d.mutation = .ok μ) :
    μ = d.split.choice d.value ∨ d.split.refutation d.value = .ok μ := by
  rw [mutation] at h
  split at h
  · cases h
    exact .inl rfl
  · exact .inr h

/-- The decision parts the domain of its variable: each alternative has a value, and each leaves just what it
keeps. -/
structure Parts (d : Decision) (m : Model) : Prop where
  first : ∃ v, m.Has d.var v ∧ d.split.FirstHolds d.value v
  second : ∃ v, m.Has d.var v ∧ ¬d.split.FirstHolds d.value v
  exact : d.Exact m

namespace Parts

variable {d : Decision} {m m' : Model}

theorem owns (h : d.Parts m) : m.owns d.var = true := by
  obtain ⟨v, hv, -⟩ := h.first
  exact hv.owns

theorem free (h : d.Parts m) (hw : m.WellFormed) : ¬m.Fixed d.var := by
  intro hf
  obtain ⟨v, hv, hfirst⟩ := h.first
  obtain ⟨w, hw', hsecond⟩ := h.second
  exact hsecond (hw.eq_of_fixed hf hv hw' ▸ hfirst)

theorem agrees (h : d.Parts m) (ha : m.Agrees m') : d.Parts m' := by
  obtain ⟨v, hv, hfirst⟩ := h.first
  obtain ⟨w, hw, hsecond⟩ := h.second
  exact ⟨⟨v, (ha.has_iff _ _).mpr hv, hfirst⟩, ⟨w, (ha.has_iff _ _).mpr hw, hsecond⟩,
    fun μ hμ v ht => h.exact μ hμ v ((ha.target_iff _ _ _).mp ht)⟩

theorem next (h : d.Parts m) : ({ d with tried := d.tried + 1 } : Decision).Parts m := ⟨h.first, h.second, h.exact⟩

/-- The bound that the refutation sets is one that a variable can take. -/
theorem exists_refutation (h : d.Parts m) (hw : m.WellFormed) : ∃ μ, d.split.refutation d.value = .ok μ := by
  obtain ⟨v, hv, hfirst⟩ := h.first
  obtain ⟨w, hw', hsecond⟩ := h.second
  have hv := hw.fits hv
  have hw := hw.fits hw'
  simp only [Value.Fits] at hv hw
  cases hs : d.split with
  | assign | remove => exact ⟨_, rfl⟩
  | lower =>
    rw [hs] at hfirst hsecond
    simp only [Split.FirstHolds] at hfirst hsecond
    have hfits : Value.Fits (d.value + 1) := by simp only [Value.Fits]; omega
    exact ⟨.atLeast (d.value + 1), by rw [Split.refutation, successor_eq_ok hfits]; rfl⟩
  | upper =>
    rw [hs] at hfirst hsecond
    simp only [Split.FirstHolds] at hfirst hsecond
    have hfits : Value.Fits (d.value - 1) := by simp only [Value.Fits]; omega
    exact ⟨.atMost (d.value - 1), by rw [Split.refutation, predecessor_eq_ok hfits]; rfl⟩

theorem exists_mutation (h : d.Parts m) (hw : m.WellFormed) : ∃ μ, d.mutation = .ok μ := by
  rw [mutation]
  split
  · exact ⟨_, rfl⟩
  · exact h.exists_refutation hw

end Parts

/-- What taking the next alternative comes to. -/
def Alternates (d : Decision) (m : Model) (s : Except Contradiction Unit × Decision × Model) : Prop :=
  s.2.1 = { d with tried := d.tried + 1 } ∧ ∃ μ, s.2.1.mutation = .ok μ ∧
    (((∃ c, s.1 = .error c) ∧ s.2.2 = m ∧ ∀ v, ¬m.Target d.var μ v) ∨
      s.1 = .ok () ∧ ∃ changed, Model.Narrowed d.var μ .decision m changed s.2.2)

theorem takeNext_spec [Tolerance] {d : Decision} {m : Model} (hw : m.WellFormed) (hd : d.Parts m)
    (hlt : d.tried < 2) : (d.takeNext m).Quiet (Alternates d m) := by
  obtain ⟨μ, hμ⟩ := hd.next.exists_mutation hw
  rw [takeNext, if_pos (show d.hasNext = true from decide_eq_true hlt)]
  refine Quiet.bind (.answer hμ rfl) ?_
  rintro _ rfl
  refine Quiet.bind (Model.narrow_spec hw hd.owns μ .decision) ?_
  rintro s (⟨rfl, hnone⟩ | ⟨changed, m', rfl, hn⟩)
  · exact .pure ⟨rfl, μ, hμ, .inl ⟨⟨_, rfl⟩, rfl, hnone⟩⟩
  · exact .pure ⟨rfl, μ, hμ, .inr ⟨rfl, changed, hn⟩⟩

end Decision

namespace Network

variable [Tolerance] {r : Roster} {n n' : Network}

/-- What taking the next alternative of a decision comes to. -/
def Takes (r : Roster) (d : Decision) (n : Network) : Except Contradiction Unit × Decision × Network → Prop
  | (.ok (), d', n') => d' = { d with tried := d.tried + 1 } ∧ Course r n n' ∧ n'.failed = n.failed ∧
      Attended r n' ∧ (∀ a, d'.Holds a → n.model.Allows a → n'.model.Allows a) ∧ ∀ a, n'.model.Allows a → d'.Holds a
  | (.error _, d', n') => d' = { d with tried := d.tried + 1 } ∧ n' = n ∧ ∀ a, d'.Holds a → ¬n.model.Allows a

theorem takeNext_spec (h : n.Wired r) (hs : r.Suits n.model) (ha : Attended r n) {d : Decision}
    (hd : d.Parts n.model) (hlt : d.tried < 2) : (n.takeNext d).Quiet (Takes r d n) := by
  rw [takeNext]
  refine Quiet.bind (onModel_quiet (R := fun s => Decision.Alternates d n.model (s.1.1, s.1.2, s.2)) n ?_) ?_
  · exact Quiet.bind (Decision.takeNext_spec hs.wellFormed hd hlt) fun s hs => .pure hs
  rintro ⟨⟨outcome, d'⟩, _⟩ ⟨m', ⟨rfl, μ, hμ, hcase⟩, rfl⟩
  have hμ : ({ d with tried := d.tried + 1 } : Decision).mutation = .ok μ := hμ
  have hkeeps := Decision.mutation_keeps_iff hμ (Nat.succ_ne_zero _)
  have hcases : μ = d.split.choice d.value ∨ d.split.refutation d.value = .ok μ := by
    have := Decision.mutation_cases hμ
    exact this
  rcases hcase with ⟨⟨c, rfl⟩, rfl, hnone⟩ | ⟨rfl, changed, hn⟩
  · refine .pure ⟨rfl, rfl, fun a ha hall => ?_⟩
    exact hnone _ (Model.target_of_keeps (hall _ hd.owns) ((hkeeps a).mpr ha))
  · refine .pure ⟨rfl, h.narrows hs hn.narrows, rfl, ha.narrows hn.narrows (fun id heq => by cases heq), ?_, ?_⟩
    · exact fun a hd hall => hn.allows hall ((hkeeps a).mpr hd)
    · intro a hall
      refine (hkeeps a).mp (hd.exact μ hcases _ ((hn.has_iff _).mp ?_))
      exact hall _ ((hn.narrows.owns_eq _).trans hd.owns)

end Network

end FiniteDomain
