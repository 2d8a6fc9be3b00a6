import FiniteDomain.Proofs.Domain.Creation
import FiniteDomain.Proofs.Domain.Confinement
import FiniteDomain.Proofs.Model.Worlds

/-!
# Edits of a model

A model is built and changed by the creation of variables, by narrowings, by the opening and closing of worlds,
and by the use of its store for other purposes. Whatever the order of these edits, no two domains ever share a
cell, and no edit but a write of its own touches a cell that belongs to no domain.

* `Edit`: the operations;
* `Edit.spec`: what each of them does.
-/

namespace FiniteDomain

namespace Model

/-! ### Cells of their own -/

/-- The cells of the domains exist, and no two domains share one. -/
structure Separate (m : Model) : Prop where
  linked : m.store.Linked
  housed : ∀ c, m.Owns c → c < m.store.slots.size
  apart : ∀ (i j : Nat) (y z : Variable) (c : Nat), m.vars[i]? = some y → m.vars[j]? = some z →
    y.domain.Owns c → z.domain.Owns c → i = j

variable {m m' m'' : Model} {P : Nat → Prop}

/-- A model is well-formed if its domains are, and their cells are their own. -/
theorem Separate.wellFormed (h : m.Separate)
    (hd : ∀ (i : Nat) (y : Variable), m.vars[i]? = some y → y.domain.WellFormed m.store) : m.WellFormed :=
  ⟨h.linked, hd, h.apart⟩

/-- What became of a model by edits that write the cells of the set, beside those of domains and new ones. -/
structure Edited (P : Nat → Prop) (m m' : Model) : Prop where
  separate : m'.Separate
  vars : ∀ (i : Nat) (y : Variable), m.vars[i]? = some y → m'.vars[i]? = some y
  owns : ∀ c, m'.Owns c → m.Owns c ∨ m.store.slots.size ≤ c
  steps : Store.Steps (fun c => P c ∨ m.Owns c ∨ m.store.slots.size ≤ c) m.store m'.store

theorem Edited.trans (h1 : Edited P m m') (h2 : Edited P m' m'') (hl : m.store.Linked) : Edited P m m'' := by
  have hsize := h1.steps.size_le hl
  have howns : ∀ c, m'.Owns c ∨ m'.store.slots.size ≤ c → m.Owns c ∨ m.store.slots.size ≤ c := by
    rintro c (hc | hc)
    · exact h1.owns c hc
    · exact .inr (Nat.le_trans hsize hc)
  refine ⟨h2.separate, fun i y hy => h2.vars i y (h1.vars i y hy), fun c hc => howns c (h2.owns c hc), ?_⟩
  exact h1.steps.trans (h2.steps.mono fun c hc => hc.imp_right (howns c))

/-- The variables stay, and the store takes steps that spare what belongs to others. -/
theorem Separate.keep (h : m.Separate) {t : Store Datum}
    (hs : Store.Steps (fun c => P c ∨ m.Owns c ∨ m.store.slots.size ≤ c) m.store t) (events : Array Event)
    (generated : Nat) : Edited P m { m with store := t, events, generated } :=
  ⟨⟨hs.linked h.linked, fun c hc => Nat.lt_of_lt_of_le (h.housed c hc) (hs.size_le h.linked), h.apart⟩,
    fun _ _ hy => hy, fun _ hc => .inl hc, hs⟩

/-- A variable with a domain in new cells. -/
theorem Separate.create (h : m.Separate) {d : Domain} {t : Store Datum} (hd : d.Fresh m.store t) (name : String) :
    Edited P m (m.append name d t).2 := by
  have hget : ∀ (i : Nat) (y : Variable), (m.append name d t).2.vars[i]? = some y →
      m.vars[i]? = some y ∨ (i = m.vars.size ∧ y.domain = d) := by
    intro i y hy
    simp only [append, Array.getElem?_push] at hy
    split at hy
    · rename_i hi
      cases hy
      exact .inr ⟨hi, rfl⟩
    · exact .inl hy
  have hold : ∀ (i : Nat) (y : Variable) (c : Nat), m.vars[i]? = some y → y.domain.Owns c → ¬d.Owns c := by
    intro i y c hy hc hdc
    exact Nat.lt_irrefl _ (Nat.lt_of_lt_of_le (h.housed c ⟨i, y, hy, hc⟩) (hd.low c hdc))
  have hsize := hd.steps.size_le h.linked
  refine ⟨⟨hd.steps.linked h.linked, ?_, ?_⟩, ?_, ?_, hd.steps.mono fun c hc => .inr (.inr hc)⟩
  · rintro c ⟨i, y, hy, hc⟩
    rcases hget i y hy with hy | ⟨-, rfl⟩
    · exact Nat.lt_of_lt_of_le (h.housed c ⟨i, y, hy, hc⟩) hsize
    · exact hd.high c hc
  · intro i j y z c hy hz hyc hzc
    rcases hget i y hy with hy | ⟨hi, rfl⟩ <;> rcases hget j z hz with hz | ⟨hj, hzd⟩
    · exact h.apart i j y z c hy hz hyc hzc
    · exact absurd (hzd ▸ hzc) (hold i y c hy hyc)
    · exact absurd hyc (hold j z c hz hzc)
    · rw [hi, hj]
  · intro i y hy
    obtain ⟨hlt, -⟩ := Array.getElem?_eq_some_iff.mp hy
    exact (Array.getElem?_push_lt hlt).trans ((Array.getElem?_eq_getElem hlt).symm.trans hy)
  · rintro c ⟨i, y, hy, hc⟩
    rcases hget i y hy with hy | ⟨-, rfl⟩
    · exact .inl ⟨i, y, hy, hc⟩
    · exact .inr (hd.low c hc)

/-! ### Edits -/

/-- One operation on a model, of those that are at hand outside of a search. Cells of the store that belong to no
domain may be written if they are in the set. -/
inductive Edit (P : Nat → Prop) (m : Model) : Model → Prop
  | newBounded {name : String} {lb ub : Int} {x : VarId} {m' : Model} :
      m.newBounded name lb ub = .ok (x, m') → Edit P m m'
  | newEnumerated {name : String} {lb ub : Int} {x : VarId} {m' : Model} :
      m.newEnumerated name lb ub = .ok (x, m') → Edit P m m'
  | newInteger {name : String} {lb ub : Int} {x : VarId} {m' : Model} :
      m.newInteger name lb ub = .ok (x, m') → Edit P m m'
  | newOfValues {name : String} {values : List Int} {x : VarId} {m' : Model} :
      m.newOfValues name values = .ok (x, m') → Edit P m m'
  | newConstant (value : Int) : Edit P m (m.newConstant value).2
  | newAnonymous (lb ub : Int) : Edit P m (m.newAnonymous lb ub).2
  | apply {x : VarId} {μ : Mutation} {cause : Cause} {result : Except Contradiction Bool} {m' : Model} :
      m.apply x μ cause = .ok (result, m') → Edit P m m'
  | applySilently {x : VarId} {μ : Mutation} {update : Update} {m' : Model} :
      m.applySilently x μ = .ok (update, m') → Edit P m m'
  | pushWorld : Edit P m m.pushWorld
  | popWorld {m' : Model} : m.popWorld = .ok m' → Edit P m m'
  | popUntil {target : Nat} {m' : Model} : m.popUntil target = .ok m' → Edit P m m'
  | commitWorld {m' : Model} : m.commitWorld = .ok m' → Edit P m m'
  | makeCells (values : List Datum) : Edit P m { m with store := m.store.grow values }
  | writeCell (cell : Nat) (value : Datum) : P cell → Edit P m (m.setCell cell value)

theorem newBounded_spec (h : m.Separate) {name : String} {lb ub : Int} {x : VarId}
    (hm : m.newBounded name lb ub = .ok (x, m')) : Edited P m m' := by
  rw [newBounded] at hm
  split at hm
  · cases hm
  · cases hm
    exact h.create (Domain.bounded_fresh m.store lb ub) name

theorem newEnumerated_spec (h : m.Separate) {name : String} {lb ub : Int} {x : VarId}
    (hm : m.newEnumerated name lb ub = .ok (x, m')) : Edited P m m' := by
  rw [newEnumerated] at hm
  split at hm
  · cases hm
  · cases hm
    exact h.create (Domain.enumerated_fresh m.store (interval lb ub)) name

theorem newInteger_spec (h : m.Separate) {name : String} {lb ub : Int} {x : VarId}
    (hm : m.newInteger name lb ub = .ok (x, m')) : Edited P m m' := by
  rw [newInteger] at hm
  split at hm
  · exact newEnumerated_spec h hm
  · exact newBounded_spec h hm

theorem newOfValues_spec (h : m.Separate) {name : String} {values : List Int} {x : VarId}
    (hm : m.newOfValues name values = .ok (x, m')) : Edited P m m' := by
  rw [newOfValues] at hm
  dsimp only at hm
  split at hm
  · cases hm
  · cases hm
    exact h.create (Domain.enumerated_fresh m.store (sortedValues values)) name

theorem newAnonymous_spec (h : m.Separate) (lb ub : Int) : Edited P m (m.newAnonymous lb ub).2 := by
  have hnamed : Edited P m { m with generated := m.generated + 1 } := h.keep .refl m.events (m.generated + 1)
  rw [newAnonymous]
  dsimp only
  split
  · rename_i hm
    exact hnamed.trans (newInteger_spec hnamed.separate hm) h.linked
  · exact hnamed

/-- A narrowing leaves its mark in the store and in the events. -/
theorem exists_of_apply {x : VarId} {μ : Mutation} {cause : Cause} {result : Except Contradiction Bool}
    (hm : m.apply x μ cause = .ok (result, m')) :
    ∃ y u t events, m.vars[x.index]? = some y ∧ y.domain.apply m.store μ = .ok (u, t) ∧
      m' = { m with store := t, events } := by
  obtain ⟨name, store, vars, events, generated⟩ := m
  simp only [apply] at hm
  split at hm
  · cases hm
  · rename_i y hy
    split at hm
    · cases hm
    · rename_i t ht
      cases hm
      exact ⟨y, _, t, _, hy, ht, rfl⟩
    · rename_i kind t ht
      cases hm
      exact ⟨y, _, t, _, hy, ht, rfl⟩
    · rename_i t ht
      cases hm
      exact ⟨y, _, t, _, hy, ht, rfl⟩

theorem apply_edited (h : m.Separate) {x : VarId} {μ : Mutation} {cause : Cause}
    {result : Except Contradiction Bool} (hm : m.apply x μ cause = .ok (result, m')) : Edited P m m' := by
  obtain ⟨y, u, t, events, hy, ht, rfl⟩ := exists_of_apply hm
  exact h.keep (.writes .refl ((Domain.confined_apply y.domain m.store μ u t ht).mono
    fun c hc => .inr (.inl ⟨x.index, y, hy, hc⟩))) events m.generated

theorem applySilently_edited (h : m.Separate) {x : VarId} {μ : Mutation} {update : Update}
    (hm : m.applySilently x μ = .ok (update, m')) : Edited P m m' := by
  rw [applySilently] at hm
  obtain ⟨y, hy, hm⟩ := bind_eq_ok.mp hm
  obtain ⟨⟨u, t⟩, ht, hm⟩ := bind_eq_ok.mp hm
  cases hm
  have hy : m.vars[x.index]? = some y := by
    rw [variableOf] at hy
    split at hy
    · rename_i hget
      cases hy
      exact hget
    · cases hy
  exact h.keep (.writes .refl ((Domain.confined_apply y.domain m.store μ _ _ ht).mono
    fun c hc => .inr (.inl ⟨x.index, y, hy, hc⟩))) m.events m.generated

/-- **What an edit does.** -/
theorem Edit.spec (h : m.Separate) (he : Edit P m m') : Edited P m m' := by
  cases he with
  | newBounded hm => exact newBounded_spec h hm
  | newEnumerated hm => exact newEnumerated_spec h hm
  | newInteger hm => exact newInteger_spec h hm
  | newOfValues hm => exact newOfValues_spec h hm
  | newConstant value => exact h.create (Domain.bounded_fresh m.store value value) _
  | newAnonymous lb ub => exact newAnonymous_spec h lb ub
  | apply hm => exact apply_edited h hm
  | applySilently hm => exact applySilently_edited h hm
  | pushWorld => exact h.keep (.push .refl) m.events m.generated
  | popWorld hm =>
    obtain ⟨t, ht, hm⟩ := bind_eq_ok.mp hm
    cases hm
    exact h.keep (.pop .refl ht) m.events m.generated
  | popUntil hm =>
    obtain ⟨t, ht, hm⟩ := bind_eq_ok.mp hm
    cases hm
    exact h.keep (.popMany .refl (Store.popUntil_eq_ok.mp ht).2) m.events m.generated
  | commitWorld hm =>
    obtain ⟨t, ht, hm⟩ := bind_eq_ok.mp hm
    cases hm
    exact h.keep (.commit .refl ht) m.events m.generated
  | makeCells values => exact h.keep (.grow values .refl) m.events m.generated
  | writeCell cell value hc => exact h.keep (.set cell value .refl (.inl hc)) m.events m.generated

end Model

end FiniteDomain
