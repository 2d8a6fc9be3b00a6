import FiniteDomain.Proofs.Constraint.Basic
import FiniteDomain.Proofs.Constraint.Passes

/-!
# Constraints that are still

A run of a propagator that ends without asking not to be woken again leaves its constraint *still*: there is nothing
for the propagator to do, and there will be nothing while no event comes that it is woken by. The exception are the
disequalities that wait for instantiations only. Where a variable is an interval, a value that has to go may stand
between its bounds, and a bound that reaches it does not wake them. All other constraints are `Alert`.

* `Constraint.run_stills`: after a run;
* `Constraint.Still.unheard`: while no event comes;
* `Constraint.Still.succeeds`, `Constraint.Still.leaves`: another run.
-/

namespace FiniteDomain

open FiniteDomain.Filter

/-- No assignment: of a filter that works for none only what it does to the model is to be shown. -/
abbrev Nowhere : Assignment → Prop := fun _ => False

/-- An interval that is not fixed has two values next to each other. -/
theorem Model.WellFormed.exists_adjacent {m : Model} (hw : m.WellFormed) {x : VarId} (hx : m.owns x = true)
    (hfree : ¬m.Fixed x) (hbounded : m.isEnumerated x = .ok false) : ∃ v, m.Has x v ∧ m.Has x (v + 1) := by
  obtain ⟨y, hy⟩ := owns_iff.mp hx
  rw [isEnumerated_eq hy, Except.ok.injEq, Domain.isEnumerated, Option.isSome_eq_false_iff, Option.isNone_iff_eq_none]
    at hbounded
  have hd := hw.domains _ y hy
  rw [fixed_iff hy] at hfree
  simp only [has_iff hy]
  have hle := hd.lb_le_ub
  exact ⟨_, hd.has_lb, hd.has_of_bounded hbounded (by omega) (by omega)⟩

/-- The value is a bound of a variable that admits no holes. -/
def Model.Edge (m : Model) (x : VarId) (v : Int) : Prop :=
  m.isEnumerated x = .ok false ∧ (m.lb x = .ok v ∨ m.ub x = .ok v)

/-- Of an interval only a bound can be removed. -/
theorem Model.inert_of_not_edge {m : Model} {x : VarId} {v : Int} (hbounded : m.isEnumerated x = .ok false)
    (hv : ¬m.Edge x v) : m.Inert x (.remove v) := by
  obtain ⟨y, hy⟩ := owns_iff.mp (owns_of_isEnumerated hbounded)
  obtain ⟨hlb, hub⟩ := not_or.mp fun hbound => hv ⟨hbounded, hbound⟩
  rw [lb_eq hy, Except.ok.injEq] at hlb
  rw [ub_eq hy, Except.ok.injEq] at hub
  rw [isEnumerated_eq hy, Except.ok.injEq, Domain.isEnumerated, Option.isSome_eq_false_iff, Option.isNone_iff_eq_none]
    at hbounded
  exact fun w hw => (target_iff hy).mpr ⟨(has_iff hy).mp hw, .inr ⟨hbounded, trivial, hlb, hub⟩⟩

/-! ### Disequalities -/

namespace Unequal

/-- The constant is left alone between the bounds of an interval. -/
def Still (c : Unequal) (m : Model) : Prop := ¬m.Fixed c.var ∧ m.isEnumerated c.var = .ok false

variable {c : Unequal}

theorem filter_stills [Tolerance] {start : Scene} (hw : start.model.WellFormed) (hx : start.model.owns c.var = true) :
    Leads Nowhere start c.filter start fun _ s => s.passive = true ∨ c.Still s.model := by
  refine Leads.narrow_bind (.refl hw) hx (fun _ h => h.elim) fun changed m' hn hin => ?_
  cases changed with
  | true => exact Leads.setPassive hin (.inl rfl)
  | false =>
    obtain ⟨b, hb, hbi⟩ := hin.wellFormed.contains_spec (hin.owns hx) c.constant
    refine Leads.ask_bind hin hb ?_
    cases b with
    | false => exact Leads.setPassive hin (.inl rfl)
    | true =>
      have hhas : m'.Has c.var c.constant := hbi.mp rfl
      refine Leads.pure hin (.inr ⟨fun hf => hn.keeps_of_fixed hw hf hhas rfl, ?_⟩)
      obtain ⟨holes, hholes⟩ := Model.exists_isEnumerated (hin.owns hx)
      cases holes with
      | false => exact hholes
      | true =>
        rw [hn.narrows.within.isEnumerated_eq] at hholes
        exact absurd ((hn.has_iff _).mp hhas) (Model.not_target_remove hholes)

theorem Still.unheard {m m' : Model} (h : c.Still m) {told : List Event} (hr : m.Recounts told m')
    (hs : Silent told c.var .instantiation) : c.Still m' :=
  ⟨fun hf => h.1 (hr.unfixed _ hs hf), (hr.isEnumerated_eq _).trans h.2⟩

/-- The constant could not be removed even now. -/
def Clear (c : Unequal) (m : Model) : Prop := ¬m.Edge c.var c.constant

theorem Still.leaves {m : Model} (h : c.Still m) (hw : m.WellFormed) (hx : m.owns c.var = true) (hclear : c.Clear m) :
    c.filter.Leaves m := by
  obtain ⟨b, hb, -⟩ := hw.contains_spec hx c.constant
  refine .bind (.narrow hw hx (Model.inert_of_not_edge h.2 hclear)) (.bind (.ask hb) ?_)
  cases b with
  | true => exact .pure m
  | false => exact .setPassive m

/-- Another value than the constant is left. -/
theorem Still.succeeds {m : Model} (h : c.Still m) (hw : m.WellFormed) (hx : m.owns c.var = true) :
    c.filter.Succeeds m := by
  obtain ⟨v, hv, hne⟩ : ∃ v, m.Has c.var v ∧ v ≠ c.constant := by
    refine Classical.byContradiction fun hnone => h.1 (hw.fixed_of_unique hx (v := c.constant) fun w hw' => ?_)
    exact Classical.byContradiction fun hne => hnone ⟨w, hw', hne⟩
  obtain ⟨a, ha, rfl⟩ := hw.exists_allows_eq hv
  let := Tolerance.strict
  exact .of_leads (fun id => filter_spec hw hx rfl) hne ha

end Unequal

namespace UnequalSum

/-- Whatever is fixed, the value that would complete the sum cannot be taken from the other variable. -/
def Still (c : UnequalSum) (m : Model) : Prop :=
  (m.Fixed c.x → ∀ v, m.Has c.x v → m.Inert c.y (.remove (c.constant - v))) ∧
    (¬m.Fixed c.x → m.Fixed c.y → ∀ v, m.Has c.y v → m.Inert c.x (.remove (c.constant - v)))

variable {c : UnequalSum}

theorem removeSupport_stills [Tolerance] {start s : Scene} (hin : Within Nowhere start s) {fixed other : VarId}
    (hf : start.model.owns fixed = true) (ho : start.model.owns other = true) (hfix : s.model.Fixed fixed) :
    Leads Nowhere start (c.removeSupport fixed other) s fun _ s' => s'.passive = true ∨
      s'.model = s.model ∧ ∀ v, s.model.Has fixed v → s.model.Inert other (.remove (c.constant - v)) := by
  obtain ⟨r, hr, hsome, hnone⟩ := hin.wellFormed.value?_spec (hin.owns hf)
  refine Leads.ask_bind hin hr ?_
  cases r with
  | none => exact absurd hfix (hnone rfl)
  | some v =>
    dsimp only
    split
    · exact Leads.setPassive hin (.inl rfl)
    · rename_i forbidden hforbidden
      obtain ⟨-, rfl⟩ := Value.ofInt?_eq_some_iff.mp hforbidden
      refine Leads.narrow_bind hin ho (fun _ h => h.elim) fun changed m' hn hin' => ?_
      cases changed with
      | true => exact Leads.setPassive hin' (.inl rfl)
      | false =>
        obtain ⟨b, hb, -⟩ := hin'.wellFormed.contains_spec (hin'.owns ho) (c.constant - v)
        refine Leads.ask_bind hin' hb ?_
        cases b with
        | false => exact Leads.setPassive hin' (.inl rfl)
        | true =>
          refine Leads.pure hin' (.inr ⟨hn.unchanged rfl, fun w hw => ?_⟩)
          rw [((hsome v rfl).2 w).mp hw]
          exact .of_narrowed hn rfl

theorem filter_stills [Tolerance] {start : Scene} (hw : start.model.WellFormed) (hx : start.model.owns c.x = true)
    (hy : start.model.owns c.y = true) :
    Leads Nowhere start c.filter start fun _ s => s.passive = true ∨ c.Still s.model := by
  have hin : Within Nowhere start start := .refl hw
  obtain ⟨bx, hbx, hbxi⟩ := Model.isInstantiated_spec hx
  refine Leads.ask_bind hin hbx ?_
  cases bx with
  | true =>
    have hfx := hbxi.mp rfl
    refine Leads.mono (removeSupport_stills hin hx hy hfx) fun _ s _ => Or.imp_right ?_
    rintro ⟨hm, hinert⟩
    rw [hm]
    exact ⟨fun _ => hinert, fun hn => absurd hfx hn⟩
  | false =>
    have hnx : ¬start.model.Fixed c.x := fun hf => Bool.false_ne_true (hbxi.mpr hf)
    obtain ⟨bY, hby, hbyi⟩ := Model.isInstantiated_spec hy
    refine Leads.ask_bind hin hby ?_
    cases bY with
    | true =>
      refine Leads.mono (removeSupport_stills hin hy hx (hbyi.mp rfl)) fun _ s _ => Or.imp_right ?_
      rintro ⟨hm, hinert⟩
      rw [hm]
      exact ⟨fun hf => absurd hf hnx, fun _ _ => hinert⟩
    | false =>
      have hny : ¬start.model.Fixed c.y := fun hf => Bool.false_ne_true (hbyi.mpr hf)
      obtain ⟨b, hb, -⟩ := excluded_spec hw hx hy
      refine Leads.ask_bind hin hb ?_
      cases b with
      | true => exact Leads.setPassive hin (.inl rfl)
      | false => exact Leads.pure hin (.inr ⟨fun hf => absurd hf hnx, fun _ hf => absurd hf hny⟩)

theorem Still.unheard {m m' : Model} (h : c.Still m) (hw : m.WellFormed) {told : List Event}
    (hr : m.Recounts told m') (hex : m.isEnumerated c.x = .ok c.enumerated.1)
    (hey : m.isEnumerated c.y = .ok c.enumerated.2) (hx : Silent told c.x (c.condition 0))
    (hy : Silent told c.y (c.condition 1)) : c.Still m' := by
  -- of either variable: it is fixed only if it was, and a removal that had nothing to do has nothing to do
  have haux : ∀ z enumerated, m.isEnumerated z = .ok enumerated →
      Silent told z (if enumerated then .instantiation else .boundAndInst) →
        (m'.Fixed z → m.Fixed z) ∧ ∀ μ, m.Inert z μ → m'.Inert z μ := by
    intro z enumerated hz hsilent
    cases enumerated with
    | true => exact ⟨hr.unfixed z hsilent, fun μ hi => hi.of_enumerated hr.toWithin hz⟩
    | false =>
      obtain ⟨hl, hu⟩ := hr.bounds z hsilent
      exact ⟨hr.unfixed z (Silent.instantiation hsilent), fun μ hi => hi.within hr.toWithin hl hu⟩
  obtain ⟨hfx, hix⟩ := haux c.x _ hex hx
  obtain ⟨hfy, hiy⟩ := haux c.y _ hey hy
  refine ⟨fun hf v hv => hiy _ (h.1 (hfx hf) v (hr.has _ v hv)), fun hn hf v hv => ?_⟩
  exact hix _ (h.2 (fun hfm => hn (hr.fixed hw hfm)) (hfy hf) v (hr.has _ v hv))

theorem removeSupport_leaves {m : Model} (hw : m.WellFormed) {fixed other : VarId} (hf : m.owns fixed = true)
    (ho : m.owns other = true) (h : ∀ v, m.Has fixed v → m.Inert other (.remove (c.constant - v))) :
    (c.removeSupport fixed other).Leaves m := by
  obtain ⟨r, hr, hsome, -⟩ := hw.value?_spec hf
  refine .bind (.ask hr) ?_
  cases r with
  | none => exact .pure m
  | some v =>
    dsimp only
    split
    · exact .setPassive m
    · rename_i forbidden hforbidden
      obtain ⟨-, rfl⟩ := Value.ofInt?_eq_some_iff.mp hforbidden
      refine .bind (.narrow hw ho (h v (((hsome v rfl).2 v).mpr rfl))) ?_
      obtain ⟨b, hb, -⟩ := hw.contains_spec ho (c.constant - v)
      refine .bind (.ask hb) ?_
      cases b with
      | true => exact .pure m
      | false => exact .setPassive m

theorem Still.leaves {m : Model} (h : c.Still m) (hw : m.WellFormed) (hx : m.owns c.x = true)
    (hy : m.owns c.y = true) : c.filter.Leaves m := by
  obtain ⟨bx, hbx, hbxi⟩ := Model.isInstantiated_spec hx
  refine .bind (.ask hbx) ?_
  cases bx with
  | true => exact removeSupport_leaves hw hx hy (h.1 (hbxi.mp rfl))
  | false =>
    have hnx : ¬m.Fixed c.x := fun hf => Bool.false_ne_true (hbxi.mpr hf)
    obtain ⟨bY, hby, hbyi⟩ := Model.isInstantiated_spec hy
    refine .bind (.ask hby) ?_
    cases bY with
    | true => exact removeSupport_leaves hw hy hx (h.2 hnx (hbyi.mp rfl))
    | false =>
      obtain ⟨b, hb, -⟩ := excluded_spec hw hx hy
      refine .bind (.ask hb) ?_
      cases b with
      | true => exact .setPassive m
      | false => exact .pure m

end UnequalSum

/-! ### Distances -/

namespace Distance

/-- The pass that is repeated would change nothing; of a disequality one variable at most is fixed, and then the
other is an interval. -/
def Still (c : Distance) (m : Model) : Prop :=
  match c.relation with
  | .eq => 0 ≤ c.constant ∧ (bothWays c.filterEq c.x c.y).Answers m false
  | .ne => (m.Fixed c.x → ¬m.Fixed c.y ∧ m.isEnumerated c.y = .ok false) ∧
      (m.Fixed c.y → ¬m.Fixed c.x ∧ m.isEnumerated c.x = .ok false)
  | .lt => 0 < c.constant ∧ (bothWays c.filterLt c.x c.y).Answers m false
  | .gt => 0 ≤ c.constant ∧ (bothWays c.filterGt c.x c.y).Answers m false

variable {c : Distance}

/-- A distance that was put together compares with the constant as was asked, and knows which domains admit
holes. -/
theorem ofModel_eq_ok {m : Model} {x y : VarId} {relation : Relation} {constant : Int}
    (h : ofModel m x y relation constant = .ok (.ok c)) :
    c.relation.toRelation = relation ∧ c.constant = constant ∧ m.isEnumerated c.x = .ok c.enumerated.1 ∧
      m.isEnumerated c.y = .ok c.enumerated.2 := by
  rw [ofModel] at h
  split at h
  · cases h
  · rename_i relation' hrelation
    obtain ⟨b1, h1, h⟩ := bind_eq_ok.mp h
    obtain ⟨b2, h2, h⟩ := bind_eq_ok.mp h
    cases h
    refine ⟨?_, rfl, h1, h2⟩
    cases relation <;> cases hrelation <;> rfl

/-! #### A run -/

/-- Two passes are repeated until they would change nothing. -/
theorem repeatPass_stills [Tolerance] {start : Scene} (hw : start.model.WellFormed) (hx : start.model.owns c.x = true)
    (hy : start.model.owns c.y = true) {pass : VarId → VarId → Filter Bool} {P Q : Model → Prop}
    {R : Model → Model → Prop}
    (h1 : ∀ s, Within Nowhere start s → Leads Nowhere start (pass c.x c.y) s (Passes [c.x, c.y] P s))
    (h2 : ∀ s, Within Nowhere start s → Leads Nowhere start (pass c.y c.x) s (Passes [c.x, c.y] Q s))
    (hsteady : Steady R (bothWays pass c.x c.y)) (hR : ∀ m, m.WellFormed → R m m) {rest : Filter Unit}
    {S : Unit → Scene → Prop} (hrest : ∀ s, Within Nowhere start s → (bothWays pass c.x c.y).Answers s.model false →
      Leads Nowhere start rest s S) :
    Leads Nowhere start (do repeatPass (bothWays pass c.x c.y) (← c.patience); rest) start S := by
  have hin : Within Nowhere start start := .refl hw
  refine Leads.bind (patience_spec hin hx hy) ?_
  rintro fuel s1 - ⟨rfl, hfuel⟩
  refine Leads.bind (repeatPass_spec hin (fun s hs => (Leads.both hs h1 h2).answers hs hsteady hR) hfuel) ?_
  rintro _ s2 hin2 ⟨-, hanswers⟩
  exact hrest s2 hin2 hanswers

theorem setPassiveIfEntailed_stills [Tolerance] {H : Assignment → Prop} {start s : Scene} (hin : Within H start s)
    (hx : start.model.owns c.x = true) (hy : start.model.owns c.y = true) {P : Model → Prop} (h : P s.model) :
    Leads H start c.setPassiveIfEntailed s fun _ s' => s'.passive = true ∨ P s'.model :=
  (setPassiveIfEntailed_spec hin hx hy).mono fun _ _ _ hset => .inr (hset.1 ▸ h)

/-- What cannot be taken out of a variable is in the middle of an interval, which is not fixed. -/
theorem Cleared.stills {b : VarId} {v : Int} {s s' : Scene} (h : c.Cleared b v s s') (hw : s'.model.WellFormed) :
    s'.passive = true ∨ ¬s'.model.Fixed b ∧ s'.model.isEnumerated b = .ok false := by
  rcases h.passive with ⟨-, w, hk, hhas⟩ | ⟨hp, -⟩
  · have hinside := h.inside w hk hhas
    exact .inr ⟨hinside.not_fixed hw, hinside.1⟩
  · exact .inl hp

theorem runEq_stills [Tolerance] (hr : c.relation = .eq) {start : Scene} (hw : start.model.WellFormed)
    (hx : start.model.owns c.x = true) (hy : start.model.owns c.y = true) :
    Leads Nowhere start c.runEq start fun _ s => s.passive = true ∨ c.Still s.model := by
  have hin : Within Nowhere start start := .refl hw
  simp only [runEq, Still, hr]
  split
  · exact Leads.fail hin fun _ h => h.elim
  · rename_i hk
    have hk : 0 ≤ c.constant := by omega
    refine repeatPass_stills hw hx hy
      (fun s hs => filterEq_spec hs hx hy mem_both_left hk fun _ h _ => h.elim)
      (fun s hs => filterEq_spec hs hy hx mem_both_right hk fun _ h _ => h.elim) steady_bothEq
      (fun _ => Model.Copies.refl) fun s2 hin2 hstill => ?_
    obtain ⟨fx, hfx, -⟩ := Model.isInstantiated_spec (hin2.owns hx)
    obtain ⟨fy, hfy, -⟩ := Model.isInstantiated_spec (hin2.owns hy)
    refine Leads.ask_bind hin2 hfx (Leads.ask_bind hin2 hfy ?_)
    split
    · exact Leads.setPassive hin2 (.inl rfl)
    · exact Leads.pure hin2 (.inr ⟨hk, hstill⟩)

/-- Where a variable is fixed, the values around it leave the other, or are in the middle of an interval. -/
theorem runNe_stills [Tolerance] (hr : c.relation = .ne) {start : Scene} (hw : start.model.WellFormed)
    (hx : start.model.owns c.x = true) (hy : start.model.owns c.y = true) :
    Leads Nowhere start c.runNe start fun _ s => s.passive = true ∨ c.Still s.model := by
  have hin : Within Nowhere start start := .refl hw
  simp only [runNe, Still, hr]
  split
  · exact Leads.setPassive hin (.inl rfl)
  · rename_i hk
    have hk : 0 ≤ c.constant := by omega
    obtain ⟨rx, hrx, -, hnx⟩ := hw.value?_spec hx
    refine Leads.ask_bind hin hrx ?_
    cases rx with
    | some v =>
      refine Leads.mono (removeAround_spec hin hy hk fun _ h => h.elim) fun _ s hs h => ?_
      exact (h.stills hs.wellFormed).imp_right fun h => ⟨fun _ => h, fun hf => absurd hf h.1⟩
    | none =>
      obtain ⟨ry, hry, -, hny⟩ := hw.value?_spec hy
      refine Leads.ask_bind hin hry ?_
      cases ry with
      | some v =>
        refine Leads.mono (removeAround_spec hin hx hk fun _ h => h.elim) fun _ s hs h => ?_
        exact (h.stills hs.wellFormed).imp_right fun h => ⟨fun hf => absurd hf h.1, fun _ => h⟩
      | none => exact Leads.pure hin (.inr ⟨fun hf => absurd hf (hnx rfl), fun hf => absurd hf (hny rfl)⟩)

theorem runLt_stills [Tolerance] (hr : c.relation = .lt) {start : Scene} (hw : start.model.WellFormed)
    (hx : start.model.owns c.x = true) (hy : start.model.owns c.y = true) :
    Leads Nowhere start c.runLt start fun _ s => s.passive = true ∨ c.Still s.model := by
  simp only [runLt, Still, hr]
  split
  · exact Leads.fail (.refl hw) fun _ h => h.elim
  · rename_i hk
    have hk : 0 < c.constant := by omega
    exact repeatPass_stills hw hx hy
      (fun s hs => filterLt_spec hs hx hy mem_both_left hk fun _ h _ => h.elim)
      (fun s hs => filterLt_spec hs hy hx mem_both_right hk fun _ h _ => h.elim) steady_bothLt
      (fun _ => Model.Trims.refl) fun s hs hstill => setPassiveIfEntailed_stills hs hx hy
        (P := fun m => 0 < c.constant ∧ (bothWays c.filterLt c.x c.y).Answers m false) ⟨hk, hstill⟩

theorem runGt_stills [Tolerance] (hr : c.relation = .gt) {start : Scene} (hw : start.model.WellFormed)
    (hx : start.model.owns c.x = true) (hy : start.model.owns c.y = true) :
    Leads Nowhere start c.runGt start fun _ s => s.passive = true ∨ c.Still s.model := by
  simp only [runGt, Still, hr]
  split
  · exact Leads.setPassive (.refl hw) (.inl rfl)
  · rename_i hk
    have hk : 0 ≤ c.constant := by omega
    exact repeatPass_stills hw hx hy
      (fun s hs => filterGt_spec hs hx hy mem_both_left hk fun _ h _ => h.elim)
      (fun s hs => filterGt_spec hs hy hx mem_both_right hk fun _ h _ => h.elim) steady_bothGt
      (fun _ => Model.Trims.refl) fun s hs hstill => setPassiveIfEntailed_stills hs hx hy
        (P := fun m => 0 ≤ c.constant ∧ (bothWays c.filterGt c.x c.y).Answers m false) ⟨hk, hstill⟩

theorem filter_stills [Tolerance] {start : Scene} (hw : start.model.WellFormed) (hx : start.model.owns c.x = true)
    (hy : start.model.owns c.y = true) :
    Leads Nowhere start c.filter start fun _ s => s.passive = true ∨ c.Still s.model := by
  rw [filter]
  cases hr : c.relation with
  | eq => exact runEq_stills hr hw hx hy
  | ne => exact runNe_stills hr hw hx hy
  | lt => exact runLt_stills hr hw hx hy
  | gt => exact runGt_stills hr hw hx hy

/-! #### Events that are not heard -/

theorem Still.unheard {m m' : Model} (h : c.Still m) (hw : m.WellFormed) {told : List Event}
    (hr : m.Recounts told m') (hex : m.isEnumerated c.x = .ok c.enumerated.1)
    (hey : m.isEnumerated c.y = .ok c.enumerated.2) (hx : Silent told c.x (c.condition 0))
    (hy : Silent told c.y (c.condition 1)) : c.Still m' := by
  have htrims : Silent told c.x .boundAndInst → Silent told c.y .boundAndInst → m.Trims [c.x, c.y] m' :=
    fun hsx hsy => hr.trims (by simp [hsx, hsy])
  cases hrel : c.relation with
  | eq =>
    simp only [Still, hrel, condition] at h hx hy ⊢
    -- holes matter where there are any
    have hplace : ∀ z enumerated, m.isEnumerated z = .ok enumerated →
        Silent told z (if enumerated then .all else .boundAndInst) →
          Silent told z .all ∨ m.isEnumerated z = .ok false ∧ Silent told z .boundAndInst := by
      intro z enumerated hz hsilent
      cases enumerated with
      | true => exact .inl hsilent
      | false => exact .inr ⟨hz, hsilent⟩
    have hcopies : m.Copies [c.x, c.y] m' := by
      refine hr.copies hw ?_
      simp only [List.forall_mem_cons, List.not_mem_nil, false_implies, implies_true, and_true]
      exact ⟨hplace c.x _ hex hx, hplace c.y _ hey hy⟩
    exact ⟨h.1, h.2.related steady_bothEq hw hcopies⟩
  | ne =>
    simp only [Still, hrel, condition] at h hx hy ⊢
    rw [hr.isEnumerated_eq, hr.isEnumerated_eq]
    refine ⟨fun hf => ?_, fun hf => ?_⟩
    · obtain ⟨hfree, hbounded⟩ := h.1 (hr.unfixed _ hx hf)
      exact ⟨fun hf' => hfree (hr.unfixed _ hy hf'), hbounded⟩
    · obtain ⟨hfree, hbounded⟩ := h.2 (hr.unfixed _ hy hf)
      exact ⟨fun hf' => hfree (hr.unfixed _ hx hf'), hbounded⟩
  | lt =>
    simp only [Still, hrel, condition] at h hx hy ⊢
    exact ⟨h.1, h.2.related steady_bothLt hw (htrims hx hy)⟩
  | gt =>
    simp only [Still, hrel, condition] at h hx hy ⊢
    exact ⟨h.1, h.2.related steady_bothGt hw (htrims hx hy)⟩

/-! #### A pass without effect -/

theorem patience_answers {m : Model} (hw : m.WellFormed) (hx : m.owns c.x = true) (hy : m.owns c.y = true) :
    ∃ fuel, c.patience.Answers m (fuel + 1) ∧ m.spare [c.x, c.y] ≤ fuel := by
  obtain ⟨lx, ux, ly, uy, hlx, hux, hly, huy, hle⟩ := spare_le_spans (c := c) hw hx hy
  exact ⟨_, .bind (.ask hux) (.bind (.ask hlx) (.bind (.ask huy) (.bind (.ask hly) (.pure m _)))), hle⟩

theorem repeatPass_answers {m : Model} {pass : Filter Bool} (h : pass.Answers m false) (fuel : Nat) :
    (repeatPass pass (fuel + 1)).Answers m () := .bind h (.pure m ())

theorem setPassiveIfEntailed_leaves {m : Model} (hw : m.WellFormed) (hx : m.owns c.x = true)
    (hy : m.owns c.y = true) : c.setPassiveIfEntailed.Leaves m := by
  obtain ⟨r, hr, -⟩ := entailed_spec hw hx hy
  refine .bind (.ask hr) ?_
  split
  · exact .setPassive m
  · exact .pure m

theorem removeAll_answers {m : Model} (hw : m.WellFormed) {a : VarId} (ha : m.owns a = true) {vs : List Int}
    (h : ∀ v ∈ vs, m.Inert a (.remove v)) (changed : Bool) : (removeAll a changed vs).Answers m changed := by
  induction vs generalizing changed with
  | nil => exact .pure m changed
  | cons v rest ih =>
    rw [List.forall_mem_cons] at h
    have hrest := ih h.2 (changed || false)
    rw [Bool.or_false] at hrest
    exact .bind (.narrow hw ha h.1) (by rwa [Bool.or_false])

theorem removeAround_leaves {m : Model} (hw : m.WellFormed) {b : VarId} (hb : m.owns b = true)
    (hbounded : m.isEnumerated b = .ok false) (hk : 0 ≤ c.constant) {v : Int}
    (h : ∀ w, m.Edge b w → ((v - w).natAbs : Int) ≠ c.constant) : (c.removeAround b v).Leaves m := by
  obtain ⟨r1, hr1, -⟩ := holdsAt_spec hw hb (v - c.constant)
  obtain ⟨r2, hr2, -⟩ := holdsAt_spec hw hb (v + c.constant)
  refine .bind (removeAll_answers hw hb (fun w hmem => ?_) false) (.bind (.ask (holdsAt_or hr1 hr2)) ?_)
  · refine Model.inert_of_not_edge hbounded fun hedge => h w hedge ?_
    have := (mem_around.mp hmem).2
    omega
  · cases r1 || r2 with
    | true => exact .pure m
    | false => exact .setPassive m

/-- Where one variable is fixed, no bound of the other is at the distance of the constant, if it is an interval. -/
def Clears (c : Distance) (m : Model) (a b : VarId) : Prop :=
  ∀ v w, m.value? a = .ok (some v) → m.Edge b w → ((v - w).natAbs : Int) ≠ c.constant

/-- What a disequality forbids could not be removed even now. -/
def Clear (c : Distance) (m : Model) : Prop := c.relation = .ne → c.Clears m c.x c.y ∧ c.Clears m c.y c.x

theorem Still.leaves {m : Model} (h : c.Still m) (hw : m.WellFormed) (hx : m.owns c.x = true)
    (hy : m.owns c.y = true) (hclear : c.Clear m) : c.filter.Leaves m := by
  obtain ⟨fuel, hfuel, -⟩ := patience_answers hw hx hy
  rw [filter]
  cases hrel : c.relation with
  | eq =>
    simp only [Still, hrel] at h
    simp only [runEq, if_neg (show ¬c.constant < 0 by omega)]
    obtain ⟨fx, hfx, -⟩ := Model.isInstantiated_spec hx
    obtain ⟨fy, hfy, -⟩ := Model.isInstantiated_spec hy
    refine .bind hfuel (.bind (repeatPass_answers h.2 fuel) (.bind (.ask hfx) (.bind (.ask hfy) ?_)))
    split
    · exact .setPassive m
    · exact .pure m
  | ne =>
    obtain ⟨hclearX, hclearY⟩ := hclear hrel
    simp only [Still, hrel] at h
    simp only [runNe]
    split
    · exact .setPassive m
    · obtain ⟨rx, hrx, hfx, -⟩ := hw.value?_spec hx
      obtain ⟨ry, hry, hfy, -⟩ := hw.value?_spec hy
      refine .bind (.ask hrx) ?_
      cases rx with
      | some v => exact removeAround_leaves hw hy (h.1 (hfx v rfl).1).2 (by omega) fun w => hclearX v w hrx
      | none =>
        refine .bind (.ask hry) ?_
        cases ry with
        | some v => exact removeAround_leaves hw hx (h.2 (hfy v rfl).1).2 (by omega) fun w => hclearY v w hry
        | none => exact .pure m
  | lt =>
    simp only [Still, hrel] at h
    simp only [runLt, if_neg (show ¬c.constant ≤ 0 by omega)]
    exact .bind hfuel (.bind (repeatPass_answers h.2 fuel) (setPassiveIfEntailed_leaves hw hx hy))
  | gt =>
    simp only [Still, hrel] at h
    simp only [runGt, if_neg (show ¬c.constant < 0 by omega)]
    exact .bind hfuel (.bind (repeatPass_answers h.2 fuel) (setPassiveIfEntailed_leaves hw hx hy))

/-- What is left of an interval that is not fixed has another distance. -/
theorem exists_distant {m : Model} (hw : m.WellFormed) {a b : VarId} (hb : m.owns b = true) (ha : m.Fixed a)
    (hfree : ¬m.Fixed b) (hbounded : m.isEnumerated b = .ok false) (k : Int) :
    ∃ f, m.Allows f ∧ ((f a - f b).natAbs : Int) ≠ k := by
  obtain ⟨v, hv⟩ := hw.exists_has ha.owns
  obtain ⟨w, hw1, hw2⟩ := hw.exists_adjacent hb hfree hbounded
  obtain ⟨u, hu, hne⟩ : ∃ u, m.Has b u ∧ ((v - u).natAbs : Int) ≠ k := by
    by_cases heq : ((v - w).natAbs : Int) = k
    · exact ⟨w + 1, hw2, by omega⟩
    · exact ⟨w, hw1, heq⟩
  obtain ⟨f, hf, rfl⟩ := hw.exists_allows_eq hu
  exact ⟨f, hf, by rwa [hw.eq_of_fixed ha (hf a ha.owns) hv]⟩

theorem Still.succeeds {m : Model} (h : c.Still m) (hw : m.WellFormed) (hx : m.owns c.x = true)
    (hy : m.owns c.y = true) (hfk : Value.Fits c.constant) : c.filter.Succeeds m := by
  by_cases hfree : c.relation = .ne → ¬m.Fixed c.x ∧ ¬m.Fixed c.y
  · refine (h.leaves hw hx hy fun hrel => ⟨fun v w hv => ?_, fun v w hv => ?_⟩).succeeds
    · exact absurd (hw.fixed_of_value? hv).1 (hfree hrel).1
    · exact absurd (hw.fixed_of_value? hv).1 (hfree hrel).2
  -- one variable is fixed, and the other is an interval
  obtain ⟨hrel, hfixed⟩ := Classical.not_imp.mp hfree
  simp only [Still, hrel] at h
  have hne : ∀ f, c.Holds f ↔ ((f c.x - f c.y).natAbs : Int) ≠ c.constant := fun f => by rw [Holds, hrel]; rfl
  obtain ⟨f, hf, hholds⟩ : ∃ f, m.Allows f ∧ c.Holds f := by
    simp only [hne]
    by_cases hfx : m.Fixed c.x
    · obtain ⟨hfree, hbounded⟩ := h.1 hfx
      exact exists_distant hw hy hfx hfree hbounded _
    · have hfy : m.Fixed c.y := Classical.byContradiction fun hfy => hfixed ⟨hfx, hfy⟩
      obtain ⟨hfree, hbounded⟩ := h.2 hfy
      obtain ⟨f, hf, hdistant⟩ := exists_distant hw hx hfy hfree hbounded c.constant
      exact ⟨f, hf, by omega⟩
  let := Tolerance.strict
  exact .of_leads (fun id => filter_spec hw hx hy rfl hfk) hholds hf

end Distance

/-! ### Sums -/

namespace Linear

/-- The pass that is repeated would change nothing. -/
def Still (c : Linear) (m : Model) : Prop := c.pass.Answers m false

variable {c : Linear}

theorem mem_vars : ∀ t ∈ c.terms, t.var ∈ c.terms.map Term.var := fun _ ht => List.mem_map_of_mem ht

theorem filter_stills [Tolerance] {start : Scene} (hw : start.model.WellFormed) (hne : ∀ t ∈ c.terms, t.coefficient ≠ 0)
    (howns : ∀ t ∈ c.terms, start.model.owns t.var = true) (hroom : Fault.overflow.Tolerated) :
    Leads c.Admits start c.filter start fun _ s => s.passive = true ∨ c.Still s.model := by
  refine filter_leads hw howns (fun s hs => (pass_spec hs hne howns (.inl hroom)).answers hs
    (c.steady_pass mem_vars) fun _ => Model.Trims.refl) fun s r hs _ hstill _ => ?_
  split
  · exact Leads.setPassive hs (.inl rfl)
  · exact Leads.pure hs (.inr hstill)

theorem Still.unheard {m m' : Model} (h : c.Still m) (hw : m.WellFormed) {told : List Event}
    (hr : m.Recounts told m') (hs : ∀ t ∈ c.terms, Silent told t.var .boundAndInst) : c.Still m' := by
  refine h.related (c.steady_pass mem_vars) hw (hr.trims fun x hx => ?_)
  obtain ⟨t, ht, rfl⟩ := List.mem_map.mp hx
  exact hs t ht

theorem Still.leaves {m : Model} (h : c.Still m) (hw : m.WellFormed) (howns : ∀ t ∈ c.terms, m.owns t.var = true) :
    c.filter.Leaves m := by
  obtain ⟨n, hn, -⟩ := slackOf_spec hw howns
  obtain ⟨r, hr, -⟩ := entailed_spec (c := c) hw howns
  have hsettle : (c.settle (n + 1)).Answers m () := .bind h (.pure m ())
  refine .bind (.ask hn) (.bind hsettle (.bind (.ask hr) ?_))
  split
  · exact .setPassive m
  · exact .pure m

end Linear

/-! ### Nogoods -/

namespace Literal

variable {l : Literal}

/-- The truth of a literal by the fixed value of its variable, if it has one, and by whether it has that of the
literal. -/
theorem truth_eq_of {m : Model} {r : Option Int} {b : Bool} (hr : m.value? l.var = .ok r)
    (hb : m.contains l.var l.value = .ok b) :
    l.truth m = .ok (if r = some l.value then some l.equal else if b then none else some !l.equal) := by
  simp only [truth, hr, hb, ok_bind]
  split
  · rfl
  · cases b <;> rfl

/-- A literal that was made false is. -/
theorem truth_of_changed {m m' : Model} {cause : Cause} (hn : Model.Narrowed l.var l.falsify cause m true m')
    (hx : m'.owns l.var = true) : l.truth m' = .ok (some false) := by
  have hw := hn.narrows.wellFormed
  obtain ⟨r, hr, hsome, hnone⟩ := hw.value?_spec hx
  obtain ⟨b, hb, hbi⟩ := hw.contains_spec hx l.value
  have hkeeps : ∀ v, m'.Has l.var v → l.falsify.Keeps v := fun v => hn.keeps_of_changed rfl
  rw [truth_eq_of hr hb]
  cases hl : l.equal with
  | true =>
    simp only [falsify, hl] at hkeeps
    have hout : ¬m'.Has l.var l.value := fun hhas => hkeeps _ hhas rfl
    obtain rfl : b = false := Bool.eq_false_iff.mpr fun h => hout (hbi.mp h)
    rw [if_neg fun heq => hout (((hsome _ heq).2 _).mpr rfl)]
    rfl
  | false =>
    simp only [falsify, hl] at hkeeps
    cases r with
    | none => exact absurd (hw.fixed_of_unique hx hkeeps) (hnone rfl)
    | some v =>
      rw [if_pos (congrArg some (hkeeps v (((hsome v rfl).2 v).mpr rfl)))]

/-- A literal that is not heard of keeps its truth or is false by now. -/
theorem truth_unheard {m m' : Model} (hw : m.WellFormed) (hx : m.owns l.var = true) {told : List Event}
    (hr : m.Recounts told m') (hs : Silent told l.var (if l.equal then .boundAndInst else .all)) {t : Option Bool}
    (ht : l.truth m = .ok t) : l.truth m' = .ok t ∨ l.truth m' = .ok (some false) := by
  have hx' : m'.owns l.var = true := (hr.owns_eq _).trans hx
  have hbounds : Silent told l.var .boundAndInst := by
    split at hs
    · exact hs
    · exact hs.boundAndInst
  obtain ⟨r, hvalue, -⟩ := hw.value?_spec hx
  obtain ⟨b, hb, hbi⟩ := hw.contains_spec hx l.value
  obtain ⟨b', hb', hbi'⟩ := hr.wellFormed.contains_spec hx' l.value
  have hvalue' : m'.value? l.var = .ok r := (hr.value?_eq hbounds).trans hvalue
  rw [truth_eq_of hvalue hb, Except.ok.injEq] at ht
  rw [truth_eq_of hvalue' hb']
  subst ht
  cases hl : l.equal with
  | true =>
    cases b' with
    | true =>
      obtain rfl : b = true := hbi.mpr (hr.has _ _ (hbi'.mp rfl))
      exact .inl rfl
    | false =>
      split
      · exact .inl rfl
      · exact .inr rfl
  | false =>
    rw [hl] at hs
    have heq : b' = b := Bool.eq_iff_iff.mpr <| hbi'.trans <| Iff.trans
      ⟨hr.has _ _, hr.kept _ hs.ne_of_all _⟩ hbi.symm
    exact .inl (by rw [heq])

end Literal

namespace Nogood

/-- The standing is one at which nothing can be done, or only what would change nothing. -/
def Still (c : Nogood) (m : Model) : Prop :=
  ∃ st, standing m c.literals = .ok st ∧ st ≠ .waiting [] ∧ ∀ l, st = .waiting [l] → m.Inert l.var l.falsify

variable {c : Nogood}

theorem filter_stills [Tolerance] {start : Scene} (hw : start.model.WellFormed)
    (hx : ∀ l ∈ c.literals, start.model.owns l.var = true) :
    Leads Nowhere start c.filter start fun _ s => s.passive = true ∨ c.Still s.model := by
  have hin : Within Nowhere start start := .refl hw
  obtain ⟨st, hst, htells⟩ := standing_spec hw hx
  refine Leads.ask_bind hin hst ?_
  match st, htells with
  | .satisfied, _ => exact Leads.setPassive hin (.inl rfl)
  | .waiting [], _ => exact Leads.fail hin fun _ h => h.elim
  | .waiting [l], htells =>
    have hl := hx l (htells.1 l List.mem_cons_self).1
    refine Leads.narrow_bind hin hl (fun _ h => h.elim) fun changed m' hn hin' => ?_
    cases changed with
    | true =>
      refine Leads.ask_bind hin' (Literal.truth_of_changed hn (hin'.owns hl)) ?_
      exact Leads.setPassive hin' (.inl rfl)
    | false =>
      obtain rfl : m' = start.model := hn.unchanged rfl
      obtain ⟨t, ht, -⟩ := Literal.truth_spec hw hl
      refine Leads.ask_bind hin' ht ?_
      split
      · exact Leads.setPassive hin' (.inl rfl)
      · refine Leads.pure hin' (.inr ⟨_, hst, by simp, ?_⟩)
        rintro _ ⟨⟩
        exact .of_narrowed hn rfl
  | .waiting (l :: l' :: rest), _ =>
    refine Leads.pure hin (.inr ⟨_, hst, by simp, ?_⟩)
    rintro _ ⟨⟩

/-- Literals that are not heard of have the standing that they had, or one of them is false by now. -/
theorem standing_unheard {m m' : Model} (hw : m.WellFormed) {told : List Event} (hr : m.Recounts told m')
    {literals : List Literal} (hx : ∀ l ∈ literals, m.owns l.var = true)
    (hs : ∀ l ∈ literals, Silent told l.var (if l.equal then .boundAndInst else .all)) {st : Standing}
    (hst : standing m literals = .ok st) :
    standing m' literals = .ok st ∨ standing m' literals = .ok .satisfied := by
  induction literals generalizing st with
  | nil => exact .inl hst
  | cons l rest ih =>
    rw [List.forall_mem_cons] at hx hs
    obtain ⟨t, ht, hst⟩ := bind_eq_ok.mp hst
    rcases Literal.truth_unheard hw hx.1 hr hs.1 ht with htruth | htruth
    · simp only [standing, htruth, ok_bind]
      rcases t with _ | _ | _
      · obtain ⟨st', hst', hst⟩ := bind_eq_ok.mp hst
        rcases ih hx.2 hs.2 hst' with h | h
        · rw [h]
          exact .inl hst
        · rw [h]
          exact .inr rfl
      · exact .inl hst
      · exact ih hx.2 hs.2 hst
    · simp only [standing, htruth, ok_bind]
      exact .inr rfl

theorem Still.unheard {m m' : Model} (h : c.Still m) (hw : m.WellFormed) {told : List Event}
    (hr : m.Recounts told m') (hx : ∀ l ∈ c.literals, m.owns l.var = true)
    (hs : ∀ l ∈ c.literals, Silent told l.var (if l.equal then .boundAndInst else .all)) : c.Still m' := by
  obtain ⟨st, hst, hne, hinert⟩ := h
  rcases standing_unheard hw hr hx hs hst with hst' | hst'
  · refine ⟨st, hst', hne, fun l hl => ?_⟩
    obtain ⟨st', hst'', htells⟩ := standing_spec hw hx
    rw [hst, Except.ok.injEq] at hst''
    subst hst''
    have hmem : l ∈ c.literals := by
      rw [hl] at htells
      exact (htells.1 l List.mem_cons_self).1
    have hbounds : Silent told l.var .boundAndInst := by
      have hsl := hs l hmem
      split at hsl
      · exact hsl
      · exact hsl.boundAndInst
    obtain ⟨hlb, hub⟩ := hr.bounds _ hbounds
    exact (hinert l hl).within hr.toWithin hlb hub
  · exact ⟨.satisfied, hst', by simp, fun l hl => by cases hl⟩

theorem Still.leaves {m : Model} (h : c.Still m) (hw : m.WellFormed) (hx : ∀ l ∈ c.literals, m.owns l.var = true) :
    c.filter.Leaves m := by
  obtain ⟨st, hst, hne, hinert⟩ := h
  obtain ⟨st', hst', htells⟩ := standing_spec hw hx
  rw [hst, Except.ok.injEq] at hst'
  subst hst'
  refine .bind (.ask hst) ?_
  match st, hne, htells with
  | .satisfied, _, _ => exact .setPassive m
  | .waiting [], hne, _ => exact absurd rfl hne
  | .waiting [l], _, htells =>
    have hl := hx l (htells.1 l List.mem_cons_self).1
    obtain ⟨t, ht, -⟩ := Literal.truth_spec hw hl
    refine .bind (.narrow hw hl (hinert l rfl)) (.bind (.ask ht) ?_)
    split
    · exact .setPassive m
    · exact .pure m
  | .waiting (l :: l' :: rest), _, _ => exact .pure m

end Nogood

/-! ### All constraints -/

namespace Constraint

/-- The constraint was put together for the model. -/
def MadeFor (m : Model) : Constraint → Prop
  | unequal _ | nogood _ => True
  | unequalSum c => ∃ x y constant, UnequalSum.ofModel m x y constant = .ok c
  | distance c => ∃ x y relation constant, Value.Fits constant ∧
      Distance.ofModel m x y relation constant = .ok (.ok c)
  | linear c => ∃ coefficients vars relation constant, Linear.ofLists coefficients vars relation constant = .ok c

/-- What the constraint was told of the domains of its variables is so. -/
def Informed (m : Model) : Constraint → Prop
  | unequalSum c => m.isEnumerated c.x = .ok c.enumerated.1 ∧ m.isEnumerated c.y = .ok c.enumerated.2
  | distance c => m.isEnumerated c.x = .ok c.enumerated.1 ∧ m.isEnumerated c.y = .ok c.enumerated.2
  | _ => True

/-- The constraint fits the model. -/
structure Seated (c : Constraint) (m : Model) : Prop where
  scope : ∀ x ∈ c.propagator.scope, m.owns x = true
  proper : c.Proper
  informed : c.Informed m

/-- Of what a disequality forbids that waits for instantiations only nothing could be removed even now. -/
def Clear (m : Model) : Constraint → Prop
  | unequal c => c.Clear m
  | distance c => c.Clear m
  | _ => True

def Still (m : Model) : Constraint → Prop
  | unequal c => c.Still m
  | unequalSum c => c.Still m
  | distance c => c.Still m
  | linear c => c.Still m
  | nogood c => c.Still m

variable {c : Constraint} {m m' : Model}

theorem MadeFor.proper (h : c.MadeFor m) : c.Proper := by
  match c, h with
  | unequal _, _ | unequalSum _, _ | nogood _, _ => exact trivial
  | distance c, ⟨_, _, _, _, hfits, h⟩ =>
    obtain ⟨-, rfl, -⟩ := Distance.ofModel_eq_ok h
    exact hfits
  | linear c, ⟨_, _, _, _, h⟩ => exact Linear.coefficient_ne_zero_of_ofLists h

theorem MadeFor.informed (h : c.MadeFor m) : c.Informed m := by
  match c, h with
  | unequal _, _ | linear _, _ | nogood _, _ => exact trivial
  | unequalSum _, ⟨_, _, _, h⟩ =>
    obtain ⟨b1, h1, h⟩ := bind_eq_ok.mp h
    obtain ⟨b2, h2, h⟩ := bind_eq_ok.mp h
    cases h
    exact ⟨h1, h2⟩
  | distance _, ⟨_, _, _, _, _, h⟩ => exact (Distance.ofModel_eq_ok h).2.2

/-- Which domains admit holes is settled when their variables are created. -/
theorem Informed.of_vars (h : c.Informed m)
    (hvars : ∀ (i : Nat) (y : Variable), m.vars[i]? = some y → m'.vars[i]? = some y) : c.Informed m' := by
  have hkept : ∀ {x b}, m.isEnumerated x = .ok b → m'.isEnumerated x = .ok b := by
    intro x b hb
    obtain ⟨y, hy⟩ := Model.owns_iff.mp (Model.owns_of_isEnumerated hb)
    rw [Model.isEnumerated_eq hy] at hb
    rw [Model.isEnumerated_eq (hvars _ y hy), hb]
  match c, h with
  | unequal _, _ | linear _, _ | nogood _, _ => exact trivial
  | unequalSum c, h => exact ⟨hkept h.1, hkept h.2⟩
  | distance c, h => exact ⟨hkept h.1, hkept h.2⟩

theorem Seated.within (h : c.Seated m) (hn : m.Within m') : c.Seated m' :=
  ⟨fun x hx => (hn.owns_eq x).trans (h.scope x hx), h.proper, h.informed.of_vars fun _ _ hy => hn.vars ▸ hy⟩

/-- **After a run that did not ask to be let alone the constraint is still.** -/
theorem run_stills (hw : m.WellFormed) (hs : c.Seated m) {id : PropId} {before after : Array Notice} {s : Scene}
    (hrun : c.propagator.run.run { self := id, model := m } before = .ok (.ok (), s) after)
    (hawake : s.passive = false) : c.Still s.model := by
  let := Tolerance.lax
  let start : Scene := { self := id, model := m }
  have hw : start.model.WellFormed := hw
  have hcases : s.passive = true ∨ c.Still s.model := by
    match c, hs with
    | unequal c, hs =>
      have hx := hs.scope c.var (by simp [propagator, Unequal.propagator])
      exact Leads.of_run (Unequal.filter_stills hw hx) hrun
    | unequalSum c, hs =>
      have hx := hs.scope c.x (by simp [propagator, UnequalSum.propagator])
      have hy := hs.scope c.y (by simp [propagator, UnequalSum.propagator])
      exact Leads.of_run (UnequalSum.filter_stills hw hx hy) hrun
    | distance c, hs =>
      have hx := hs.scope c.x (by simp [propagator, Distance.propagator])
      have hy := hs.scope c.y (by simp [propagator, Distance.propagator])
      exact Leads.of_run (Distance.filter_stills hw hx hy) hrun
    | linear c, hs =>
      have howns : ∀ t ∈ c.terms, m.owns t.var = true := fun t ht => hs.scope _ (mem_linear_scope ht)
      exact Leads.of_run (Linear.filter_stills hw hs.proper howns fun h => h) hrun
    | nogood c, hs =>
      have howns : ∀ l ∈ c.literals, m.owns l.var = true := fun l hl => hs.scope _ (Nogood.mem_scope hl)
      exact Leads.of_run (Nogood.filter_stills hw howns) hrun
  exact hcases.resolve_left (Bool.eq_false_iff.mp hawake)

/-- **It stays so while nothing happens that its propagator waits for.** -/
theorem Still.unheard (h : c.Still m) (hw : m.WellFormed) (hs : c.Seated m) {told : List Event}
    (hr : m.Recounts told m') (hsilent : ∀ (place : Nat) x, c.propagator.scope[place]? = some x →
      Silent told x (c.propagator.condition place)) : c.Still m' := by
  match c, h, hs with
  | unequal c, h, _ => exact Unequal.Still.unheard h hr (hsilent 0 c.var rfl)
  | unequalSum c, h, hs =>
    exact UnequalSum.Still.unheard h hw hr hs.informed.1 hs.informed.2 (hsilent 0 c.x rfl) (hsilent 1 c.y rfl)
  | distance c, h, hs =>
    exact Distance.Still.unheard h hw hr hs.informed.1 hs.informed.2 (hsilent 0 c.x rfl) (hsilent 1 c.y rfl)
  | linear c, h, _ =>
    refine Linear.Still.unheard h hw hr fun t ht => ?_
    obtain ⟨place, hplace⟩ := Array.getElem?_of_mem (mem_linear_scope ht)
    exact hsilent place t.var hplace
  | nogood c, h, hs =>
    refine Nogood.Still.unheard h hw hr (fun l hl => hs.scope _ (Nogood.mem_scope hl)) fun l hl => ?_
    obtain ⟨place, hplace⟩ := List.getElem?_of_mem hl
    have hcondition : c.condition place = if l.equal then .boundAndInst else .all := by
      simp only [Nogood.condition, hplace]
    rw [← hcondition]
    refine hsilent place l.var ?_
    simp [propagator, Nogood.propagator, hplace]

/-- In a model with the same domains it is still as well. -/
theorem Still.agrees (h : c.Still m) (hw : m.WellFormed) (hs : c.Seated m) (ha : m.Agrees m') : c.Still m' :=
  h.unheard hw hs (.of_agrees hw ha) fun _ _ _ _ he => absurd he List.not_mem_nil

/-- **What is still would not be changed by another run**, if it is clear. -/
theorem Still.leaves (h : c.Still m) (hw : m.WellFormed) (hs : c.Seated m) (hclear : c.Clear m) :
    c.propagator.run.Leaves m := by
  match c, h, hs, hclear with
  | unequal c, h, hs, hclear =>
    exact Unequal.Still.leaves h hw (hs.scope c.var (by simp [propagator, Unequal.propagator])) hclear
  | unequalSum c, h, hs, _ =>
    exact UnequalSum.Still.leaves h hw (hs.scope c.x (by simp [propagator, UnequalSum.propagator]))
      (hs.scope c.y (by simp [propagator, UnequalSum.propagator]))
  | distance c, h, hs, hclear =>
    exact Distance.Still.leaves h hw (hs.scope c.x (by simp [propagator, Distance.propagator]))
      (hs.scope c.y (by simp [propagator, Distance.propagator])) hclear
  | linear c, h, hs, _ => exact Linear.Still.leaves h hw fun t ht => hs.scope _ (mem_linear_scope ht)
  | nogood c, h, hs, _ => exact Nogood.Still.leaves h hw fun l hl => hs.scope _ (Nogood.mem_scope hl)

/-- **Another run of what is still ends in no contradiction.** -/
theorem Still.succeeds (h : c.Still m) (hw : m.WellFormed) (hs : c.Seated m) : c.propagator.run.Succeeds m := by
  match c, h, hs with
  | unequal c, h, hs => exact Unequal.Still.succeeds h hw (hs.scope c.var (by simp [propagator, Unequal.propagator]))
  | distance c, h, hs =>
    exact Distance.Still.succeeds h hw (hs.scope c.x (by simp [propagator, Distance.propagator]))
      (hs.scope c.y (by simp [propagator, Distance.propagator])) hs.proper
  | unequalSum _, h, hs | linear _, h, hs | nogood _, h, hs => exact (Still.leaves h hw hs trivial).succeeds

end Constraint

end FiniteDomain
