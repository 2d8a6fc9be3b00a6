import FiniteDomain.Proofs.Constraint.Basic
import FiniteDomain.Proofs.Model.Twins
import FiniteDomain.Proofs.Propagation.Steady

/-!
# How the propagators of constraints are built

The run of a constraint is built over its scope: it asks for the values of these variables, and narrows them only.
Passes over a sum, and those over a distance that is bounded on one side, ask for bounds only.

* `Constraint.run_concludes`, `Constraint.entailed_alike`: runs, and what is known of a constraint;
* `Distance.steady_bothLt`, `Distance.steady_bothGt`, `Linear.steady_pass`: passes that changed nothing would change
  nothing where the bounds are the same;
* `Distance.steady_bothEq`: nor would this one where the values are the same.
-/

namespace FiniteDomain

open FiniteDomain.Filter

theorem Filter.Built.contains {l : List VarId} {x : VarId} (hx : x ∈ l) (v : Int) :
    Built (Model.Alike l) l (Filter.contains x v) := .ask fun _ _ h => h.contains_eq x hx v

/-! ### Disequalities -/

theorem Unequal.filter_concludes (c : Unequal) : Concludes (Model.Alike [c.var]) [c.var] c.filter := by
  refine .bind (.narrow List.mem_cons_self _) fun changed => ?_
  split
  · exact .setPassive
  · refine .bind (.contains List.mem_cons_self _) fun there => ?_
    split
    · exact .setPassive
    · exact .pure

namespace UnequalSum

variable {R : Model → Model → Prop} {l : List VarId} (c : UnequalSum)

theorem removeSupport_concludes {fixed other : VarId} (hf : fixed ∈ l) (ho : other ∈ l) :
    Concludes (Model.Alike l) l (c.removeSupport fixed other) := by
  refine .bind (.value? (fun _ _ h => h.toSpans) hf) fun v => ?_
  cases v with
  | none => exact .pure
  | some v =>
    dsimp only
    split
    · exact .setPassive
    · refine .bind (.narrow ho _) fun changed => ?_
      split
      · exact .setPassive
      · refine .bind (.contains ho _) fun there => ?_
        split
        · exact .setPassive
        · exact .pure

theorem excluded_spans {m m' : Model} (h : m.Spans l m') (hx : c.x ∈ l) (hy : c.y ∈ l) :
    c.excluded m' = c.excluded m := by
  simp only [excluded, h.lb_eq _ hx, h.lb_eq _ hy, h.ub_eq _ hx, h.ub_eq _ hy]

theorem filter_concludes : Concludes (Model.Alike [c.x, c.y]) [c.x, c.y] c.filter := by
  have hx : c.x ∈ [c.x, c.y] := List.mem_cons_self
  have hy : c.y ∈ [c.x, c.y] := List.mem_cons_of_mem _ List.mem_cons_self
  refine .bind (.isInstantiated (fun _ _ h => h.toSpans) hx) fun fixed => ?_
  split
  · exact c.removeSupport_concludes hx hy
  · refine .bind (.isInstantiated (fun _ _ h => h.toSpans) hy) fun fixed => ?_
    split
    · exact c.removeSupport_concludes hy hx
    · refine .bind (.ask fun _ _ h => c.excluded_spans h.toSpans hx hy) fun out => ?_
      split
      · exact .setPassive
      · exact .pure

end UnequalSum

/-! ### Distances -/

namespace Distance

variable {R : Model → Model → Prop} {l : List VarId} {a b : VarId} (c : Distance)

theorem built_bothWays {pass : VarId → VarId → Filter Bool} (h1 : Built R l (pass a b)) (h2 : Built R l (pass b a)) :
    Built R l (bothWays pass a b) := .bind h1 fun _ => .bind h2 fun _ => .pure _

theorem built_repeatPass {pass : Filter Bool} (h : Built R l pass) (fuel : Nat) : Built R l (repeatPass pass fuel) := by
  induction fuel with
  | zero => exact .abort _
  | succ fuel ih =>
    refine .bind h fun changed => ?_
    split
    · exact ih
    · exact .pure ()

theorem built_filterLt (ha : a ∈ l) (hb : b ∈ l) : Built (Model.Spans l) l (c.filterLt a b) :=
  .bind (.lb (fun _ _ => id) hb) fun _ => .bind (.ub (fun _ _ => id) hb) fun _ => .narrow ha _

theorem built_filterGt (ha : a ∈ l) (hb : b ∈ l) : Built (Model.Spans l) l (c.filterGt a b) :=
  .bind (.ub (fun _ _ => id) hb) fun _ => .bind (.lb (fun _ _ => id) hb) fun _ => .narrow ha _

theorem built_removeAll (ha : a ∈ l) (changed : Bool) (vs : List Int) : Built R l (removeAll a changed vs) := by
  induction vs generalizing changed with
  | nil => exact .pure changed
  | cons v rest ih => exact .bind (.narrow ha _) fun removed => ih _

theorem built_nextFrom (hb : b ∈ l) {v : Int} (hv : Value.Fits v) : Built (Model.Alike l) l (nextFrom b v) :=
  .ask fun _ _ h => h.nextFrom_eq b hb v hv

theorem built_previousFrom (hb : b ∈ l) {v : Int} (hv : Value.Fits v) : Built (Model.Alike l) l (previousFrom b v) :=
  .ask fun _ _ h => h.previousFrom_eq b hb v hv

/-- Models with the same values answer alike. -/
theorem copies_alike {m m' : Model} (h : m.Copies l m') (hw : m.WellFormed) : m.Alike l m' := by
  refine ⟨h.spans, fun x hx => h.contains_eq hx hw, fun x hx => h.values_eq hx hw, fun x hx v hv => ?_, fun x hx v hv => ?_⟩
  · by_cases hm : m.owns x = true
    · obtain ⟨r, hr, hleast⟩ := nextFrom_spec hw hm hv
      obtain ⟨r', hr', hleast'⟩ := nextFrom_spec h.wellFormed ((h.owns_eq x).trans hm) hv
      simp only [h.has_iff hx] at hleast'
      rw [hr, hr', hleast.unique hleast']
    · rw [Model.domain_bind_eq_error hm, Model.domain_bind_eq_error (h.owns_eq x ▸ hm)]
  · by_cases hm : m.owns x = true
    · obtain ⟨r, hr, hgreatest⟩ := previousFrom_spec hw hm hv
      obtain ⟨r', hr', hgreatest'⟩ := previousFrom_spec h.wellFormed ((h.owns_eq x).trans hm) hv
      simp only [h.has_iff hx] at hgreatest'
      rw [hr, hr', hgreatest.unique hgreatest']
    · rw [Model.domain_bind_eq_error hm, Model.domain_bind_eq_error (h.owns_eq x ▸ hm)]

theorem holdsAt_alike {m m' : Model} (h : m.Alike l m') (hb : b ∈ l) (v : Option Int) :
    holdsAt m' b v = holdsAt m b v := by
  cases v with
  | none => rfl
  | some v => exact h.contains_eq b hb v

theorem supported_alike {m m' : Model} (h : m.Alike l m') (hb : b ∈ l) (v : Int) :
    c.supported m' b v = c.supported m b v := by
  simp only [supported, holdsAt_alike h hb]

theorem built_filterEq (ha : a ∈ l) (hb : b ∈ l) : Built (Model.Alike l) l (c.filterEq a b) := by
  have hR : ∀ m m', Model.Alike l m m' → m.Spans l m' := fun _ _ h => h.toSpans
  refine .bind (.lb hR hb) fun low => .bind (.ub hR hb) fun high => .bind (.narrow ha _) fun near => ?_
  refine .bind (.lb hR ha) fun least => ?_
  refine .bind (built_nextFrom hb (Value.fits_clamp _)) fun r1 =>
    .bind (built_nextFrom hb (Value.fits_clamp _)) fun r2 => .bind (.ub hR ha) fun greatest => ?_
  refine .bind (built_previousFrom hb (Value.fits_clamp _)) fun q1 =>
    .bind (built_previousFrom hb (Value.fits_clamp _)) fun q2 => ?_
  dsimp only
  split
  · refine .bind (.narrow ha _) fun moved => ?_
    split
    · refine .bind (.ask fun m m' h => ?_) fun unsupported => built_removeAll ha _ _
      simp only [h.values_eq a ha, c.supported_alike h hb]
    · exact .pure _
  · exact .fail _

theorem built_patience (hx : c.x ∈ l) (hy : c.y ∈ l) : Built (Model.Spans l) l c.patience :=
  .bind (.ub (fun _ _ => id) hx) fun _ => .bind (.lb (fun _ _ => id) hx) fun _ =>
    .bind (.ub (fun _ _ => id) hy) fun _ => .bind (.lb (fun _ _ => id) hy) fun _ => .pure _

theorem entailed_spans {m m' : Model} (h : m.Spans l m') (hx : c.x ∈ l) (hy : c.y ∈ l) :
    c.entailed m' = c.entailed m := by
  simp only [entailed, range, fixed?, h.lb_eq _ hx, h.lb_eq _ hy, h.ub_eq _ hx, h.ub_eq _ hy, h.value?_eq hx,
    h.value?_eq hy]

theorem removeAround_concludes (hb : b ∈ l) (v : Int) : Concludes (Model.Alike l) l (c.removeAround b v) := by
  refine .bind (built_removeAll hb _ _) fun _ => .bind (.ask fun m m' h => ?_) fun left => ?_
  · simp only [holdsAt_alike h hb]
  · split
    · exact .setPassive
    · exact .pure

theorem setPassiveIfEntailed_concludes (hx : c.x ∈ l) (hy : c.y ∈ l) :
    Concludes (Model.Spans l) l c.setPassiveIfEntailed := by
  refine .bind (.ask fun _ _ h => c.entailed_spans h hx hy) fun e => ?_
  split
  · exact .setPassive
  · exact .pure

/-- The passes over both variables are repeated, with patience enough, before anything else. -/
theorem settle_concludes {pass : VarId → VarId → Filter Bool} {rest : Filter Unit}
    (hpass : ∀ a b, a ∈ [c.x, c.y] → b ∈ [c.x, c.y] → Built (Model.Alike [c.x, c.y]) [c.x, c.y] (pass a b))
    (hrest : Concludes (Model.Alike [c.x, c.y]) [c.x, c.y] rest) :
    Concludes (Model.Alike [c.x, c.y]) [c.x, c.y] (do
      repeatPass (bothWays pass c.x c.y) (← c.patience)
      rest) := by
  have hpatience := (c.built_patience mem_both_left mem_both_right).mono fun _ _ h => Model.Alike.toSpans h
  refine .bind hpatience fun fuel => .bind (built_repeatPass (built_bothWays ?_ ?_) fuel) fun _ => hrest
  · exact hpass _ _ mem_both_left mem_both_right
  · exact hpass _ _ mem_both_right mem_both_left

theorem filter_concludes : Concludes (Model.Alike [c.x, c.y]) [c.x, c.y] c.filter := by
  have hx : c.x ∈ [c.x, c.y] := mem_both_left
  have hy : c.y ∈ [c.x, c.y] := mem_both_right
  have hR : ∀ m m', Model.Alike [c.x, c.y] m m' → m.Spans [c.x, c.y] m' := fun _ _ h => h.toSpans
  have hentailed := (c.setPassiveIfEntailed_concludes hx hy).mono hR
  rw [filter]
  split
  · rw [runEq]
    split
    · exact .built (.fail _)
    · refine c.settle_concludes (fun a b ha hb => c.built_filterEq ha hb) ?_
      refine .bind (.isInstantiated hR hx) fun _ => .bind (.isInstantiated hR hy) fun _ => ?_
      split
      · exact .setPassive
      · exact .pure
  · rw [runNe]
    split
    · exact .setPassive
    · refine .bind (.value? hR hx) fun v => ?_
      cases v with
      | some v => exact c.removeAround_concludes hy v
      | none =>
        refine .bind (.value? hR hy) fun v => ?_
        cases v with
        | some v => exact c.removeAround_concludes hx v
        | none => exact .pure
  · rw [runLt]
    split
    · exact .built (.fail _)
    · exact c.settle_concludes (fun a b ha hb => (c.built_filterLt ha hb).mono hR) hentailed
  · rw [runGt]
    split
    · exact .setPassive
    · exact c.settle_concludes (fun a b ha hb => (c.built_filterGt ha hb).mono hR) hentailed

variable {c}

theorem steady_bothLt : Steady (Model.Trims [c.x, c.y]) (bothWays c.filterLt c.x c.y) :=
  ((built_bothWays (c.built_filterLt mem_both_left mem_both_right)
    (c.built_filterLt mem_both_right mem_both_left)).mono fun _ _ h => Model.Trims.spans h).steady fun _ _ => id

theorem steady_bothGt : Steady (Model.Trims [c.x, c.y]) (bothWays c.filterGt c.x c.y) :=
  ((built_bothWays (c.built_filterGt mem_both_left mem_both_right)
    (c.built_filterGt mem_both_right mem_both_left)).mono fun _ _ h => Model.Trims.spans h).steady fun _ _ => id

theorem steady_bothEq : Steady (Model.Copies [c.x, c.y]) (bothWays c.filterEq c.x c.y) := by
  have hbuilt := built_bothWays (c.built_filterEq (mem_both_left (c := c)) mem_both_right)
    (c.built_filterEq mem_both_right mem_both_left)
  refine .of_wellFormed ((hbuilt.mono ?_).steady fun _ _ h => h.2.toTrims)
  exact fun _ _ h => copies_alike h.2 h.1

end Distance

/-! ### Sums -/

namespace Linear

variable {l : List VarId} (c : Linear)

theorem rangeIn_spans {m m' : Model} (h : m.Spans l m') {x : VarId} (hx : x ∈ l) (coefficient : Int) :
    rangeIn m' coefficient x = rangeIn m coefficient x := by rw [rangeIn, rangeIn, h.lb_eq x hx, h.ub_eq x hx]

theorem boundsFrom_spans {m m' : Model} (h : m.Spans l m') {terms : List Term} (hl : ∀ t ∈ terms, t.var ∈ l)
    (sign low high : Int) : boundsFrom m' sign low high terms = boundsFrom m sign low high terms := by
  induction terms generalizing low high with
  | nil => rfl
  | cons t rest ih =>
    obtain ⟨ht, hrest⟩ := List.forall_mem_cons.mp hl
    simp only [boundsFrom, rangeIn_spans h ht, ih hrest]

theorem slackOf_spans {m m' : Model} (h : m.Spans l m') {terms : List Term} (hl : ∀ t ∈ terms, t.var ∈ l) :
    slackOf m' terms = slackOf m terms := by
  induction terms with
  | nil => rfl
  | cons t rest ih =>
    obtain ⟨ht, hrest⟩ := List.forall_mem_cons.mp hl
    simp only [slackOf, h.lb_eq _ ht, h.ub_eq _ ht, ih hrest]

theorem entailed_spans {m m' : Model} (h : m.Spans l m') (hl : ∀ t ∈ c.terms, t.var ∈ l) :
    c.entailed m' = c.entailed m := by
  simp only [entailed, bounds, boundsFrom_spans h hl]

theorem built_filterTerms {terms : List Term} (hl : ∀ t ∈ terms, t.var ∈ l) (sign room : Int) (changed : Bool) :
    Built (Model.Spans l) l (filterTerms sign room changed terms) := by
  induction terms generalizing changed with
  | nil => exact .pure changed
  | cons t rest ih =>
    obtain ⟨ht, hrest⟩ := List.forall_mem_cons.mp hl
    refine .bind (.ask fun _ _ h => rangeIn_spans h ht _) fun range => ?_
    dsimp only
    split
    · exact ih hrest changed
    · refine .bind ?_ fun moved => ih hrest _
      rw [filterTerm]
      split <;> exact .narrow ht _

theorem built_filterSide (hl : ∀ t ∈ c.terms, t.var ∈ l) (side : Side) :
    Built (Model.Spans l) l (c.filterSide side) := by
  refine .bind (.ask fun _ _ h => boundsFrom_spans h hl _ _ _) fun r => ?_
  cases r with
  | none => exact .pure false
  | some r =>
    dsimp only
    split
    · exact .fail _
    · split
      · exact .abort _
      · exact built_filterTerms hl _ _ _

theorem built_pass (hl : ∀ t ∈ c.terms, t.var ∈ l) : Built (Model.Spans l) l c.pass := by
  rw [pass]
  split
  · exact c.built_filterSide hl _
  · exact c.built_filterSide hl _
  · exact .bind (c.built_filterSide hl _) fun _ => .bind (c.built_filterSide hl _) fun _ => .pure _

theorem steady_pass (hl : ∀ t ∈ c.terms, t.var ∈ l) : Steady (Model.Trims l) c.pass :=
  ((c.built_pass hl).mono fun _ _ h => Model.Trims.spans h).steady fun _ _ => id

theorem built_settle (hl : ∀ t ∈ c.terms, t.var ∈ l) (fuel : Nat) : Built (Model.Spans l) l (c.settle fuel) := by
  induction fuel with
  | zero => exact .abort _
  | succ fuel ih =>
    refine .bind (c.built_pass hl) fun changed => ?_
    split
    · exact ih
    · exact .pure ()

theorem filter_concludes (hl : ∀ t ∈ c.terms, t.var ∈ l) : Concludes (Model.Spans l) l c.filter := by
  refine .bind (.ask fun _ _ h => slackOf_spans h hl) fun fuel => .bind (c.built_settle hl _) fun _ => ?_
  refine .bind (.ask fun _ _ h => c.entailed_spans h hl) fun e => ?_
  split
  · exact .setPassive
  · exact .pure

end Linear

/-! ### Nogoods -/

namespace Nogood

variable {l : List VarId} (c : Nogood)

theorem truth_alike {m m' : Model} (h : m.Alike l m') {b : Literal} (hb : b.var ∈ l) :
    b.truth m' = b.truth m := by
  simp only [Literal.truth, h.value?_eq hb, h.contains_eq _ hb]

theorem standing_alike {m m' : Model} (h : m.Alike l m') {literals : List Literal}
    (hl : ∀ b ∈ literals, b.var ∈ l) : standing m' literals = standing m literals := by
  induction literals with
  | nil => rfl
  | cons b rest ih =>
    obtain ⟨hb, hrest⟩ := List.forall_mem_cons.mp hl
    simp only [standing, truth_alike h hb, ih hrest]

/-- The literals that are open are some of those that were looked at. -/
theorem mem_of_standing {m : Model} {literals unsettled : List Literal}
    (h : standing m literals = .ok (.waiting unsettled)) : ∀ b ∈ unsettled, b ∈ literals := by
  induction literals generalizing unsettled with
  | nil =>
    cases h
    exact fun _ => id
  | cons b rest ih =>
    obtain ⟨truth, -, h⟩ := bind_eq_ok.mp h
    match truth, h with
    | some true, h => exact fun b' hb' => List.mem_cons_of_mem b (ih h b' hb')
    | none, h =>
      obtain ⟨st, hst, h⟩ := bind_eq_ok.mp h
      cases st with
      | satisfied => cases h
      | waiting unsettled =>
        cases h
        exact List.forall_mem_cons.mpr ⟨List.mem_cons_self, fun b' hb' => List.mem_cons_of_mem b (ih hst b' hb')⟩

theorem filter_concludes (hl : ∀ b ∈ c.literals, b.var ∈ l) : Concludes (Model.Alike l) l c.filter := by
  refine .sequel (.ask fun _ _ h => standing_alike h hl) fun r hr => ?_
  obtain ⟨m, hr⟩ := hr.of_ask
  match r, hr with
  | .satisfied, _ => exact .setPassive
  | .waiting [], _ => exact .built (.fail _)
  | .waiting [b], hr =>
    have hb : b.var ∈ l := hl b (mem_of_standing hr b List.mem_cons_self)
    refine .bind (.narrow hb _) fun _ => .bind (.ask fun _ _ h => truth_alike h hb) fun truth => ?_
    split
    · exact .setPassive
    · exact .pure
  | .waiting (_ :: _ :: _), _ => exact .pure

end Nogood

/-- What is known of a constraint is known from what its variables answer. -/
theorem Constraint.entailed_alike (c : Constraint) {m m' : Model} (h : m.Alike c.propagator.scope.toList m') :
    c.propagator.entailed m' = c.propagator.entailed m := by
  cases c with
  | unequal c =>
    have hx : c.var ∈ [c.var] := List.mem_cons_self
    show c.entailed m' = c.entailed m
    simp only [Unequal.entailed, h.contains_eq c.var hx, h.isInstantiated_eq hx]
  | unequalSum c =>
    have hx : c.x ∈ [c.x, c.y] := List.mem_cons_self
    have hy : c.y ∈ [c.x, c.y] := List.mem_cons_of_mem _ List.mem_cons_self
    show c.entailed m' = c.entailed m
    simp only [UnequalSum.entailed, c.excluded_spans h.toSpans hx hy, h.value?_eq hx, h.value?_eq hy]
  | distance c => exact c.entailed_spans h.toSpans Distance.mem_both_left Distance.mem_both_right
  | linear c => exact c.entailed_spans h.toSpans fun t ht => List.mem_map_of_mem ht
  | nogood c =>
    have hstanding := Nogood.standing_alike h fun b hb => List.mem_map_of_mem hb
    show c.entailed m' = c.entailed m
    rw [Nogood.entailed, Nogood.entailed, hstanding]

/-- **The run of a constraint is built over its scope.** -/
theorem Constraint.run_concludes (c : Constraint) :
    Concludes (Model.Alike c.propagator.scope.toList) c.propagator.scope.toList c.propagator.run := by
  cases c with
  | unequal c => exact c.filter_concludes
  | unequalSum c => exact c.filter_concludes
  | distance c => exact c.filter_concludes
  | linear c => exact (c.filter_concludes fun t ht => List.mem_map_of_mem ht).mono fun _ _ h => h.toSpans
  | nogood c => exact c.filter_concludes fun b hb => List.mem_map_of_mem hb

end FiniteDomain
