import FiniteDomain.Branch.Strategy
import FiniteDomain.Proofs.Search.Narrowing

/-!
# Decisions of heuristics

Whatever its selectors and its draws, a heuristic branches on a variable with more than one value left, and
each alternative leaves just what it keeps: of an interval only the ends are taken.
-/

namespace FiniteDomain

/-- The decision is a fresh one, and its alternatives part the domain of a variable. -/
structure Decision.Splits (d : Decision) (m : Model) : Prop extends d.Parts m where
  untried : d.tried = 0

namespace Decision

variable {m : Model} {x : VarId} {y : Variable}

theorem exact_of_not_removes {d : Decision} (hc : ¬(d.split.choice d.value).Removes)
    (hr : ∀ μ, d.split.refutation d.value = .ok μ → ¬μ.Removes) : d.Exact m := by
  rintro μ (rfl | h) v ht
  · exact ht.keeps hc
  · exact ht.keeps (hr μ h)

/-- A split at a bound takes nothing out of the middle. -/
theorem exact_lower (m : Model) (x : VarId) (v : Int) (k : Nat) : (⟨x, v, .lower, k⟩ : Decision).Exact m := by
  refine exact_of_not_removes id fun μ h => ?_
  simp only [Split.refutation] at h
  obtain ⟨w, -, hw⟩ := bind_eq_ok.mp h
  cases hw
  exact id

theorem exact_upper (m : Model) (x : VarId) (v : Int) (k : Nat) : (⟨x, v, .upper, k⟩ : Decision).Exact m := by
  refine exact_of_not_removes id fun μ h => ?_
  simp only [Split.refutation] at h
  obtain ⟨w, -, hw⟩ := bind_eq_ok.mp h
  cases hw
  exact id

/-- A value is taken, or removed, if it is an end of the domain or the domain admits holes. -/
theorem exact_assign (hy : m.vars[x.index]? = some y) {v : Int} (k : Nat)
    (h : y.domain.members ≠ none ∨ v = y.domain.lb m.store ∨ v = y.domain.ub m.store) :
    (⟨x, v, .assign, k⟩ : Decision).Exact m := by
  rintro μ (rfl | hμ) w ht
  · exact ht.keeps id
  · cases hμ
    obtain ⟨-, hk | ⟨hnone, -, hlb, hub⟩⟩ := (Model.target_iff hy).mp ht
    · exact hk
    · rcases h with h | h | h
      · exact absurd hnone h
      · exact absurd h.symm hlb
      · exact absurd h.symm hub

section Parts

variable (hw : m.WellFormed) (hy : m.vars[x.index]? = some y)

include hw hy

theorem parts_lower {v : Int} (k : Nat) (hl : y.domain.lb m.store ≤ v) (hu : v < y.domain.ub m.store) :
    (⟨x, v, .lower, k⟩ : Decision).Parts m := by
  have hd := hw.domains _ y hy
  exact ⟨⟨_, (Model.has_iff hy).mpr hd.has_lb, hl⟩, ⟨_, (Model.has_iff hy).mpr hd.has_ub, Int.not_le.mpr hu⟩,
    exact_lower m x v k⟩

theorem parts_upper {v : Int} (k : Nat) (hl : y.domain.lb m.store < v) (hu : v ≤ y.domain.ub m.store) :
    (⟨x, v, .upper, k⟩ : Decision).Parts m := by
  have hd := hw.domains _ y hy
  exact ⟨⟨_, (Model.has_iff hy).mpr hd.has_ub, hu⟩, ⟨_, (Model.has_iff hy).mpr hd.has_lb, Int.not_le.mpr hl⟩,
    exact_upper m x v k⟩

/-- A value is taken from a variable that has another one. -/
theorem parts_assign (hfree : ¬m.Fixed x) {v : Int} (k : Nat) (hv : y.domain.Has m.store v)
    (h : y.domain.members ≠ none ∨ v = y.domain.lb m.store ∨ v = y.domain.ub m.store) :
    (⟨x, v, .assign, k⟩ : Decision).Parts m := by
  refine ⟨⟨v, (Model.has_iff hy).mpr hv, rfl⟩, ?_, exact_assign hy k h⟩
  refine Classical.byContradiction fun hn => hfree (hw.fixed_of_unique (Model.owns_iff.mpr ⟨y, hy⟩) (v := v) ?_)
  exact fun w hw => Decidable.byContradiction fun hne => hn ⟨w, hw, hne⟩

end Parts

end Decision

/-- The variable is one of the model, if it must be. -/
def Model.Knows [Tolerance] (m : Model) (x : VarId) : Prop := Fault.missing.Tolerated ∨ m.owns x = true

namespace Heuristic

variable [Tolerance] {m : Model}

/-! ### The variable -/

theorem isFree_meets {x : VarId} (hx : m.Knows x) :
    Meets (isFree m x) fun b => m.owns x = true ∧ (b = true ↔ ¬m.Fixed x) := by
  cases howns : m.owns x with
  | true =>
    obtain ⟨b, hb, hfixed⟩ := Model.isInstantiated_spec howns
    refine .of_exists ⟨!b, by rw [isFree, hb]; rfl, rfl, ?_⟩
    rw [← hfixed]
    cases b <;> simp
  | false =>
    have hnone : m.vars[x.index]? = none := by
      cases hy : m.vars[x.index]? with
      | none => rfl
      | some y => exact absurd (Model.owns_iff.mpr ⟨y, hy⟩) (by rw [howns]; simp)
    have herror : isFree m x = .error .missing := by
      simp only [isFree, Model.isInstantiated, Model.domain, Model.variableOf, hnone]
      rfl
    rw [herror]
    exact .error (hx.resolve_right (by rw [howns]; simp))

/-- What there is to branch on: a variable of the list with more than one value left, or nothing if all are fixed. -/
def Picks (m : Model) (l : List VarId) (r : Option VarId) : Prop :=
  (∀ x, r = some x → x ∈ l ∧ m.owns x = true ∧ ¬m.Fixed x) ∧ (r = none → ∀ x ∈ l, m.Fixed x)

theorem firstFree_meets {l : List VarId} (hl : ∀ x ∈ l, m.Knows x) : Meets (firstFree m l) (Picks m l) := by
  induction l with
  | nil => exact .ok ⟨fun _ h => (by cases h), fun _ _ h => absurd h List.not_mem_nil⟩
  | cons z rest ih =>
    obtain ⟨hz, hrest⟩ := List.forall_mem_cons.mp hl
    rw [firstFree]
    refine .bind (isFree_meets hz) ?_
    rintro b ⟨howns, hb⟩
    cases b with
    | true =>
      refine .ok ⟨?_, fun h => by cases h⟩
      rintro _ ⟨⟩
      exact ⟨List.mem_cons_self, howns, hb.mp rfl⟩
    | false =>
      refine (ih hrest).mono fun r hr => ⟨fun x hx => ?_, fun hnone => List.forall_mem_cons.mpr ⟨?_, hr.2 hnone⟩⟩
      · exact ⟨List.mem_cons_of_mem z (hr.1 x hx).1, (hr.1 x hx).2⟩
      · exact Classical.byContradiction fun hn => Bool.false_ne_true (hb.mpr hn)

theorem allFree_meets {l : List VarId} (hl : ∀ x ∈ l, m.Knows x) :
    Meets (allFree m l) fun free => (∀ x ∈ free, x ∈ l ∧ m.owns x = true ∧ ¬m.Fixed x) ∧
      ∀ x ∈ l, x ∈ free ∨ m.Fixed x := by
  induction l with
  | nil => exact .ok ⟨fun _ h => absurd h List.not_mem_nil, fun _ h => absurd h List.not_mem_nil⟩
  | cons z rest ih =>
    obtain ⟨hz, hrest⟩ := List.forall_mem_cons.mp hl
    rw [allFree]
    refine .bind (isFree_meets hz) ?_
    rintro b ⟨howns, hb⟩
    have hlist : ∀ free : List VarId, (∀ x ∈ free, x ∈ rest ∧ m.owns x = true ∧ ¬m.Fixed x) →
        ∀ x ∈ free, x ∈ z :: rest ∧ m.owns x = true ∧ ¬m.Fixed x :=
      fun free hfree x hx => ⟨List.mem_cons_of_mem z (hfree x hx).1, (hfree x hx).2⟩
    cases b with
    | true =>
      refine .bind (ih hrest) ?_
      rintro free ⟨hfree, hall⟩
      refine .ok ⟨List.forall_mem_cons.mpr ⟨⟨List.mem_cons_self, howns, hb.mp rfl⟩, hlist free hfree⟩, ?_⟩
      exact List.forall_mem_cons.mpr ⟨.inl List.mem_cons_self, fun x hx => (hall x hx).imp_left (List.mem_cons_of_mem z)⟩
    | false =>
      refine (ih hrest).mono ?_
      rintro free ⟨hfree, hall⟩
      refine ⟨hlist free hfree, List.forall_mem_cons.mpr ⟨.inr ?_, hall⟩⟩
      exact Classical.byContradiction fun hn => Bool.false_ne_true (hb.mpr hn)

omit [Tolerance] in
theorem leastBy_spec {key : VarId → Except Fault Int} {l : List VarId} (hk : ∀ x ∈ l, ∃ v, key x = .ok v) :
    ∃ r, leastBy key l = .ok r ∧ (∀ x, r = some x → x ∈ l) ∧ (r = none → l = []) := by
  induction l with
  | nil => exact ⟨none, rfl, (fun _ h => by cases h), fun _ => rfl⟩
  | cons z rest ih =>
    obtain ⟨⟨v, hv⟩, hrest⟩ := List.forall_mem_cons.mp hk
    obtain ⟨r, hr, hmem, -⟩ := ih hrest
    rw [leastBy, hr, ok_bind]
    cases r with
    | none =>
      refine ⟨some z, rfl, ?_, fun h => by cases h⟩
      rintro _ ⟨⟩
      exact List.mem_cons_self
    | some y =>
      obtain ⟨w, hw⟩ := hrest y (hmem y rfl)
      simp only [hv, hw, ok_bind]
      refine ⟨_, rfl, ?_, fun h => by cases h⟩
      rintro x hx
      split at hx
      · cases hx
        exact List.mem_cons_self
      · cases hx
        exact List.mem_cons_of_mem z (hmem _ rfl)

/-- **The variable picked** has more than one value left, and one is picked unless all are fixed. -/
theorem pickVar_meets {h : Heuristic} (hv : ∀ x ∈ h.vars, m.Knows x) :
    Meets (h.pickVar m) fun e => e.2.vars = h.vars ∧ Picks m h.vars e.1 := by
  have hleast : ∀ key : VarId → Except Fault Int,
      (∀ (x : VarId) (y : Variable), m.vars[x.index]? = some y → ∃ v, key x = .ok v) →
      Meets (do return (← leastBy key (← allFree m h.vars), h) : Except Fault (Option VarId × Heuristic)) fun e =>
        e.2.vars = h.vars ∧ Picks m h.vars e.1 := by
    intro key hkey
    refine .bind (allFree_meets hv) ?_
    rintro free ⟨hfree, hall⟩
    have hkeys : ∀ x ∈ free, ∃ v, key x = .ok v := fun x hx => by
      obtain ⟨y, hy⟩ := Model.owns_iff.mp (hfree x hx).2.1
      exact hkey x y hy
    obtain ⟨r, hr, hmem, hempty⟩ := leastBy_spec hkeys
    rw [hr]
    refine .ok ⟨rfl, fun x hx => hfree x (hmem x hx), fun hnone x hx => ?_⟩
    exact (hall x hx).resolve_left (hempty hnone ▸ List.not_mem_nil)
  rw [pickVar]
  cases h.varSelector with
  | inputOrder => exact .bind (firstFree_meets hv) fun r hr => .ok ⟨rfl, hr⟩
  | firstFail => exact hleast _ fun x y hy => ⟨_, Model.size_eq hy⟩
  | antiFirstFail => exact hleast _ fun x y hy => ⟨_, by rw [Model.size_eq hy]; rfl⟩
  | smallest => exact hleast _ fun x y hy => ⟨_, Model.lb_eq hy⟩
  | largest => exact hleast _ fun x y hy => ⟨_, by rw [Model.ub_eq hy]; rfl⟩
  | random =>
    refine .bind (allFree_meets hv) ?_
    rintro free ⟨hfree, hall⟩
    simp only
    split
    · rename_i hempty
      obtain rfl := List.isEmpty_iff.mp hempty
      exact .ok ⟨rfl, (fun _ h => by cases h), fun _ x hx => (hall x hx).resolve_left List.not_mem_nil⟩
    · rename_i hne
      have hpos : 0 < free.length := List.length_pos_iff.mpr fun h => hne (List.isEmpty_iff.mpr h)
      have hlt : (h.draws.below free.length).1 < free.length := Nat.mod_lt _ hpos
      refine .ok ⟨rfl, fun x hx => hfree x (List.mem_of_getElem? hx), fun hnone => ?_⟩
      exact absurd hlt (Nat.not_lt.mpr (List.getElem?_eq_none_iff.mp hnone))

/-! ### The split -/

section Split

variable (hw : m.WellFormed) {x : VarId}

include hw

omit [Tolerance] in
theorem nearest_spec (hx : m.owns x = true) {v : Int} (hv : Value.Fits v) :
    ∃ w, nearest m x v = .ok w ∧ m.Has x w := by
  obtain ⟨b, hb, hhas⟩ := hw.contains_spec hx v
  obtain ⟨p, hp, hprev⟩ := hw.previous?_spec hx hv
  obtain ⟨s, hs, hnext⟩ := hw.next?_spec hx hv
  obtain ⟨l, hl, hlow, -⟩ := hw.lb_spec hx
  rw [nearest, hb, ok_bind]
  cases b with
  | true => exact ⟨v, rfl, hhas.mp rfl⟩
  | false =>
    simp only [Bool.false_eq_true, if_false, hp, hs, ok_bind]
    cases p with
    | none =>
      cases s with
      | none => exact ⟨l, hl, hlow⟩
      | some high => exact ⟨high, rfl, hnext.1.1⟩
    | some low =>
      cases s with
      | none => exact ⟨low, rfl, hprev.1.1⟩
      | some high =>
        refine ⟨_, rfl, ?_⟩
        split
        · exact hprev.1.1
        · exact hnext.1.1

variable {y : Variable} (hy : m.vars[x.index]? = some y)

include hy

omit [Tolerance] in
theorem anyValue_spec (h : Heuristic) : ∃ v h', h.anyValue m x = .ok (v, h') ∧ h'.vars = h.vars ∧
    y.domain.Has m.store v ∧ (y.domain.members ≠ none ∨ v = y.domain.lb m.store ∨ v = y.domain.ub m.store) := by
  have hd := hw.domains _ y hy
  have hdraw : ∀ (values : Array Int), values ≠ #[] →
      ∃ v, values[(h.draws.below values.size).1]? = some v ∧ v ∈ values := by
    intro values hne
    have hlt : (h.draws.below values.size).1 < values.size := Nat.mod_lt _ (Array.size_pos_iff.mpr hne)
    exact ⟨_, Array.getElem?_eq_getElem hlt, Array.getElem_mem hlt⟩
  rw [anyValue, Model.isEnumerated_eq hy, ok_bind]
  cases hm : y.domain.members with
  | some members =>
    obtain ⟨values, hvalues, -, hmem⟩ := hw.values_spec (Model.owns_iff.mpr ⟨y, hy⟩)
    have hne : values ≠ #[] := fun heq => by
      have := (hmem _).mpr ((Model.has_iff hy).mpr hd.has_lb)
      rw [heq] at this
      exact absurd this (Array.not_mem_empty _)
    obtain ⟨v, hv, hin⟩ := hdraw values hne
    have he : y.domain.isEnumerated = true := by rw [Domain.isEnumerated, hm]; rfl
    refine ⟨v, { h with draws := (h.draws.below values.size).2 }, ?_, rfl, (Model.has_iff hy).mp ((hmem v).mp hin),
      .inl (by simp)⟩
    simp only [he, if_true, hvalues, ok_bind]
    rw [hv]
    rfl
  | none =>
    obtain ⟨v, hv, hin⟩ := hdraw #[y.domain.lb m.store, y.domain.ub m.store] (by simp)
    have he : y.domain.isEnumerated = false := by rw [Domain.isEnumerated, hm]; rfl
    have hend : v = y.domain.lb m.store ∨ v = y.domain.ub m.store := by simpa using hin
    refine ⟨v, { h with draws := (h.draws.below 2).2 }, ?_, rfl, ?_, .inr hend⟩
    · simp only [he, Bool.false_eq_true, if_false, Model.lb_eq hy, Model.ub_eq hy, ok_bind, pure_eq_ok]
      rw [hv]
      rfl
    · rcases hend with rfl | rfl
      · exact hd.has_lb
      · exact hd.has_ub

omit [Tolerance] in
/-- **The split** of a variable with more than one value left. -/
theorem pickSplit_spec (hfree : ¬m.Fixed x) (h : Heuristic) :
    ∃ d h', h.pickSplit m x = .ok (d, h') ∧ h'.vars = h.vars ∧ d.var = x ∧ d.Splits m := by
  have hd := hw.domains _ y hy
  have hlt : y.domain.lb m.store < y.domain.ub m.store := by
    have hle := hd.lb_le_ub
    have hne : y.domain.lb m.store ≠ y.domain.ub m.store := fun heq => hfree ((Model.fixed_iff hy).mpr heq)
    omega
  have h1 := hd.fits_lb
  have h2 := hd.fits_ub
  simp only [Value.Fits] at h1 h2
  obtain ⟨mid, hmid⟩ : ∃ mid, mid = middle (y.domain.lb m.store) (y.domain.ub m.store) := ⟨_, rfl⟩
  have hlow : y.domain.lb m.store ≤ mid := by rw [hmid, middle]; omega
  have hhigh : mid < y.domain.ub m.store := by rw [hmid, middle]; omega
  rw [pickSplit, Model.lb_eq hy, Model.ub_eq hy, ok_bind, ok_bind]
  simp only [← hmid]
  cases h.valSelector with
  | min => exact ⟨_, h, rfl, rfl, rfl, Decision.parts_assign hw hy hfree 0 hd.has_lb (.inr (.inl rfl)), rfl⟩
  | max => exact ⟨_, h, rfl, rfl, rfl, Decision.parts_assign hw hy hfree 0 hd.has_ub (.inr (.inr rfl)), rfl⟩
  | middle =>
    simp only [Model.isEnumerated_eq hy, ok_bind]
    split
    · rename_i he
      obtain ⟨w, hw', hhas⟩ := nearest_spec hw (Model.owns_iff.mpr ⟨y, hy⟩) (v := mid) (by simp only [Value.Fits]; omega)
      refine ⟨⟨x, w, .assign, 0⟩, h, by rw [hw']; rfl, rfl, rfl, ?_, rfl⟩
      exact Decision.parts_assign hw hy hfree 0 ((Model.has_iff hy).mp hhas) (.inl (Option.isSome_iff_ne_none.mp he))
    · exact ⟨_, h, rfl, rfl, rfl, Decision.parts_lower hw hy 0 hlow hhigh, rfl⟩
  | random =>
    obtain ⟨v, h', hv, hvars, hhas, hend⟩ := anyValue_spec hw hy h
    exact ⟨⟨x, v, .assign, 0⟩, h', by rw [hv]; rfl, hvars, rfl, Decision.parts_assign hw hy hfree 0 hhas hend, rfl⟩
  | splitMiddle => exact ⟨_, h, rfl, rfl, rfl, Decision.parts_lower hw hy 0 hlow hhigh, rfl⟩
  | reverseSplitMiddle =>
    have hfits : Value.Fits (mid + 1) := by simp only [Value.Fits]; omega
    refine ⟨⟨x, mid + 1, .upper, 0⟩, h, ?_, rfl, rfl, Decision.parts_upper hw hy 0 (by omega) (by omega), rfl⟩
    rw [successor_eq_ok hfits]
    rfl

end Split

/-- **Every decision of a heuristic splits a domain**, that of a variable of its list, and there is one unless all of
these are fixed. -/
theorem next_meets (hw : m.WellFormed) {h : Heuristic} (hv : ∀ x ∈ h.vars, m.Knows x) :
    Meets (h.next m) fun e => e.2.vars = h.vars ∧ (∀ d, e.1 = some d → d.var ∈ h.vars ∧ d.Splits m) ∧
      (e.1 = none → ∀ x ∈ h.vars, m.Fixed x) := by
  refine .bind (pickVar_meets hv) ?_
  rintro ⟨x?, h1⟩ ⟨hvars, hx, hnone⟩
  cases x? with
  | none => exact .ok ⟨hvars, (fun _ h => by cases h), fun _ => hnone rfl⟩
  | some x =>
    obtain ⟨hmem, howns, hfree⟩ := hx x rfl
    obtain ⟨y, hy⟩ := Model.owns_iff.mp howns
    obtain ⟨d, h2, hd, hvars2, rfl, hsplits⟩ := pickSplit_spec hw hy hfree h1
    simp only [hd, ok_bind]
    refine .ok ⟨hvars2.trans hvars, ?_, fun h => by cases h⟩
    rintro _ ⟨⟩
    exact ⟨hmem, hsplits⟩

end Heuristic

/-! ### Strategies -/

/-- In a state of the set, and in all that follow, the strategy splits domains of the variables of a model. -/
structure Strategy.Splits [Tolerance] {σ : Type} (s : Strategy σ) (start : Model) (P : σ → Prop) : Prop where
  next : ∀ b m, P b → m.vars = start.vars → m.WellFormed →
    Meets (s.next b m) fun e => P e.2 ∧ ∀ d, e.1 = some d → d.Splits m
  restarted : ∀ b k, P b → P (s.restarted b k)

/-- The brancher is a heuristic. -/
def Brancher.IsHeuristic : Brancher → Prop
  | heuristic _ => True
  | script _ => False

/-- The brancher is a heuristic on variables of the model, if they must be. -/
def Brancher.Suits [Tolerance] (m : Model) : Brancher → Prop
  | heuristic h => ∀ x ∈ h.vars, m.Knows x
  | script _ => False

theorem Brancher.strategy_splits [Tolerance] (start : Model) : Brancher.strategy.Splits start (Brancher.Suits start) := by
  refine ⟨?_, ?_⟩
  · intro b m hb hm hw
    match b, hb with
    | heuristic h, hb =>
      have hknows : ∀ x ∈ h.vars, m.Knows x := fun x hx => by
        rw [Model.Knows, Model.owns, hm]
        exact hb x hx
      refine .bind (Heuristic.next_meets hw hknows) ?_
      rintro ⟨d, h'⟩ ⟨hvars, hsplits, -⟩
      refine .ok ⟨fun x hx => hb x (hvars ▸ hx), fun d hd => (hsplits d hd).2⟩
  · intro b k hb
    match b, hb with
    | heuristic h, hb => exact hb

/-! ### Untried decisions -/

/-- In a state of the set, and in all that follow, the decisions of the strategy come untried. -/
structure Strategy.Fresh {σ : Type} (s : Strategy σ) (P : σ → Prop) : Prop where
  next : ∀ b m d? b', P b → s.next b m = .ok (d?, b') → P b' ∧ ∀ d, d? = some d → d.tried = 0
  restarted : ∀ b k, P b → P (s.restarted b k)

theorem Heuristic.next_untried {h h' : Heuristic} {m : Model} {d? : Option Decision} (hnext : h.next m = .ok (d?, h')) :
    ∀ d, d? = some d → d.tried = 0 := by
  let := Tolerance.lenient
  have hsplit : ∀ (h : Heuristic) x, Meets (h.pickSplit m x) fun r => r.1.tried = 0 := by
    intro h x
    refine .bind (.lenient _) fun lb _ => .bind (.lenient _) fun ub _ => ?_
    dsimp only
    split
    · exact .ok rfl
    · exact .ok rfl
    · refine .bind (.lenient _) fun enumerated _ => ?_
      split
      · exact .bind (.lenient _) fun _ _ => .ok rfl
      · exact .ok rfl
    · exact .bind (.lenient _) fun _ _ => .ok rfl
    · exact .ok rfl
    · exact .bind (.lenient _) fun _ _ => .ok rfl
  have hmeets : Meets (h.next m) fun r => ∀ d, r.1 = some d → d.tried = 0 := by
    refine .bind (.lenient _) fun picked _ => ?_
    split
    · exact .ok nofun
    · refine .bind (hsplit _ _) fun r hr => .ok ?_
      rintro d ⟨⟩
      exact hr
  exact hmeets.1 _ hnext

/-- The brancher is a heuristic, or a list of untried decisions. -/
def Brancher.Untried : Brancher → Prop
  | heuristic _ => True
  | script answers => ∀ d, some d ∈ answers → d.tried = 0

theorem Brancher.strategy_fresh : Brancher.strategy.Fresh Brancher.Untried := by
  refine ⟨?_, ?_⟩
  · intro b m d? b' hb hnext
    match b, hb with
    | heuristic h, _ =>
      obtain ⟨⟨d, h'⟩, hpicked, hnext⟩ := bind_eq_ok.mp hnext
      cases hnext
      exact ⟨trivial, Heuristic.next_untried hpicked⟩
    | script [], hb =>
      cases hnext
      exact ⟨hb, nofun⟩
    | script (d :: rest), hb =>
      cases hnext
      refine ⟨fun e he => hb e (List.mem_cons_of_mem _ he), ?_⟩
      rintro e rfl
      exact hb e List.mem_cons_self
  · intro b k hb
    match b, hb with
    | heuristic h, _ => exact trivial
    | script answers, hb => exact hb

end FiniteDomain
