import FiniteDomain.Proofs.Search.Invariant

/-!
# Turns at branches keep up the invariant

Going down into the first alternative of a decision, and going up to its refutation or to the decision above:
what the turn shows is what may be shown, and after it the search stands somewhere again.
-/

namespace FiniteDomain

open Activity

variable [Tolerance] {σ : Type} {q : Quest} {P : σ → Prop} {r : Roster} {shown : List Moment} {s : SearchState σ}
  {R : Assignment → Prop}

/-! ### Other networks -/

omit [Tolerance] in
/-- The search goes on with a network that was changed in a world above. -/
theorem Sound.above (h : Sound q P r shown R s) {c : Network} {below : Except Fault (Store Datum)}
    (hc : c.Above q r below) (hcalm : c.failed = false) : Sound q P r shown R { s with network := c } :=
  { h with wired := hc.wired, started := hc.started, calm := hcalm, frame := hc.frame, linked := hc.linked }

omit [Tolerance] in
/-- The search goes on with a network that failed, once it let go of all that was to be propagated. -/
theorem Sound.fail (h : Sound q P r shown R s) {c : Network} {below : Except Fault (Store Datum)}
    (hc : c.Above q r below) (fails : Nat) : Sound q P r shown R { s with
      measures := { s.measures with fails }
      network := c.flush.takeLast.2 } := by
  have hf := Network.flush_spec hc.wired
  have hw := hf.wired
  refine { h with wired := ?_, started := ?_, calm := hf.failed_eq, frame := ?_, linked := ?_ }
  · exact ⟨hw.member, hw.removed, hw.watched, hw.queued, hw.waiting, hw.owing, hw.calm⟩
  · exact hf.started_eq.trans hc.started
  · exact hc.frame.step hf.model_eq
  · exact hc.linked

theorem SearchState.fail_spec (s : SearchState σ) (c : Contradiction) :
    Ensures (fun before c => q.Shown (shown ++ before) c) (s.fail c) fun s' new => solutionsOf new = [] ∧
      s' = { s with
        measures := { s.measures with fails := s.measures.fails + 1 }
        network := s.network.flush.takeLast.2 } := by
  rw [fail]
  refine Quiet.before (.report rfl) fun _ _ => ?_
  refine Ensures.bind (R := fun _ new => solutionsOf new = []) (.tell trivial rfl) fun _ new hn => ?_
  refine Ensures.pure ⟨?_, rfl⟩
  rw [List.append_nil]
  exact hn

/-! ### Branches -/

omit [Tolerance] in
/-- The next alternative of a decision opens what is left above it, without what the first one held. -/
theorem region_next {d : Decision} {rest : List Decision} {a : Assignment} (ht : d.tried < 2) :
    Region ({ d with tried := d.tried + 1 } :: rest) a ↔
      (OnPath rest a ∧ (d.tried = 1 → ¬d.Holds a)) ∨ Remains rest a := by
  rw [Region, onPath_cons, Remains]
  rcases Nat.lt_or_ge d.tried 1 with h0 | h1
  · have h0 : d.tried = 0 := by omega
    generalize ({ d with tried := d.tried + 1 } : Decision).Holds a = first
    by_cases hd : first <;> simp [hd, h0]
  · have h1 : d.tried = 1 := by omega
    rw [Decision.holds_next h1]
    simp [h1, and_comm]

/-- The search is about to take the next alternative of the deepest decision. -/
structure Poised (q : Quest) (P : σ → Prop) (r : Roster) (shown : List Moment) (d : Decision) (rest : List Decision)
    (s : SearchState σ) : Prop where
  sound : Sound q P r shown (fun a => (OnPath rest a ∧ (d.tried = 1 → ¬d.Holds a)) ∨ Remains rest a) s
  path : s.path.fromDeepest = d :: rest
  ladder : Ladder q r (q.Seeks s.found s.measures.best) rest s.network.model.store
  node : Node q r (q.Seeks s.found s.measures.best) rest s.network.model.store
  parts : d.Parts (q.modelAt s.network.model.store)
  tried : d.tried < 2

section Turns

variable (ho : ∀ o, q.task.objective = some o → q.start.owns o.var = true)

include ho

theorem Poised.branch_spec {d : Decision} {rest : List Decision} (h : Poised q P r shown d rest s) :
    Turns q P shown (s.branch q.task d >>= fun e => e.2.settle e.1) := by
  have hs := h.sound
  refine Quiet.before (SearchState.branch_spec hs.wired hs.started hs.calm hs.frame h.node h.parts h.tried ho
    hs.improves hs.ledger.fits) ?_
  rintro ⟨outcome, s'⟩ ⟨hs', hlands⟩
  obtain ⟨n, rfl⟩ : ∃ n, s' = { s with
      network := n
      path := s.path.replaceLast { d with tried := d.tried + 1 } } := ⟨_, hs'⟩
  clear hs'
  have hpath : (s.path.replaceLast { d with tried := d.tried + 1 }).fromDeepest =
      { d with tried := d.tried + 1 } :: rest := by
    rw [DecisionPath.fromDeepest_replaceLast, h.path]
    rfl
  have hrung : Rung q r (q.Seeks s.found s.measures.best) { d with tried := d.tried + 1 } rest
      s.network.model.store := by
    refine ⟨h.node, h.parts.next, ?_⟩
    have := h.tried
    simp only
    omega
  have hturn : Sound q P r shown (Region ({ d with tried := d.tried + 1 } :: rest)) s :=
    hs.turn (fun a _ => (region_next h.tried).mpr) fun _ a => (region_next h.tried).mp
  have hladder : ∀ c : Network, c.Above q r (.ok s.network.model.store) →
      Ladder q r (q.Seeks s.found s.measures.best) ({ d with tried := d.tried + 1 } :: rest) c.model.store :=
    fun _ hc => ⟨s.network.model.store, hc.pop, hrung, h.ladder⟩
  cases outcome with
  | ok u =>
    obtain ⟨hc, hcalm, hnode, hbeats⟩ := hlands
    refine Turns.done (r := r) ?_
    simp only [SearchState.Stands, hpath]
    exact ⟨{ hturn.above hc hcalm with }, hladder n hc, hnode, hbeats⟩
  | error c =>
    obtain ⟨hc, hnone⟩ := hlands
    refine Turns.after (SearchState.fail_spec _ c) ?_
    rintro s' new ⟨hnew, rfl⟩
    refine Turns.done (r := r) ?_
    have hup : Sound q P r (shown ++ new) (Remains ({ d with tried := d.tried + 1 } :: rest)) s :=
      (hturn.turn (fun a ha hR => hR.resolve_left (hnone a ha)) fun _ a => .inr).skip hnew
    simp only [SearchState.Stands, hpath]
    exact ⟨{ hup.fail hc (s.measures.fails + 1) with }, hladder n hc⟩

theorem SearchState.goDown_spec (hturn : s.turn = .down) (h : s.Stands q P r shown) :
    Turns q P shown (s.goDown q.task) := by
  simp only [Stands, hturn] at h
  obtain ⟨d, rest, hpath, hsound, hladder, hnode, hsplits⟩ := h
  have hlast : s.path.last? = some d := by rw [DecisionPath.last?_eq, hpath]; rfl
  simp only [goDown, hlast]
  refine Turns.tell trivial ?_
  have hpoised : Poised q P r shown d rest { s with measures := { s.measures with
      decisions := s.measures.decisions + 1
      maxDepth := max s.measures.maxDepth s.path.depth } } := by
    refine ⟨?_, hpath, hladder, hnode, hsplits.toParts, by rw [hsplits.untried]; decide⟩
    have h0 : ∀ a, d.tried = 1 → ¬d.Holds a := fun a h1 => by rw [hsplits.untried] at h1; cases h1
    have hto := hsound.turn (T := fun a => (OnPath rest a ∧ (d.tried = 1 → ¬d.Holds a)) ∨ Remains rest a)
      (fun a _ hR => hR.imp_left fun hp => ⟨hp, h0 a⟩) fun _ a hR => hR.imp_left And.left
    exact { hto with }
  exact Poised.branch_spec ho { hpoised with sound := hpoised.sound.skip rfl }

theorem SearchState.goUp_spec (hturn : s.turn = .up) (h : s.Stands q P r shown) :
    Turns q P shown (s.goUp q.task) := by
  simp only [Stands, hturn] at h
  obtain ⟨hsound, hladder⟩ := h
  rw [goUp, DecisionPath.last?_eq]
  cases hpath : s.path.fromDeepest with
  | nil =>
    rw [hpath] at hsound hladder
    refine Turns.done (r := r) ?_
    simp only [Stands, hpath]
    exact ⟨Remains [], { hsound with }, hladder, fun _ a hR => hR⟩
  | cons d rest =>
    rw [hpath] at hsound hladder
    obtain ⟨t, hpop, hrung, hladder⟩ := hladder
    simp only [List.head?_cons]
    refine Quiet.before (.answer (Network.mapModel_eq_ok (Model.popWorld_eq_ok hpop)) rfl) ?_
    rintro _ rfl
    have hsound : Sound q P r shown (Remains (d :: rest)) { s with
        network := { s.network with model := { s.network.model with store := t } }
        measures := { s.measures with backtracks := s.measures.backtracks + 1 } } :=
      { hsound with wired := hsound.wired.withModel _, frame := hsound.frame.step rfl, linked := hrung.linked }
    split
    · rename_i hnext
      have h1 : d.tried = 1 := by
        have hlt : d.tried < 2 := of_decide_eq_true hnext
        rcases hrung.tried with h1 | h2 <;> omega
      refine Turns.tell trivial ?_
      have hto := (hsound.skip rfl : Sound q P r (shown ++ [(.up d, { s.network.model with store := t })]) _ _).turn
        (T := fun a => (OnPath rest a ∧ (d.tried = 1 → ¬d.Holds a)) ∨ Remains rest a)
        (fun a _ hR => hR.imp_left fun hR => ⟨hR.2.2, fun _ => hR.2.1⟩)
        fun _ a hR => hR.imp_left fun hR => ⟨h1, hR.2 h1, hR.1⟩
      exact Poised.branch_spec ho ⟨hto, hpath, hladder, hrung.toNode, hrung.parts, by rw [h1]; decide⟩
    · rename_i hnext
      have h2 : d.tried ≠ 1 := by
        intro h1
        exact hnext (decide_eq_true (by rw [h1]; decide))
      refine Turns.done (r := r) ?_
      have hto := hsound.turn (T := Remains rest) (fun a _ hR => hR.resolve_left fun hR => h2 hR.1) fun _ a => .inr
      have hpath' : s.path.parent.fromDeepest = rest := by rw [DecisionPath.fromDeepest_parent, hpath]; rfl
      simp only [Stands, hturn, hpath']
      exact ⟨{ hto with }, hladder⟩

end Turns

end FiniteDomain
