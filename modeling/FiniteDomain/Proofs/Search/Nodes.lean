import FiniteDomain.Proofs.Search.Branches

/-!
# Turns at nodes keep up the invariant

A node is opened, and a decision taken there or a solution handed out.

* `recordSolution_spec`: the solution is a new one, and what is still looked for is elsewhere;
* `openNode_spec`.
-/

namespace FiniteDomain

open Activity

variable [Tolerance] {σ : Type} {q : Quest} {P : σ → Prop} {r : Roster} {L : Assignment → Prop} {shown : List Moment}
  {s : SearchState σ} {path : List Decision}

/-! ### On the way to a restart -/

omit [Tolerance] in
theorem RestartPolicy.isEnabled_of_isDue {p : RestartPolicy} {restarts nodes : Nat}
    (h : p.isDue restarts nodes = true) : p.isEnabled = true := by
  cases p with
  | never => exact h
  | onSolution | luby _ | geometric _ _ => rfl

omit [Tolerance] in
theorem RestartPolicy.isEnabled_of_atSolutions {p : RestartPolicy} (h : p.atSolutions = true) : p.isEnabled = true := by
  cases p with
  | onSolution => rfl
  | never | luby _ | geometric _ _ => exact absurd h Bool.false_ne_true

/-- A node at the root is where a restart lands. -/
theorem Node.landing {n : Network} {t : Store Datum} (h : Node q r L [] t) (hl : Ladder q r L [] t)
    (hp : n.model.store.popUntil q.root = .ok t) : Landing q r L n t :=
  ⟨hp, hl, h.settles.toSuits, fun id e he => .inr (h.settles.decided id e he), fun a ha => (h.sound a ha).1,
    fun a ha => h.complete a ha (onPath_nil a)⟩

/-- The root can be reached from everywhere, if it can be reached from itself. -/
theorem Ladder.exists_landing {n : Network} (h : Ladder q r L path n.model.store) (hs : n.model.store.Linked)
    (hroot : path = [] → Landing q r L n n.model.store) : ∃ t, Landing q r L n t := by
  by_cases hp : path = []
  · exact ⟨_, hroot hp⟩
  · obtain ⟨t, hpop, hl, hnode⟩ := h.popUntil_root hs hp
    exact ⟨t, hnode.landing hl hpop⟩

theorem Ladder.popUntil_self {t : Store Datum} (h : Ladder q r L [] t) (hl : t.Linked) : t.popUntil q.root = .ok t := by
  have hw : t.world = q.root := h.world_eq hl
  rw [Store.popUntil_of_le (Nat.le_of_eq hw.symm), hw, Nat.sub_self]
  rfl

/-- The variables of the decisions on the path are of the model. -/
theorem Ladder.owns {t : Store Datum} (h : Ladder q r L path t) : ∀ d ∈ path, q.start.owns d.var = true := by
  induction path generalizing t with
  | nil => exact fun d hd => absurd hd List.not_mem_nil
  | cons d rest ih =>
    obtain ⟨u, -, hr, hl⟩ := h
    exact List.forall_mem_cons.mpr ⟨hr.parts.owns, ih hl⟩

/-! ### Solutions -/

omit [Tolerance] in
theorem Objective.not_better_self (o : Objective) (v : Int) : ¬o.Better v v := by
  cases o with
  | minimize x => exact Int.lt_irrefl v
  | maximize x => exact Int.lt_irrefl v

omit [Tolerance] in
/-- What is still looked for after a solution was looked for before, and differs from it. -/
theorem Quest.Seeks.of_push {found : Array Solution} {best : Option Int} {a b : Assignment}
    (ho : ∀ o, q.task.objective = some o → q.start.owns o.var = true)
    (hbetter : ∀ o v, q.task.objective = some o → best = some v → o.Better (b o.var) v)
    (h : q.Seeks (found.push ⟨q.start.valuesOf b, q.task.objective.map fun o => b o.var⟩)
      ((q.task.objective.map fun o => b o.var) <|> best) a) :
    q.Seeks found best a ∧ q.start.valuesOf a ≠ q.start.valuesOf b := by
  obtain ⟨hgoal, himp, hnot⟩ := h
  cases hobj : q.task.objective with
  | none =>
    refine ⟨⟨hgoal, fun o v h => absurd (hobj.symm.trans h) (by simp), fun _ sol hsol => ?_⟩, fun heq => ?_⟩
    · exact hnot hobj sol (Array.mem_push_of_mem _ hsol)
    · exact hnot hobj _ Array.mem_push_self heq.symm
  | some o =>
    have hlt : o.Better (a o.var) (b o.var) := himp o _ hobj (by rw [hobj]; rfl)
    refine ⟨⟨hgoal, fun o' v ho' hv => ?_, fun hnone => absurd (hobj.symm.trans hnone) (by simp)⟩, fun heq => ?_⟩
    · cases hobj.symm.trans ho'
      exact o.better_trans hlt (hbetter o v hobj hv)
    · rw [Model.valuesOf_eq_iff.mp heq _ (ho o hobj)] at hlt
      exact o.not_better_self _ hlt

omit [Tolerance] in
/-- Only the values of the model's variables matter. -/
theorem Model.Allows.congr {m : Model} {a b : Assignment} (h : m.Allows a) (heq : m.valuesOf b = m.valuesOf a) :
    m.Allows b := by
  intro x hx
  rw [Model.valuesOf_eq_iff.mp heq x hx]
  exact h x hx

/-- The search with a further solution, and with other nogoods recorded in its network. -/
def SearchState.gain (s : SearchState σ) (solution : Solution) (network : Network) (recorded : Array PropId) :
    SearchState σ :=
  { s with
    network
    recorded
    found := s.found.push solution
    measures := { s.measures with
      solutions := s.measures.solutions + 1
      best := solution.objective <|> s.measures.best } }

/-- The search is at a node where all variables are fixed, and the assignment is the one that is left. -/
structure Found (q : Quest) (P : σ → Prop) (r : Roster) (shown : List Moment) (a : Assignment)
    (s : SearchState σ) : Prop where
  sound : Sound q P r shown (Region s.path.fromDeepest) s
  ladder : Ladder q r (q.Seeks s.found s.measures.best) s.path.fromDeepest s.network.model.store
  node : Node q r (q.Seeks s.found s.measures.best) s.path.fromDeepest s.network.model.store
  beats : s.network.model.Beats q.task.objective s.measures.best
  fixed : ∀ x, s.network.model.owns x = true → s.network.model.Fixed x
  allows : s.network.model.Allows a

namespace Found

variable {a : Assignment}

theorem settles (h : Found q P r shown a s) : r.Settles s.network.model :=
  h.node.settles.agrees (h.sound.frame.modelAt_agrees h.sound.linked) fun _ _ _ => rfl

theorem node_allows (h : Found q P r shown a s) : (q.modelAt s.network.model.store).Allows a :=
  ((h.sound.frame.modelAt_agrees h.sound.linked).allows_iff a).mp h.allows

theorem holds (h : Found q P r shown a s) : r.Admits a := fun id e he =>
  h.settles.decided id e he (fun x hx => h.fixed x ((h.settles.suits id e he).scope x hx)) a h.allows

theorem goal (h : Found q P r shown a s) : q.Goal a :=
  ⟨(h.node.sound a h.node_allows).1, fun id e he => h.holds id e (h.sound.posted id e he)⟩

theorem onPath (h : Found q P r shown a s) : OnPath s.path.fromDeepest a := (h.node.sound a h.node_allows).2

theorem valuesOf_eq (h : Found q P r shown a s) (b : Assignment) :
    s.network.model.valuesOf b = q.start.valuesOf b := Model.valuesOf_congr h.sound.frame.vars_eq b

/-- What has the same values is at the node too, and nothing else is. -/
theorem allows_iff (h : Found q P r shown a s) {b : Assignment} :
    (q.modelAt s.network.model.store).Allows b ↔ q.start.valuesOf b = q.start.valuesOf a := by
  have hagrees := h.sound.frame.modelAt_agrees h.sound.linked
  rw [← hagrees.allows_iff, ← h.valuesOf_eq a, ← h.valuesOf_eq b]
  exact ⟨fun hb => h.settles.wellFormed.valuesOf_eq h.fixed hb h.allows, fun heq => h.allows.congr heq⟩

theorem better (h : Found q P r shown a s) (ho : ∀ o, q.task.objective = some o → q.start.owns o.var = true)
    (o : Objective) (v : Int) (heq : q.task.objective = some o) (hv : s.measures.best = some v) :
    o.Better (a o.var) v :=
  h.beats o v heq hv _ (h.allows _ ((h.sound.frame.owns_eq _).trans (ho o heq)))

/-- The solution was not found before. -/
theorem unseen (h : Found q P r shown a s) (ho : ∀ o, q.task.objective = some o → q.start.owns o.var = true) :
    ∀ old ∈ s.found, old.values ≠ q.start.valuesOf a := by
  intro old hold heq
  cases hobj : q.task.objective with
  | none =>
    cases hp : q.task.config.restart.isEnabled with
    | true => exact h.sound.blocked hobj hp old hold a heq h.holds
    | false => exact h.sound.behind hobj hp old hold a heq (.inl h.onPath)
  | some o =>
    -- an old solution with the same values would have to be a worse one
    obtain ⟨b, -, hvalues, hvalue⟩ := h.sound.ledger.reports old hold
    rw [hobj, Option.map_some, Model.valuesOf_eq_iff.mp (hvalues.symm.trans heq) _ (ho o hobj)] at hvalue
    rw [← Array.mem_toList_iff, h.sound.ledger.told] at hold
    exact o.not_better_self _ (h.sound.ledger.better hobj (fun b hb => h.better ho o b hobj hb) hold hvalue)

/-- The ledger with the solution. -/
theorem push_ledger (h : Found q P r shown a s) (ho : ∀ o, q.task.objective = some o → q.start.owns o.var = true)
    {new : List Moment}
    (hn : solutionsOf new = [⟨q.start.valuesOf a, q.task.objective.map fun o => a o.var⟩]) :
    Ledger q (shown ++ new) (s.found.push ⟨q.start.valuesOf a, q.task.objective.map fun o => a o.var⟩)
      ((q.task.objective.map fun o => a o.var) <|> s.measures.best) := by
  refine h.sound.ledger.push ⟨q.start.valuesOf a, q.task.objective.map fun o => a o.var⟩ ⟨a, h.goal, rfl, rfl⟩ ?_ ?_
    (h.unseen ho) hn
  · intro o v b heq hv hb
    simp only [heq, Option.map_some, Option.some.injEq] at hv
    exact hv ▸ h.better ho o b heq hb
  · intro v hv
    obtain ⟨o, heq, rfl⟩ := Option.map_eq_some_iff.mp hv
    exact h.settles.wellFormed.fits (h.allows _ ((h.sound.frame.owns_eq _).trans (ho o heq)))

/-- What is still looked for after the solution lies in the refutations on the path. -/
theorem remains_of_seeks (h : Found q P r shown a s) (ho : ∀ o, q.task.objective = some o → q.start.owns o.var = true)
    {b : Assignment} (hb : q.Seeks (s.found.push ⟨q.start.valuesOf a, q.task.objective.map fun o => a o.var⟩)
      ((q.task.objective.map fun o => a o.var) <|> s.measures.best) b) : Remains s.path.fromDeepest b := by
  obtain ⟨hold, hne⟩ := hb.of_push ho (h.better ho)
  refine (h.sound.ahead b hold).resolve_left fun hp => hne ?_
  exact h.allows_iff.mp (h.node.complete b hold hp)

/-- The search after the solution, with some nogood posted that rules it out if the search restarts. -/
theorem sound_push (h : Found q P r shown a s) (ho : ∀ o, q.task.objective = some o → q.start.owns o.var = true)
    {t : Roster} {n : Network} {recorded : Array PropId} {new : List Moment} (hwired : n.Wired t)
    (hst : n.started = true) (hframe : q.Frames n.model) (hlinked : n.model.store.Linked)
    (hsub : ∀ id e, r id = some e → t id = some e)
    (hcalm : n.failed = false) (hrecorded : Additions q t recorded)
    (hsought : ∀ b, r.Admits b → (q.task.objective = none → q.start.valuesOf b ≠ q.start.valuesOf a) → t.Admits b)
    (hblocked : q.task.objective = none → q.task.config.restart.isEnabled = true →
      ∀ b, q.start.valuesOf a = q.start.valuesOf b → ¬t.Admits b)
    (hn : solutionsOf new = [⟨q.start.valuesOf a, q.task.objective.map fun o => a o.var⟩]) :
    Sound q P t (shown ++ new) (Remains s.path.fromDeepest)
      (s.gain ⟨q.start.valuesOf a, q.task.objective.map fun o => a o.var⟩ n recorded) := by
  refine { h.sound with
    wired := hwired
    started := hst
    frame := hframe
    linked := hlinked
    posted := fun id e he => hsub id e (h.sound.posted id e he)
    calm := hcalm
    recorded := hrecorded
    count := ?_
    ledger := h.push_ledger ho hn
    sought := ?_
    ahead := fun b hb => h.remains_of_seeks ho hb
    blocked := ?_
    behind := ?_ }
  · rw [SearchState.gain, Array.size_push, h.sound.count]
  · intro b hb
    obtain ⟨hold, hne⟩ := hb.of_push ho (h.better ho)
    exact hsought b (h.sound.sought b hold) fun _ => hne
  · intro hnone hp sol hsol b heq hall
    rcases Array.mem_push.mp hsol with hsol | rfl
    · exact h.sound.blocked hnone hp sol hsol b heq fun id e he => hall id e (hsub id e he)
    · exact hblocked hnone hp b heq hall
  · intro hnone hp sol hsol b heq hrem
    rcases Array.mem_push.mp hsol with hsol | rfl
    · exact h.sound.behind hnone hp sol hsol b heq (.inr hrem)
    · exact not_onPath_of_remains hrem (h.node.sound b (h.allows_iff.mpr heq.symm)).2

/-- Where the search may restart a nogood is posted that rules the solution out. -/
theorem sound_posted (h : Found q P r shown a s) (ho : ∀ o, q.task.objective = some o → q.start.owns o.var = true)
    (hnone : q.task.objective = none) {id : PropId} {n : Network}
    (hp : Network.Posted r (.nogood (SearchState.blocking s.network.model
      ⟨q.start.valuesOf a, q.task.objective.map fun o => a o.var⟩)) s.network id n) {new : List Moment}
    (hn : solutionsOf new = [⟨q.start.valuesOf a, q.task.objective.map fun o => a o.var⟩]) :
    Sound q P (r.insert id ⟨.nogood (SearchState.blocking s.network.model
        ⟨q.start.valuesOf a, q.task.objective.map fun o => a o.var⟩), s.network.model.store.slots.size⟩) (shown ++ new)
      (Remains s.path.fromDeepest)
      (s.gain ⟨q.start.valuesOf a, q.task.objective.map fun o => a o.var⟩ n (s.recorded.push id)) := by
  have hblock : ∀ b, (SearchState.blocking s.network.model
      ⟨q.start.valuesOf a, q.task.objective.map fun o => a o.var⟩).Holds b ↔ q.start.valuesOf b ≠ q.start.valuesOf a := by
    intro b
    rw [← h.valuesOf_eq a, ← h.valuesOf_eq b]
    exact SearchState.blocking_holds_iff _
  have hfresh := Posted.fresh hp h.sound.wired
  exact h.sound_push ho hp.wired (hp.started_eq.trans h.sound.started)
    (h.sound.frame.step (by rw [hp.model_eq])) (by rw [hp.model_eq]; exact h.sound.linked.grow _)
    (fun j e he => Roster.insert_extends hfresh he)
    (hp.failed_eq.trans h.sound.calm) (h.sound.recorded.push h.sound.posted hfresh)
    (fun b hb hne => (Roster.admits_insert_iff hfresh).mpr ⟨hb, (hblock b).mpr (hne hnone)⟩)
    (fun _ _ b heq hb => (hblock b).mp ((Roster.admits_insert_iff hfresh).mp hb).2 heq.symm) hn

/-- Elsewhere the solution is only counted. -/
theorem sound_counted (h : Found q P r shown a s) (ho : ∀ o, q.task.objective = some o → q.start.owns o.var = true)
    (hc : ¬(q.task.config.restart.isEnabled && q.task.objective.isNone) = true) {new : List Moment}
    (hn : solutionsOf new = [⟨q.start.valuesOf a, q.task.objective.map fun o => a o.var⟩]) :
    Sound q P r (shown ++ new) (Remains s.path.fromDeepest)
      (s.gain ⟨q.start.valuesOf a, q.task.objective.map fun o => a o.var⟩ s.network s.recorded) :=
  h.sound_push ho h.sound.wired h.sound.started h.sound.frame h.sound.linked (fun _ _ he => he) h.sound.calm
    h.sound.recorded (fun _ hb _ => hb) (fun hnone hp => absurd (by rw [hp, hnone]; rfl) hc) hn

end Found

/-- After a solution the search stops, restarts, or leaves the node. -/
theorem Sound.turn_after_solution (h : Sound q P r shown (Remains path) s) (hpath : s.path.fromDeepest = path)
    (hl : Ladder q r (q.Seeks s.found s.measures.best) path s.network.model.store)
    (hland : q.task.config.restart.isEnabled = true →
      ∃ t, Landing q r (q.Seeks s.found s.measures.best) s.network t) :
    Turns q P shown (if SearchState.reached q.task.config.solutionLimit s.measures.solutions then
        pure { s with
          stopped := some .solutionLimit
          turn := .stop }
      else pure { s with turn := if q.task.config.restart.atSolutions then .restart else .up }) := by
  subst hpath
  split
  · refine Turns.done (r := r) ?_
    simp only [SearchState.Stands]
    exact ⟨_, { h with }, hl, fun hc => by cases hc⟩
  · refine Turns.done (r := r) ?_
    cases hp : q.task.config.restart.atSolutions with
    | true =>
      have henabled := RestartPolicy.isEnabled_of_atSolutions hp
      have hregion := h.turn (T := Region s.path.fromDeepest) (fun a _ hR => .inr hR) fun hd => by
        rw [henabled] at hd
        cases hd
      simp only [SearchState.Stands, if_pos]
      exact ⟨{ hregion with }, hl, henabled, hland henabled⟩
    | false =>
      simp only [SearchState.Stands]
      exact ⟨{ h with }, hl⟩

/-- The node keeps the ladder and can be left for the root while the blocking nogood is posted. -/
theorem Found.block {a : Assignment} (h : Found q P r shown a s) {T : Assignment → Prop}
    (hT : ∀ b, T b → q.Seeks s.found s.measures.best b) {objective : Option Int} {id : PropId} {n : Network}
    (hp : Network.Posted r (.nogood (SearchState.blocking s.network.model ⟨q.start.valuesOf a, objective⟩)) s.network
      id n) :
    Ladder q (r.insert id ⟨.nogood (SearchState.blocking s.network.model ⟨q.start.valuesOf a, objective⟩),
        s.network.model.store.slots.size⟩) T s.path.fromDeepest n.model.store ∧
      ∃ t, Landing q (r.insert id ⟨.nogood (SearchState.blocking s.network.model ⟨q.start.valuesOf a, objective⟩),
        s.network.model.store.slots.size⟩) T n t := by
  generalize hc : (Constraint.nogood (SearchState.blocking s.network.model ⟨q.start.valuesOf a, objective⟩)) = c at hp
  have hsuits : ∀ t, c.Suits (q.modelAt t) := by
    intro t
    rw [← hc]
    exact Constraint.suits_nogood fun l hl => (h.sound.frame.owns_eq _).symm.trans (SearchState.owns_of_blocking hl)
  have hscope : ∀ d ∈ s.path.fromDeepest, d.var ∈ c.propagator.scope := by
    intro d hd
    rw [← hc]
    refine SearchState.mem_blocking_scope ?_ ((h.sound.frame.owns_eq _).trans (h.ladder.owns d hd))
    rw [Model.size_valuesOf, h.sound.frame.vars_eq]
  have hstore : n.model.store = s.network.model.store.grow [.bool true] := by rw [hp.model_eq]
  have hlinked := h.sound.linked.grow [.bool true]
  have hladder := (h.ladder.mono hT).post h.sound.linked id hsuits hscope
  rw [← hstore] at hladder hlinked
  refine ⟨hladder, hladder.exists_landing hlinked fun hroot => ?_⟩
  have hnode := h.node
  rw [hroot] at hladder hnode
  have hagrees := Model.Agrees.grow hnode.settles.wellFormed [.bool true]
  rw [hstore]
  refine ⟨hladder.popUntil_self hlinked |>.trans (by rw [hstore]), hstore ▸ hladder,
    hnode.settles.toSuits.post (hsuits _) id, ?_, ?_, ?_⟩
  · intro j e he
    rcases Roster.insert_cases he with ⟨rfl, rfl⟩ | ⟨-, he⟩
    · exact .inl (hp.owed h.sound.started)
    · exact .inr (hagrees.decided (hnode.settles.decided j e he))
  · exact fun b hb => (hnode.sound b ((hagrees.allows_iff b).mp hb)).1
  · exact fun b hb => (hagrees.allows_iff b).mpr (hnode.complete b (hT b hb) (onPath_nil b))

namespace SearchState

/-- **A node where all variables are fixed hands out a new solution.** -/
theorem recordSolution_spec {a : Assignment} (h : Found q P r shown a s)
    (ho : ∀ o, q.task.objective = some o → q.start.owns o.var = true) :
    Turns q P shown (recordSolution q.task s) := by
  have hw := h.settles.wellFormed
  have howns : ∀ o, q.task.objective = some o → s.network.model.owns o.var = true := fun o heq =>
    (h.sound.frame.owns_eq _).trans (ho o heq)
  have hcapture := Solution.capture_eq_ok hw h.fixed h.allows (q.task.objective.map fun o => a o.var)
  rw [h.valuesOf_eq] at hcapture
  rw [recordSolution]
  refine Quiet.before (.answer (Network.findViolated_eq_none h.sound.wired h.settles h.fixed) rfl) ?_
  rintro _ rfl
  refine Quiet.before (.answer (objectiveValue_eq_ok hw h.fixed h.allows howns) rfl) ?_
  rintro _ rfl
  refine Quiet.before (.answer hcapture rfl) ?_
  rintro _ rfl
  refine Quiet.before (.report rfl) fun _ _ => ?_
  refine Turns.tell ⟨⟨a, h.goal, rfl, rfl⟩, ?_⟩ ?_
  · intro old hold o v w heq hv hw
    simp only [heq, Option.map_some, Option.some.injEq] at hv
    subst hv
    exact h.sound.ledger.better heq (fun b hb => h.better ho o b heq hb) hold hw
  have hold : ∀ b, q.Seeks (s.found.push ⟨q.start.valuesOf a, q.task.objective.map fun o => a o.var⟩)
      ((q.task.objective.map fun o => a o.var) <|> s.measures.best) b → q.Seeks s.found s.measures.best b :=
    fun b hb => (hb.of_push ho (h.better ho)).1
  have htold : ∀ m : Model, solutionsOf
      [(.solution ⟨q.start.valuesOf a, q.task.objective.map fun o => a o.var⟩, m)] =
        [⟨q.start.valuesOf a, q.task.objective.map fun o => a o.var⟩] := fun _ => rfl
  dsimp only
  split
  · rename_i hc
    obtain ⟨-, hnone⟩ := Bool.and_eq_true_iff.mp hc
    refine Turns.after (Q := fun s' new => new = [] ∧ ∃ id n, s' = { s with
        network := n
        recorded := s.recorded.push id
        measures := { s.measures with
          solutions := s.measures.solutions + 1
          best := (q.task.objective.map fun o => a o.var) <|> s.measures.best } } ∧
        Network.Posted r (.nogood (blocking s.network.model ⟨q.start.valuesOf a, q.task.objective.map fun o => a o.var⟩))
          s.network id n) ?_ ?_
    · rw [record]
      refine Quiet.before (Network.post_spec (c := .nogood (blocking s.network.model _)) h.sound.wired
        (Constraint.suits_nogood fun _ => owns_of_blocking).scope) ?_
      rintro ⟨id, n⟩ hposted
      exact .pure ⟨rfl, id, n, rfl, hposted⟩
    · rintro _ _ ⟨rfl, id, n, rfl, hposted⟩
      obtain ⟨hladder, hland⟩ := h.block hold hposted
      rw [List.append_nil]
      have hsound := h.sound_posted ho (Option.isNone_iff_eq_none.mp hnone) hposted (htold s.network.model)
      exact hsound.turn_after_solution rfl hladder fun _ => hland
  · rename_i hc
    refine Quiet.before (.pure (Q := fun s' => s' = { s with
        measures := { s.measures with
          solutions := s.measures.solutions + 1
          best := (q.task.objective.map fun o => a o.var) <|> s.measures.best } }) rfl) ?_
    rintro _ rfl
    have hladder := h.ladder.mono hold
    have hsound := h.sound_counted ho hc (htold s.network.model)
    refine hsound.turn_after_solution rfl hladder fun _ => hladder.exists_landing h.sound.linked fun hroot => ?_
    have hnode := h.node.mono hold
    rw [hroot] at hladder hnode
    exact hnode.landing hladder (hladder.popUntil_self h.sound.linked)

/-- What the strategies come to at a node. -/
theorem nextDecision_spec {strategy : Strategy σ} (hstrategy : strategy.Splits q.start P) (hP : P s.brancher)
    (hvars : s.network.model.vars = q.start.vars) (hw : s.network.model.WellFormed) :
    (quietly (nextDecision strategy s)).Quiet fun e => P e.2 ∧ (∀ d, e.1 = some d → d.Splits s.network.model) ∧
      (e.1 = none → ∀ x, s.network.model.owns x = true → s.network.model.Fixed x) := by
  refine .question (.bind (hstrategy.next _ _ hP hvars hw) ?_)
  rintro ⟨d?, b⟩ ⟨hP', hsplits⟩
  cases d? with
  | some d => exact .ok ⟨hP', hsplits, fun hc => by cases hc⟩
  | none =>
    have hmem : ∀ x, x ∈ s.network.model.allVars.toList ↔ s.network.model.owns x = true := fun x =>
      Array.mem_toList_iff.trans Model.mem_allVars
    refine .bind (Heuristic.next_meets (h := .inputOrderMin _) hw fun x hx => .inr ((hmem x).mp hx)) ?_
    rintro ⟨d?, h⟩ ⟨-, hsplits, hfixed⟩
    exact .ok ⟨hP', fun d hd => (hsplits d hd).2, fun hnone x hx => hfixed hnone x ((hmem x).mpr hx)⟩

/-- **A node is opened** with better values of the objective only, and is branched on or handed out. -/
theorem openNode_spec (hturn : s.turn = .node) (h : s.Stands q P r shown) {strategy : Strategy σ}
    (hstrategy : strategy.Splits q.start P) (ho : ∀ o, q.task.objective = some o → q.start.owns o.var = true)
    (signals : Signals) : Turns q P shown (openNode q.task strategy signals s) := by
  simp only [Stands, hturn] at h
  obtain ⟨hsound, hladder, hnode, hbeats⟩ := h
  rw [openNode]
  split
  · refine Quiet.before (.report rfl) fun _ _ => Turns.done (r := r) ?_
    simp only [Stands]
    exact ⟨_, { hsound with }, hladder, fun hc => by cases hc⟩
  · refine Turns.tell ?_ ?_
    · intro old hold o v w heq hv hw
      exact hsound.ledger.better heq (fun b hb => hbeats o b heq hb v hv) hold hw
    have hsound := hsound.skip (rfl : solutionsOf [(.nodeOpened s.path.depth, s.network.model)] = [])
    dsimp only
    split
    · rename_i hdue
      refine Turns.done (r := r) ?_
      simp only [Stands]
      refine ⟨{ hsound with }, hladder, RestartPolicy.isEnabled_of_isDue hdue,
        hladder.exists_landing hsound.linked fun hroot => ?_⟩
      rw [hroot] at hladder hnode
      exact hnode.landing hladder (hladder.popUntil_self hsound.linked)
    · have hagrees := hsound.frame.modelAt_agrees hsound.linked
      have hsettles : r.Settles s.network.model := hnode.settles.agrees hagrees fun _ _ _ => rfl
      refine Quiet.before (nextDecision_spec hstrategy hsound.strategy hsound.frame.vars_eq
        hsettles.wellFormed) ?_
      rintro ⟨d?, b⟩ ⟨hP, hsplits, hfixed⟩
      cases d? with
      | some d =>
        refine Turns.done (r := r) ?_
        have hd := hsplits d rfl
        simp only [Stands, DecisionPath.fromDeepest_push]
        exact ⟨d, _, rfl, { hsound with strategy := hP }, hladder, hnode,
          hd.toParts.agrees (hsound.frame.agrees_modelAt hsound.linked), hd.untried⟩
      | none =>
        obtain ⟨a, ha⟩ := hsettles.wellFormed.exists_allows
        exact recordSolution_spec ⟨{ hsound with strategy := hP }, hladder, hnode, hbeats, hfixed rfl, ha⟩ ho

end SearchState

end FiniteDomain
