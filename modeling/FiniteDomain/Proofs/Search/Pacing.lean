import FiniteDomain.Proofs.Search.Luby
import FiniteDomain.Proofs.Search.Nesting

/-!
# When searches restart

A search counts the nodes that it opens, and begins to count anew when it restarts. A policy with limits is asked each
time that a node was opened: if the limit is reached, that node is left for a restart. As one node at a time is opened,
a restart comes when the nodes since the one before are just as many as the limit, and it cannot be missed.

* `sinceRestart`, `Paced`: the nodes opened since the last restart, and restarts that come just at a limit;
* `RestartPolicy.Limits`, `Luby.Law.limits`: the limits of a policy, and those of a Luby policy;
* `SearchState.Beats`, `SearchState.Heeds`, `step_beats`: when a turn opens nodes and restarts;
* `SearchState.Timely`, `Timely.advance`: where the count stands between two turns, which every turn keeps;
* `Network.Discreet.paced`: the restarts of a search are just at the limits of its policy;
* `Luby.Law.paces_restarts`.
-/

namespace FiniteDomain

open Activity

/-- A call of the observers, and what comes after it. -/
theorem Activity.Ensures.tell_bind [Tolerance] {α : Type} {G : List Moment → Moment → Prop} {c : Callback} {m : Model}
    {f : Unit → Activity α} {Q : α → List Moment → Prop} (hG : G [] (c, m))
    (hf : Ensures (fun before d => G ((c, m) :: before) d) (f ()) fun x new => Q x ((c, m) :: new)) :
    Ensures G (Activity.report (.callback c m) >>= f) Q := by
  refine .bind (R := fun _ new => new = [(c, m)]) (.tell hG rfl) ?_
  rintro _ _ rfl
  exact hf

/-! ### Counting from restart to restart -/

/-- The call neither opens a node nor restarts. -/
def Callback.IsPlain : Callback → Prop
  | nodeOpened _ | restarted _ => False
  | _ => True

/-- What a call makes of the number of nodes opened since the last restart. -/
def Callback.passOn (c : Callback) (nodes : Nat) : Nat :=
  match c.tally? with
  | some .node => nodes + 1
  | some .restart => 0
  | _ => nodes

/-- The number of nodes opened since the last restart, or since the beginning if there was none. -/
def sinceRestart (shown : List Moment) : Nat :=
  callsOf .node (shown.reverse.takeWhile fun c => decide (c.1.tally? ≠ some .restart))

/-- The restarts come just at some limits: a call is the `k`-th restart if and only if this is the next one, and the
nodes opened since the one before are as many as the `k`-th limit. -/
def Paced (limit : Nat → Nat) (shown : List Moment) : Prop :=
  Fits (fun before c => ∀ k, c.1 = .restarted k ↔ k = callsOf .restart before + 1 ∧ sinceRestart before = limit k) shown

theorem Callback.tally?_eq_restart {c : Callback} : c.tally? = some .restart ↔ ∃ k, c = .restarted k := by
  cases c <;> simp [tally?]

theorem Callback.isPlain_iff {c : Callback} : c.IsPlain ↔ c.tally? ≠ some .node ∧ c.tally? ≠ some .restart := by
  cases c <;> simp [IsPlain, tally?]

theorem Callback.IsPlain.ne_restarted {c : Callback} (h : c.IsPlain) (k : Nat) : c ≠ .restarted k := by
  rintro rfl
  exact h

theorem Callback.IsPlain.passOn_eq {c : Callback} (h : c.IsPlain) (nodes : Nat) : c.passOn nodes = nodes := by
  cases c with
  | nodeOpened | restarted => exact h.elim
  | rootPropagated | down | up | solution | contradiction | closed => rfl

theorem sinceRestart_concat (shown : List Moment) (c : Moment) :
    sinceRestart (shown ++ [c]) = c.1.passOn (sinceRestart shown) := by
  rw [sinceRestart, List.reverse_append, List.reverse_singleton, List.singleton_append, List.takeWhile_cons,
    sinceRestart]
  obtain ⟨c, m⟩ := c
  cases c with
  | nodeOpened => exact List.countP_cons_of_pos rfl
  | rootPropagated | down | up | solution | contradiction | restarted | closed => rfl

theorem sinceRestart_append (shown new : List Moment) :
    sinceRestart (shown ++ new) = new.foldl (fun nodes c => c.1.passOn nodes) (sinceRestart shown) := by
  induction new generalizing shown with
  | nil => rw [List.append_nil, List.foldl_nil]
  | cons c rest ih => rw [List.append_cons, ih, sinceRestart_concat, List.foldl_cons]

theorem sinceRestart_append_plain {shown new : List Moment} (h : ∀ c ∈ new, c.1.IsPlain) :
    sinceRestart (shown ++ new) = sinceRestart shown := by
  rw [sinceRestart_append]
  induction new with
  | nil => rfl
  | cons c rest ih =>
    obtain ⟨hc, hrest⟩ := List.forall_mem_cons.mp h
    rw [List.foldl_cons, hc.passOn_eq, ih hrest]

theorem callsOf_restart_plain {new : List Moment} (h : ∀ c ∈ new, c.1.IsPlain) : callsOf .restart new = 0 :=
  List.countP_eq_zero.mpr fun c hc => by simpa using (Callback.isPlain_iff.mp (h c hc)).2

/-! ### Limits -/

/-- The policy restarts when the nodes since the last restart are as many as a limit says, and at no other time. -/
structure RestartPolicy.Limits (p : RestartPolicy) (limit : Nat → Nat) : Prop where
  isDue_iff : ∀ restarts nodes, p.isDue restarts nodes = true ↔ limit (restarts + 1) ≤ nodes
  pos : ∀ restarts, 0 < limit (restarts + 1)
  atSolutions : p.atSolutions = false

namespace SearchState

variable {σ : Type} {task : SearchTask} {strategy : Strategy σ} {s s' : SearchState σ} {shown new : List Moment}
  {p : RestartPolicy} {limit : Nat → Nat}

/-! ### Beats of a turn -/

/-- When the calls of a turn open nodes and restart: the first call does if the turn is for it, and no other call does.
At a node where a restart is due there are no other calls. -/
structure Beats (p : RestartPolicy) (s : SearchState σ) (before : List Moment) (c : Moment) : Prop where
  node : c.1.tally? = some .node ↔ before = [] ∧ s.turn = .node
  restart : ∀ k, c.1 = .restarted k ↔ before = [] ∧ s.turn = .restart ∧ k = s.measures.restarts + 1
  due : before ≠ [] → s.turn = .node → p.isDue s.measures.restarts (s.nodesSinceRestart + 1) = false

/-- A node at which a restart is due is left for it, unless it was not opened. -/
def Heeds (p : RestartPolicy) (s s' : SearchState σ) (new : List Moment) : Prop :=
  s.turn = .node → p.isDue s.measures.restarts (s.nodesSinceRestart + 1) = true → new = [] ∨ s'.turn = .restart

theorem Beats.plain {before : List Moment} {c : Moment} (hc : c.1.IsPlain)
    (hfirst : before = [] → s.turn ≠ .node ∧ s.turn ≠ .restart)
    (hdue : s.turn = .node → p.isDue s.measures.restarts (s.nodesSinceRestart + 1) = false) : s.Beats p before c where
  node := iff_of_false (Callback.isPlain_iff.mp hc).1 fun h => (hfirst h.1).1 h.2
  restart k := iff_of_false (hc.ne_restarted k) fun h => (hfirst h.1).2 h.2.1
  due _ := hdue

/-- Only the first call of a turn opens a node or restarts. -/
theorem plain_of_beats {c : Moment} (h : Fits (s.Beats p) (c :: new)) : ∀ d ∈ new, d.1.IsPlain := by
  intro d hd
  obtain ⟨before, after, rfl⟩ := List.append_of_mem hd
  have hd : s.Beats p (c :: before) d := h (c :: before) d after rfl
  refine Callback.isPlain_iff.mpr ⟨fun h => List.cons_ne_nil _ _ (hd.node.mp h).1, fun h => ?_⟩
  obtain ⟨k, h⟩ := Callback.tally?_eq_restart.mp h
  exact List.cons_ne_nil _ _ ((hd.restart k).mp h).1

theorem heeds_of_ne (h : s.turn ≠ .node) : Heeds p s s' new := fun hturn => absurd hturn h

section Parts

variable {G : List Moment → Moment → Prop} (hG : ∀ before c m, G before (.contradiction c, m))

include hG

theorem fail_beats (s : SearchState σ) (c : Contradiction) : @Ensures _ .lenient G (s.fail c) fun _ _ => True := by
  let := Tolerance.lenient
  rw [fail]
  refine Quiet.before (.report rfl) fun _ _ => ?_
  exact .tell_bind (hG _ _ _) (.pure trivial)

theorem settle_beats (s : SearchState σ) (outcome : Except Contradiction Unit) :
    @Ensures _ .lenient G (s.settle outcome) fun _ _ => True := by
  let := Tolerance.lenient
  cases outcome with
  | ok u => exact .pure trivial
  | error c => exact .bind (fail_beats hG s c) fun _ _ _ => .pure trivial

theorem enter_beats (h : s.network.Discreet) (task : SearchTask) (d : Decision) :
    @Ensures _ .lenient G (s.branch task d >>= fun r => r.2.settle r.1) fun _ _ => True := by
  let := Tolerance.lenient
  exact Quiet.before (branch_quiet h task d) fun r _ => settle_beats hG r.2 r.1

end Parts

theorem recordSolution_beats {G : List Moment → Moment → Prop}
    (hG : ∀ before solution m, G before (.solution solution, m)) (h : s.network.Discreet) :
    @Ensures _ .lenient G (recordSolution task s) fun _ _ => True := by
  let := Tolerance.lenient
  rw [recordSolution_eq]
  refine Quiet.before (.question (.lenient _)) fun violated _ => ?_
  split
  · exact .throw trivial
  refine Quiet.before (.question (.lenient _)) fun objective _ => ?_
  refine Quiet.before (.question (.lenient _)) fun solution _ => ?_
  refine Quiet.before (.report rfl) fun _ _ => ?_
  refine .tell_bind (hG _ _ _) ?_
  refine Quiet.before (forbid_quiet ?_ task solution) fun _ _ => .pure trivial
  exact h

/-- In a turn that neither opens a node nor restarts all calls are plain. -/
theorem beats_of_ne (hnode : s.turn ≠ .node) (hrestart : s.turn ≠ .restart) {before : List Moment} {c : Moment}
    (hc : c.1.IsPlain) : s.Beats p before c :=
  .plain hc (fun _ => ⟨hnode, hrestart⟩) fun hturn => absurd hturn hnode

theorem propagateRoot_beats (h : s.network.Discreet) (hturn : s.turn = .root) :
    @Ensures _ .lenient (s.Beats p) (propagateRoot task s) fun _ _ => True := by
  let := Tolerance.lenient
  have hplain : ∀ before c, c.1.IsPlain → s.Beats p before c :=
    fun _ _ => beats_of_ne (by simp [hturn]) (by simp [hturn])
  rw [propagateRoot]
  refine Quiet.before (h.mapModel _) ?_
  rintro n ⟨hn, -⟩
  refine Quiet.before (hn.start.scheduleAll.improveAndPropagate _ _ _) ?_
  rintro ⟨outcome, n'⟩ -
  cases outcome with
  | ok u => exact .tell_bind (hplain _ _ trivial) (.pure trivial)
  | error c => exact .bind (fail_beats (fun _ _ _ => hplain _ _ trivial) _ c) fun _ _ _ => .pure trivial

theorem openNode_beats (h : s.network.Discreet) (hturn : s.turn = .node) (signals : Signals) :
    @Ensures _ .lenient (s.Beats task.config.restart) (openNode task strategy signals s) fun s' new =>
      Heeds task.config.restart s s' new := by
  let := Tolerance.lenient
  rw [openNode]
  split
  · exact Quiet.before (.report rfl) fun _ _ => .pure fun _ _ => .inl rfl
  · have hfirst : s.Beats task.config.restart [] (.nodeOpened s.path.depth, s.network.model) :=
      ⟨iff_of_true rfl ⟨rfl, hturn⟩, fun k => iff_of_false (by simp) (by simp [hturn]), fun hne => absurd rfl hne⟩
    refine .tell_bind hfirst ?_
    dsimp only
    split
    · exact .pure fun _ _ => .inr rfl
    · rename_i hdue
      have hdue : task.config.restart.isDue s.measures.restarts (s.nodesSinceRestart + 1) = false := by simpa using hdue
      refine Ensures.mono (R := fun _ _ => True) ?_ fun _ _ _ _ h => absurd (hdue.symm.trans h) (by simp)
      refine Quiet.before (.question (.lenient _)) ?_
      rintro ⟨d?, brancher⟩ -
      cases d? with
      | some d => exact .pure trivial
      | none => exact recordSolution_beats (fun _ _ _ => .plain trivial (by simp) fun _ => hdue) h

theorem goDown_beats (h : s.network.Discreet) (hturn : s.turn = .down) :
    @Ensures _ .lenient (s.Beats p) (goDown task s) fun _ _ => True := by
  let := Tolerance.lenient
  have hplain : ∀ before c, c.1.IsPlain → s.Beats p before c :=
    fun _ _ => beats_of_ne (by simp [hturn]) (by simp [hturn])
  rw [goDown]
  split
  · exact .throw trivial
  · rename_i d _
    refine .tell_bind (hplain _ _ trivial) (enter_beats (fun _ _ _ => hplain _ _ trivial) ?_ task d)
    exact h

theorem goUp_beats (h : s.network.Discreet) (hturn : s.turn = .up) :
    @Ensures _ .lenient (s.Beats p) (goUp task s) fun _ _ => True := by
  let := Tolerance.lenient
  have hplain : ∀ before c, c.1.IsPlain → s.Beats p before c :=
    fun _ _ => beats_of_ne (by simp [hturn]) (by simp [hturn])
  rw [goUp]
  split
  · exact .pure trivial
  · rename_i d _
    refine Quiet.before (h.mapModel _) ?_
    rintro n ⟨hn, -⟩
    dsimp only
    split
    · refine .tell_bind (hplain _ _ trivial) (enter_beats (fun _ _ _ => hplain _ _ trivial) ?_ task d)
      exact hn
    · exact .pure trivial

theorem restart_beats (h : s.network.Discreet) (hturn : s.turn = .restart) :
    @Ensures _ .lenient (s.Beats p) (restart task strategy s) fun _ _ => True := by
  let := Tolerance.lenient
  have hfirst : ∀ m, s.Beats p [] (.restarted (s.measures.restarts + 1), m) := fun m =>
    ⟨iff_of_false (by simp [Callback.tally?]) (by simp [hturn]), fun k => by simp [hturn, eq_comm],
      fun hne => absurd rfl hne⟩
  have hplain : ∀ first before c, c.1.IsPlain → s.Beats p (first :: before) c :=
    fun _ _ _ hc => .plain hc (by simp) (by simp [hturn])
  rw [restart]
  refine Quiet.before (h.mapModel _) ?_
  rintro n ⟨hn, -⟩
  refine Quiet.before (.report rfl) fun _ _ => ?_
  refine .tell_bind (hfirst _) ?_
  refine Quiet.before (hn.flush.mapModel _) ?_
  rintro n1 ⟨hn1, -⟩
  refine Quiet.before (recordAll_quiet ?_ _) ?_
  · exact hn1
  rintro _ ⟨n2, recorded, hn2, rfl⟩
  refine Quiet.before (hn2.improveAndPropagate _ _ _) ?_
  rintro ⟨outcome, n3⟩ hn3
  cases outcome with
  | ok u => exact Quiet.before (.question (.lenient _)) fun _ _ => .pure trivial
  | error c =>
    refine .bind (fail_beats (fun _ _ _ => hplain _ _ _ trivial) _ c) fun _ _ _ => ?_
    exact Quiet.before (.question (.lenient _)) fun _ _ => .pure trivial

/-- **When a turn opens nodes and restarts.** -/
theorem step_beats (task : SearchTask) (strategy : Strategy σ) (h : s.network.Discreet) (hturn : s.turn ≠ .stop)
    (signals : Signals) : @Ensures _ .lenient (s.Beats task.config.restart) (s.step task strategy signals) fun s' new =>
      Heeds task.config.restart s s' new := by
  let := Tolerance.lenient
  have hother : ∀ {a : Activity (SearchState σ)}, s.turn ≠ .node →
      Ensures (s.Beats task.config.restart) a (fun _ _ => True) →
      Ensures (s.Beats task.config.restart) a fun s' new => Heeds task.config.restart s s' new :=
    fun hne ha => ha.mono fun _ _ _ => heeds_of_ne hne
  rw [step]
  cases hs : s.turn with
  | root => exact hother (by simp [hs]) (propagateRoot_beats h hs)
  | node => exact openNode_beats h hs signals
  | down => exact hother (by simp [hs]) (goDown_beats h hs)
  | up => exact hother (by simp [hs]) (goUp_beats h hs)
  | restart => exact hother (by simp [hs]) (restart_beats h hs)
  | stop => exact absurd hs hturn

/-- What a turn shows, also if it faults, and what it comes to. -/
theorem of_attend_step {signals : Array Notice → Signals} {log log' : Array Notice} {r : Except Fault (SearchState σ)}
    (h : s.network.Discreet) (hturn : s.turn ≠ .stop) (hattend : (Observer.recording signals).attend log
      (s.step task strategy ((Observer.recording signals).signals log)) = (r, log')) :
    ∃ new, moments log' = moments log ++ new ∧ Fits (s.Beats task.config.restart) new ∧ ∀ s', r = .ok s' →
      s'.network.Discreet ∧ Advances task strategy s s' new ∧ Heeds task.config.restart s s' new := by
  obtain ⟨new, hnew, hbeats, hheeds⟩ := (step_beats task strategy h hturn _).attended hattend
  obtain ⟨new', hnew', -, hadvances⟩ := (step_advances task strategy h hturn _).attended hattend
  -- Both speak of the calls by which the log grew.
  obtain rfl := List.append_cancel_left (hnew.symm.trans hnew')
  exact ⟨new, hnew, hbeats, fun s' hs' => ⟨(hadvances s' hs').1, (hadvances s' hs').2, hheeds s' hs'⟩⟩

/-! ### The count between turns -/

/-- The counters of the state are those of the calls made so far, and the restart that comes next is due for the turn to
come or else not yet. -/
structure Timely (limit : Nat → Nat) (s : SearchState σ) (shown : List Moment) : Prop where
  restarts : s.measures.restarts = callsOf .restart shown
  nodes : s.nodesSinceRestart = sinceRestart shown
  due : s.turn = .restart → sinceRestart shown = limit (callsOf .restart shown + 1)
  early : s.turn ≠ .restart → sinceRestart shown < limit (callsOf .restart shown + 1)
  paced : Paced limit shown

theorem Arrives.plain {elsewhere : Turn} (h : Arrives s elsewhere s' shown) : ∀ c ∈ shown, c.1.IsPlain := by
  cases h with
  | node => exact List.forall_mem_nil _
  | failure => exact List.forall_mem_singleton.mpr trivial

theorem Arrives.nodesSinceRestart_eq {elsewhere : Turn} (h : Arrives s elsewhere s' shown) :
    s'.nodesSinceRestart = s.nodesSinceRestart := by
  cases h <;> rfl

/-- A turn counts the nodes that it shows. -/
theorem Advances.nodesSinceRestart_eq (h : Advances task strategy s s' new)
    (hs : s.nodesSinceRestart = sinceRestart shown) : s'.nodesSinceRestart = sinceRestart (shown ++ new) := by
  have harrives : ∀ {s₁ s' : SearchState σ} {elsewhere c after}, Arrives s₁ elsewhere s' after →
      s₁.nodesSinceRestart = c.1.passOn (sinceRestart shown) →
        s'.nodesSinceRestart = sinceRestart (shown ++ c :: after) := by
    intro s₁ s' elsewhere c after harrives hs₁
    rw [harrives.nodesSinceRestart_eq, List.append_cons, sinceRestart_append_plain harrives.plain,
      sinceRestart_concat, hs₁]
  cases h with
  | root | barren | limited | due | decide | find | close | done =>
    rw [sinceRestart_append, ← hs]
    rfl
  | down _ _ _ _ h | up _ _ _ _ h => exact harrives h hs
  | restart _ _ _ h => exact harrives h rfl

theorem Arrives.turn_ne_restart {elsewhere : Turn} (h : Arrives s elsewhere s' shown)
    (helsewhere : elsewhere ≠ .restart) : s'.turn ≠ .restart := by
  cases h with
  | node => exact nofun
  | failure => exact helsewhere

/-- A policy that does not restart at solutions restarts at a node where this is due. -/
theorem Advances.due_of_restart (h : Advances task strategy s s' new) (hat : task.config.restart.atSolutions = false)
    (hturn : s'.turn = .restart) : s.turn = .node ∧
      task.config.restart.isDue s.measures.restarts (s.nodesSinceRestart + 1) = true ∧
        new = [(.nodeOpened s.path.depth, s.network.model)] := by
  cases h with
  | root | barren | limited | decide | done => cases hturn
  | due turn due => exact ⟨turn, due, rfl⟩
  | find _ _ _ _ _ _ after =>
    rcases after with ⟨-, rfl⟩ | ⟨-, rfl⟩
    · cases hturn
    · simp [hat] at hturn
  | close turn => cases turn.symm.trans hturn
  | down _ _ _ _ h | up _ _ _ _ h => exact absurd hturn (h.turn_ne_restart (by decide))
  | restart _ _ _ h => exact absurd hturn (h.turn_ne_restart (by decide))

/-- A turn that restarts makes a call. -/
theorem Advances.ne_nil_of_restart (h : Advances task strategy s s' new) (hturn : s.turn = .restart) : new ≠ [] := by
  cases h with
  | limited turn | close turn | done turn => cases hturn.symm.trans turn
  | root | barren | due | decide | find | down | up | restart => exact nofun

namespace Timely

/-- Once a turn made its first call, the next restart is not due yet, unless it is the turn after a node. -/
theorem early_of_beats (hp : task.config.restart.Limits limit) (ht : s.Timely limit shown) {c : Moment}
    (hbeats : Fits (s.Beats task.config.restart) (c :: new)) (hdue : s.turn = .node →
      task.config.restart.isDue s.measures.restarts (s.nodesSinceRestart + 1) = false) :
    sinceRestart (shown ++ c :: new) < limit (callsOf .restart (shown ++ c :: new) + 1) := by
  have hfirst : s.Beats task.config.restart [] c := hbeats [] c new rfl
  have hrest := plain_of_beats hbeats
  rw [List.append_cons, sinceRestart_append_plain hrest, sinceRestart_concat, callsOf_append,
    callsOf_restart_plain hrest, callsOf_append, Nat.add_zero]
  by_cases hnode : c.1.tally? = some .node
  · have hturn := (hfirst.node.mp hnode).2
    have hearly : ¬limit (s.measures.restarts + 1) ≤ s.nodesSinceRestart + 1 := fun hle => by
      rw [(hp.isDue_iff _ _).mpr hle] at hdue
      cases hdue hturn
    rw [ht.restarts, ht.nodes] at hearly
    have hcalls : callsOf .restart [c] = 0 := List.countP_eq_zero.mpr (by simp [hnode])
    rw [hcalls, Callback.passOn, hnode]
    exact Nat.lt_of_not_le hearly
  · by_cases hrestart : c.1.tally? = some .restart
    · rw [Callback.passOn, hrestart]
      exact hp.pos _
    · have hplain : c.1.IsPlain := Callback.isPlain_iff.mpr ⟨hnode, hrestart⟩
      rw [hplain.passOn_eq, callsOf_restart_plain (List.forall_mem_singleton.mpr hplain)]
      refine ht.early fun hturn => hrestart (Callback.tally?_eq_restart.mpr ?_)
      exact ⟨_, (hfirst.restart _).mpr ⟨rfl, hturn, rfl⟩⟩

/-- The restart that a turn shows comes in time, also if the turn faults. -/
theorem paced_append (hp : task.config.restart.Limits limit) (ht : s.Timely limit shown)
    (hbeats : Fits (s.Beats task.config.restart) new) : Paced limit (shown ++ new) := by
  refine ht.paced.append ?_
  rintro before c after rfl k
  have hc := hbeats before c after rfl
  rw [hc.restart]
  cases before with
  | nil =>
    rw [List.append_nil, ht.restarts]
    refine ⟨fun ⟨_, hturn, hk⟩ => ⟨hk, hk ▸ ht.due hturn⟩, fun ⟨hk, hlimit⟩ => ⟨rfl, ?_, hk⟩⟩
    by_contra hturn
    have hearly := ht.early hturn
    rw [hk] at hlimit
    omega
  | cons first before =>
    -- A later call is no restart, and after the first call the limit is not reached or not reached again.
    have hbefore : Fits (s.Beats task.config.restart) (first :: before) := fun pre d post h =>
      hbeats pre d (post ++ c :: after) (by rw [h, List.append_assoc, List.cons_append])
    have hearly := ht.early_of_beats hp hbefore (hc.due (List.cons_ne_nil _ _))
    refine iff_of_false (fun h => List.cons_ne_nil _ _ h.1) ?_
    rintro ⟨rfl, hlimit⟩
    omega

/-- **A turn keeps the count.** -/
theorem advance (hp : task.config.restart.Limits limit) (ht : s.Timely limit shown)
    (hbeats : Fits (s.Beats task.config.restart) new) (h : Advances task strategy s s' new)
    (hheeds : Heeds task.config.restart s s' new) : s'.Timely limit (shown ++ new) where
  restarts := by
    have hcalls : s'.measures.restarts = s.measures.restarts + callsOf .restart new := h.callsOf_eq .restart
    rw [hcalls, callsOf_append, ht.restarts]
  nodes := h.nodesSinceRestart_eq ht.nodes
  due := by
    intro hturn
    obtain ⟨hnode, hdue, rfl⟩ := h.due_of_restart hp.atSolutions hturn
    -- One node was opened below the limit, so a limit that is reached now is reached exactly.
    have hearly := ht.early (by simp [hnode])
    have hdue := (hp.isDue_iff _ _).mp hdue
    rw [ht.restarts, ht.nodes] at hdue
    rw [sinceRestart_concat, callsOf_append]
    show sinceRestart shown + 1 = limit (callsOf .restart shown + 1)
    omega
  early := by
    intro hturn
    cases new with
    | nil =>
      rw [List.append_nil]
      exact ht.early fun hrestart => h.ne_nil_of_restart hrestart rfl
    | cons c rest =>
      refine ht.early_of_beats hp hbeats fun hnode => Bool.eq_false_iff.mpr fun hdue => ?_
      rcases hheeds hnode hdue with hnil | hrestart
      · exact List.cons_ne_nil _ _ hnil
      · exact hturn hrestart
  paced := ht.paced_append hp hbeats

end Timely

/-! ### Runs -/

section Runs

variable {signals : Array Notice → Signals} {log log' : Array Notice}

theorem timely_begin (hp : p.Limits limit) (n : Network) (b : σ) : (begin n b).Timely limit [] where
  restarts := rfl
  nodes := rfl
  due := nofun
  early _ := hp.pos 0
  paced := .nil

theorem Reaches.timely (hr : Reaches task strategy (.recording signals) s log s' log')
    (hp : task.config.restart.Limits limit) (hd : s.network.Discreet) (ht : s.Timely limit (moments log)) :
    s'.network.Discreet ∧ s'.Timely limit (moments log') := by
  induction hr with
  | refl => exact ⟨hd, ht⟩
  | turn hturn hattend _ ih =>
    obtain ⟨new, hnew, hbeats, hstep⟩ := of_attend_step hd hturn hattend
    obtain ⟨hd', hadvances, hheeds⟩ := hstep _ rfl
    exact ih hd' (hnew ▸ ht.advance hp hbeats hadvances hheeds)

/-- Calls at the end of a search leave its restarts as they are. -/
theorem Timely.paced_append_plain (ht : s.Timely limit shown) (hturn : s.turn ≠ .restart) (h : ∀ c ∈ new, c.1.IsPlain) :
    Paced limit (shown ++ new) := by
  refine ht.paced.append ?_
  rintro before c after rfl k
  have hbefore : ∀ d ∈ before, d.1.IsPlain := fun d hd => h d (List.mem_append_left _ hd)
  have hc : c.1.IsPlain := h c (List.mem_append_right _ List.mem_cons_self)
  have hearly := ht.early hturn
  refine iff_of_false (hc.ne_restarted k) ?_
  rw [callsOf_append, callsOf_restart_plain hbefore, sinceRestart_append_plain hbefore]
  rintro ⟨rfl, hlimit⟩
  exact absurd hlimit (Nat.ne_of_lt hearly)

/-- However a run ends, its calls are those made up to a state that it reached, then perhaps those of a turn that
faulted, or those of the end. -/
theorem cases_of_run {n : Network} {b : σ} {fuel : Nat} {r : Except Fault (SearchResult × Network × σ)}
    (hrun : run task strategy (.recording signals) fuel n b #[] = (r, log)) :
    ∃ log₀ s log₁, moments log₀ = [] ∧ Reaches task strategy (.recording signals) (.begin n b) log₀ s log₁ ∧
      (log = log₁ ∨
        (s.turn = .stop ∧ ∃ new, moments log = moments log₁ ++ new ∧ ∀ c ∈ new, c.1.IsPlain) ∨
        (s.turn ≠ .stop ∧ ∃ fault, (Observer.recording signals).attend log₁
          (s.step task strategy ((Observer.recording signals).signals log₁)) = (.error fault, log))) := by
  rw [run] at hrun
  split at hrun
  · rename_i hannounce
    obtain ⟨_, hannounce⟩ := Observer.of_attend_error hannounce
    cases hannounce
  · rename_i log₀ hannounce
    have hlog₀ := moments_of_announce hannounce
    split at hrun
    · rename_i hturns
      obtain ⟨-, rfl⟩ := Prod.mk.inj hrun
      rcases exists_of_turns hturns with ⟨s, hreaches⟩ | ⟨s, log₁, fault, hturn, hreaches, hfault⟩
      · exact ⟨log₀, s, _, hlog₀, hreaches, .inl rfl⟩
      · exact ⟨log₀, s, log₁, hlog₀, hreaches, .inr (.inr ⟨hturn, fault, hfault⟩)⟩
    · rename_i s log₁ hturns
      obtain ⟨hreaches, hstop⟩ := turns_ok hturns
      obtain ⟨new, hnew, hcloses⟩ := moments_of_conclude hrun
      refine ⟨log₀, s, log₁, hlog₀, hreaches, .inr (.inl ⟨hstop, new, hnew, fun c hc => ?_⟩)⟩
      obtain ⟨measures, status, hclosed⟩ := hcloses c hc
      rw [hclosed]
      exact trivial

end Runs

end SearchState

/-- **Searches restart at the limits of their policy**, in the calls of every run, however it ends, and at every
turn. -/
theorem Network.Discreet.paced {σ : Type} {n : Network} (h : n.Discreet) {task : SearchTask} {limit : Nat → Nat}
    (hp : task.config.restart.Limits limit) (strategy : Strategy σ) (signals : Array Notice → Signals) (fuel : Nat)
    (b : σ) :
    (∀ r log, SearchState.run task strategy (.recording signals) fuel n b #[] = (r, log) → Paced limit (moments log)) ∧
      ∀ log₀ s log, moments log₀ = [] → SearchState.Reaches task strategy (.recording signals) (.begin n b) log₀ s log →
        (s.turn = .restart ↔ sinceRestart (moments log) = limit (callsOf .restart (moments log) + 1)) := by
  have htimely : ∀ {log₀ s log}, moments log₀ = [] →
      SearchState.Reaches task strategy (.recording signals) (.begin n b) log₀ s log →
        s.network.Discreet ∧ s.Timely limit (moments log) :=
    fun hlog₀ hreaches => hreaches.timely hp h (hlog₀ ▸ SearchState.timely_begin hp n b)
  refine ⟨fun r log hrun => ?_, fun log₀ s log hlog₀ hreaches => ?_⟩
  · obtain ⟨log₀, s, log₁, hlog₀, hreaches, hend⟩ := SearchState.cases_of_run hrun
    obtain ⟨hd, ht⟩ := htimely hlog₀ hreaches
    rcases hend with rfl | ⟨hstop, new, hnew, hplain⟩ | ⟨hturn, fault, hfault⟩
    · exact ht.paced
    · rw [hnew]
      exact ht.paced_append_plain (by simp [hstop]) hplain
    · obtain ⟨new, hnew, hbeats, -⟩ := SearchState.of_attend_step hd hturn hfault
      rw [hnew]
      exact ht.paced_append hp hbeats
  · obtain ⟨-, ht⟩ := htimely hlog₀ hreaches
    refine ⟨ht.due, fun hlimit => ?_⟩
    by_contra hturn
    exact absurd hlimit (Nat.ne_of_lt (ht.early hturn))

/-! ### Luby policies -/

namespace Luby

theorem Law.limits {L : Nat → Nat} (h : Law L) {scale : Nat} (hscale : 0 < scale) :
    (RestartPolicy.luby scale).Limits fun k => min (scale * L k) thresholdLimit where
  isDue_iff restarts nodes := by
    rw [h.eq_term (Nat.le_add_left 1 restarts)]
    exact decide_eq_true_iff
  pos restarts := by
    have hmul : 0 < scale * L (restarts + 1) := Nat.mul_pos hscale (h.pos (Nat.le_add_left 1 restarts))
    exact Nat.lt_min.mpr ⟨hmul, by decide⟩
  atSolutions := rfl

/-- **Luby restarts follow the Luby sequence.** The machine finds its terms, in which each power of two is half as
frequent as the one before. In the calls of every run under a Luby policy with an accepted configuration, however the
run ends, the `k`-th restart comes just when the nodes opened since the one before are as many as the scale times the
`k`-th term, and at every turn a restart is next if and only if they are. -/
theorem Law.paces_restarts {L : Nat → Nat} (hL : Law L) :
    (∀ i fuel, 1 ≤ i → i < Nat.pow 2 63 → 63 ≤ fuel → term i = L i ∧ Machine.term i fuel = .ok (L i)) ∧
      (∀ j k, j < k → occurrences L k (Nat.pow 2 j) = Nat.pow 2 (k - 1 - j)) ∧
      ∀ {σ : Type} (n : Network) (task : SearchTask) (strategy : Strategy σ) (signals : Array Notice → Signals)
        (fuel : Nat) (b : σ) (scale : Nat), n.Discreet → task.config.restart = .luby scale →
        task.config.problem? = none →
        (∀ r log, SearchState.run task strategy (.recording signals) fuel n b #[] = (r, log) →
            Paced (fun k => min (scale * L k) thresholdLimit) (moments log)) ∧
          ∀ log₀ s log, moments log₀ = [] →
            SearchState.Reaches task strategy (.recording signals) (.begin n b) log₀ s log → (s.turn = .restart ↔
              sinceRestart (moments log) = min (scale * L (callsOf .restart (moments log) + 1)) thresholdLimit) := by
  refine ⟨fun i fuel hi hlt hfuel => ?_, fun j k => hL.occurrences_pow, ?_⟩
  · exact ⟨(hL.eq_term hi).symm, hL.machine_term hi (by decide) hlt hfuel⟩
  · intro σ n task strategy signals fuel b scale hn hpolicy hconfig
    have hscale : 0 < scale := Nat.pos_of_ne_zero fun hzero => by
      rw [SearchConfig.problem?, hpolicy, hzero] at hconfig
      split at hconfig <;> cases hconfig
    exact hn.paced (hpolicy ▸ hL.limits hscale) strategy signals fuel b

set_option maxRecDepth 20000 in
/-- A search with fourteen restarts, of which the seventh is the first to wait for four nodes. -/
theorem paces_restarts_of_corner : ∃ (n n' : Network) (result : SearchResult) (s : SearchState Brancher)
    (log log' : Array Notice) (b b' : Brancher),
    Law term ∧ Machine.term 7 63 = .ok 4 ∧ occurrences term 4 (Nat.pow 2 1) = 4 ∧ n.Discreet ∧
      SearchState.run ⟨{ restart := .luby 1 }, none⟩ Brancher.strategy (.recording fun _ => {}) 200 n b #[] =
        (.ok (result, n', b'), log) ∧
      result.measures.restarts = 14 ∧ Paced (fun k => min (1 * term k) thresholdLimit) (moments log) ∧
      SearchState.Reaches ⟨{ restart := .luby 1 }, none⟩ Brancher.strategy (.recording fun _ => {}) (.begin n b) #[]
        s log' ∧
      s.turn = .restart ∧ callsOf .restart (moments log') = 6 ∧ sinceRestart (moments log') = 4 := by
  let task : SearchTask := ⟨{ restart := .luby 1 }, none⟩
  let b := Brancher.heuristic (.inputOrderMin [⟨0⟩, ⟨1⟩])
  have heval : Network.corner?.bind (fun n =>
      (SearchState.run task Brancher.strategy (.recording fun _ => {}) 200 n b #[]).1.toOption.bind fun r =>
        (SearchState.after task Brancher.strategy (.recording fun _ => {}) (.begin n b) #[] 24).map fun e =>
          (r.1.measures.restarts, e.1.turn, callsOf .restart (moments e.2))) = some (14, .restart, 6) := by
    decide +kernel
  obtain ⟨n, hn, heval⟩ := Option.bind_eq_some_iff.mp heval
  obtain ⟨⟨result, n', b'⟩, hrun, heval⟩ := Option.bind_eq_some_iff.mp heval
  obtain ⟨⟨s, log'⟩, hafter, heval⟩ := Option.map_eq_some_iff.mp heval
  simp only [Prod.mk.injEq] at heval
  obtain ⟨hrestarts, hturn, hcalls⟩ := heval
  have hrun : SearchState.run task Brancher.strategy (.recording fun _ => {}) 200 n b #[] =
      (.ok (result, n', b'), _) := Prod.ext (toOption_eq_some.mp hrun) rfl
  have hreaches := SearchState.reaches_of_after hafter
  have hn := Network.corner_discreet hn
  obtain ⟨hterms, hoccurrences, hsearches⟩ := term_law.paces_restarts
  obtain ⟨hpaced, hturns⟩ := hsearches n task Brancher.strategy (fun _ => {}) 200 b 1 hn rfl (by decide)
  have hseven : term 7 = 4 := term_full 2
  have hterm := (hterms 7 63 (by decide) (by decide) (by decide)).2
  have hsince := (hturns #[] s log' rfl hreaches).mp hturn
  rw [hseven] at hterm
  rw [hcalls, hseven] at hsince
  exact ⟨n, n', result, s, _, log', b, b', term_law, hterm, hoccurrences 1 4 (by decide), hn, hrun, hrestarts,
    hpaced _ _ hrun, hreaches, hturn, hcalls, hsince⟩

end Luby

end FiniteDomain
