import FiniteDomain.Proofs.Search.Solution

/-!
# What a search keeps up

Between two turns the assignments that are still looked for lie where the search is still to go, and what it
found is told to the observers.

* `Quest.Shown`: what the observers may be shown after some moments;
* `Sound`: what holds whatever the next turn;
* `SearchState.Stands`: where the search stands before each turn.
-/

namespace FiniteDomain

open Activity

/-! ### What is shown -/

/-- The solution that is handed out. -/
def Callback.solution? : Callback → Option Solution
  | solution s => some s
  | _ => none

/-- The solutions that were handed out, oldest first. -/
def solutionsOf (shown : List Moment) : List Solution := shown.filterMap fun c => c.1.solution?

theorem solutionsOf_append (a b : List Moment) : solutionsOf (a ++ b) = solutionsOf a ++ solutionsOf b :=
  List.filterMap_append

namespace Quest

/-- The solution is that of an assignment over the domains at the start that the posted constraints admit. -/
def Reports (q : Quest) (solution : Solution) : Prop :=
  ∃ a, q.Goal a ∧ solution.values = q.start.valuesOf a ∧ solution.objective = q.task.objective.map fun o => a o.var

/-- What is handed out as a solution is one, and better than all before. Where a node is opened only better
values of the objective are left. -/
def Shown (q : Quest) (before : List Moment) : Moment → Prop
  | (.solution solution, _) => q.Reports solution ∧ ∀ old ∈ solutionsOf before, ∀ o v w, q.task.objective = some o →
      solution.objective = some v → old.objective = some w → o.Better v w
  | (.nodeOpened _, m) => ∀ old ∈ solutionsOf before, ∀ o v w, q.task.objective = some o → m.Has o.var v →
      old.objective = some w → o.Better v w
  | _ => True

/-- The assignment is still looked for: it is a solution, a better one than those found, and unless better ones
are asked for it is not among them. -/
def Seeks (q : Quest) (found : Array Solution) (best : Option Int) (a : Assignment) : Prop :=
  q.Goal a ∧ Improves q.task.objective best a ∧
    (q.task.objective = none → ∀ solution ∈ found, solution.values ≠ q.start.valuesOf a)

end Quest

theorem Objective.better_trans {o : Objective} {u v w : Int} (h1 : o.Better u v) (h2 : o.Better v w) :
    o.Better u w := by
  cases o with
  | minimize x => exact Int.lt_trans h1 h2
  | maximize x => exact Int.lt_trans h2 h1

/-- What was found is what was told, and the best value is that of the last solution. -/
structure Ledger (q : Quest) (shown : List Moment) (found : Array Solution) (best : Option Int) : Prop where
  told : found.toList = solutionsOf shown
  reports : ∀ solution ∈ found, q.Reports solution
  last : best = found.back?.bind Solution.objective
  bounds : ∀ old ∈ found, ∀ o w, q.task.objective = some o → old.objective = some w →
    ∃ b, best = some b ∧ (b = w ∨ o.Better b w)
  fits : Network.BestFits best
  nodup : (found.toList.map Solution.values).Nodup

namespace Ledger

variable {q : Quest} {shown new : List Moment} {found : Array Solution} {best : Option Int}

theorem skip (h : Ledger q shown found best) (hn : solutionsOf new = []) : Ledger q (shown ++ new) found best := by
  refine ⟨?_, h.reports, h.last, h.bounds, h.fits, h.nodup⟩
  rw [solutionsOf_append, hn, List.append_nil]
  exact h.told

/-- What is better than the best value is better than all found before. -/
theorem better (h : Ledger q shown found best) {o : Objective} (ho : q.task.objective = some o) {v : Int}
    (hv : ∀ b, best = some b → o.Better v b) {old : Solution} (hold : old ∈ solutionsOf shown) {w : Int}
    (hw : old.objective = some w) : o.Better v w := by
  rw [← h.told, Array.mem_toList_iff] at hold
  obtain ⟨b, hb, rfl | hbw⟩ := h.bounds old hold o w ho hw
  · exact hv _ hb
  · exact o.better_trans (hv b hb) hbw

/-- A further solution. -/
theorem push (h : Ledger q shown found best) (solution : Solution) (hr : q.Reports solution)
    (hbetter : ∀ o v b, q.task.objective = some o → solution.objective = some v → best = some b → o.Better v b)
    (hfits : ∀ v, solution.objective = some v → Value.Fits v)
    (hnew : ∀ old ∈ found, old.values ≠ solution.values)
    (hn : solutionsOf new = [solution]) :
    Ledger q (shown ++ new) (found.push solution) (solution.objective <|> best) := by
  have hobj : solution.objective = none → best = none := by
    intro hnone
    obtain ⟨a, -, -, ha⟩ := hr
    rw [h.last]
    cases hback : found.back? with
    | none => rfl
    | some old =>
      obtain ⟨b, -, -, hb⟩ := h.reports old (Array.mem_of_back? hback)
      rw [hnone] at ha
      rw [Option.bind_some, hb, Option.map_eq_none_iff.mpr (Option.map_eq_none_iff.mp ha.symm)]
  refine ⟨?_, ?_, ?_, ?_, ?_, ?_⟩
  · rw [Array.toList_push, solutionsOf_append, hn, h.told]
  · intro sol hsol
    rcases Array.mem_push.mp hsol with hsol | rfl
    · exact h.reports sol hsol
    · exact hr
  · rw [Array.back?_push, Option.bind_some]
    cases hsol : solution.objective with
    | none => rw [hobj hsol]; rfl
    | some v => rfl
  · intro old hold o w ho hw
    rcases Array.mem_push.mp hold with hold | rfl
    · obtain ⟨b, hb, hbw⟩ := h.bounds old hold o w ho hw
      cases hsol : solution.objective with
      | none =>
        rw [hobj hsol] at hb
        cases hb
      | some v =>
        refine ⟨v, rfl, .inr ?_⟩
        have hvb := hbetter o v b ho hsol hb
        rcases hbw with rfl | hbw
        · exact hvb
        · exact o.better_trans hvb hbw
    · exact ⟨w, by rw [hw]; rfl, .inl rfl⟩
  · intro b hb
    cases hsol : solution.objective with
    | none =>
      rw [hsol] at hb
      exact h.fits b hb
    | some v =>
      rw [hsol] at hb
      cases hb
      exact hfits _ hsol
  · rw [Array.toList_push, List.map_append, List.nodup_append]
    refine ⟨h.nodup, by simp, ?_⟩
    intro u hu v hv heq
    obtain ⟨old, hold, rfl⟩ := List.mem_map.mp hu
    obtain ⟨sol, hsol, rfl⟩ := List.mem_map.mp hv
    cases List.mem_singleton.mp hsol
    exact hnew old (Array.mem_toList_iff.mp hold) heq

end Ledger

/-! ### Between turns -/

/-- The list holds the constraints that the search posted itself, each once. -/
structure Additions (q : Quest) (r : Roster) (recorded : Array PropId) : Prop where
  mem_iff : ∀ id, id ∈ recorded ↔ q.posted id = none ∧ r id ≠ none
  nodup : recorded.toList.Nodup

/-- A constraint that the search posts is one that it removes at its end. -/
theorem Additions.push {q : Quest} {r : Roster} {recorded : Array PropId} {i : PropId} {e : Member}
    (h : Additions q r recorded) (hposted : ∀ id e, q.posted id = some e → r id = some e) (hi : r i = none) :
    Additions q (r.insert i e) (recorded.push i) := by
  refine ⟨fun id => ?_, ?_⟩
  · rw [Array.mem_push, h.mem_iff]
    by_cases hid : id = i
    · subst hid
      have hnone : q.posted id = none := by
        cases hp : q.posted id with
        | none => rfl
        | some f => cases hi.symm.trans (hposted id f hp)
      simp [hnone, Roster.insert_self]
    · rw [Roster.insert_of_ne r e hid]
      simp [hid]
  · rw [Array.toList_push]
    refine List.nodup_append.mpr ⟨h.nodup, List.nodup_singleton i, fun j hj k hk heq => ?_⟩
    rw [List.mem_singleton] at hk
    rw [heq, hk, Array.mem_toList_iff, h.mem_iff] at hj
    exact hj.2 hi

variable {σ : Type}

/-- What holds of a search whatever its next turn, if it is still to go to the assignments of a region: what is
looked for is there, and nothing that was found is. -/
structure Sound (q : Quest) (P : σ → Prop) (r : Roster) (shown : List Moment) (R : Assignment → Prop)
    (s : SearchState σ) : Prop where
  wired : s.network.Wired r
  started : s.network.started = true
  calm : s.network.failed = false
  frame : q.Frames s.network.model
  linked : s.network.model.store.Linked
  posted : ∀ id e, q.posted id = some e → r id = some e
  recorded : Additions q r s.recorded
  strategy : P s.brancher
  root : s.root = q.root
  count : s.measures.solutions = s.found.size
  ledger : Ledger q shown s.found s.measures.best
  sought : ∀ a, q.Seeks s.found s.measures.best a → r.Admits a
  ahead : ∀ a, q.Seeks s.found s.measures.best a → R a
  /-- A search that restarts has posted nogoods against what it found. -/
  blocked : q.task.objective = none → q.task.config.restart.isEnabled = true →
    ∀ solution ∈ s.found, ∀ a, solution.values = q.start.valuesOf a → ¬r.Admits a
  behind : q.task.objective = none → q.task.config.restart.isEnabled = false →
    ∀ solution ∈ s.found, ∀ a, solution.values = q.start.valuesOf a → ¬R a

namespace Sound

variable {q : Quest} {P : σ → Prop} {r : Roster} {shown new : List Moment} {R T : Assignment → Prop}
  {s : SearchState σ}

theorem skip (h : Sound q P r shown R s) (hn : solutionsOf new = []) : Sound q P r (shown ++ new) R s :=
  { h with ledger := h.ledger.skip hn }

/-- The search turns to another region. -/
theorem turn (h : Sound q P r shown R s) (hto : ∀ a, q.Seeks s.found s.measures.best a → R a → T a)
    (hfrom : q.task.config.restart.isEnabled = false → ∀ a, T a → R a) : Sound q P r shown T s :=
  { h with
    ahead := fun a ha => hto a ha (h.ahead a ha)
    behind := fun ho hp sol hsol a heq ha => h.behind ho hp sol hsol a heq (hfrom hp a ha) }

/-- What is looked for can be reached by propagation. -/
theorem improves (h : Sound q P r shown R s) (a : Assignment) (ha : q.Seeks s.found s.measures.best a) :
    r.Admits a ∧ Improves q.task.objective s.measures.best a := ⟨h.sought a ha, ha.2.1⟩

end Sound

/-- The assignment is left at the node below a path or in the refutations still to be tried on the path. -/
def Region (path : List Decision) (a : Assignment) : Prop := OnPath path a ∨ Remains path a

/-- The root, once the search is back there: each constraint is decided, or a full pass of it is due. -/
structure Landing [Tolerance] (q : Quest) (r : Roster) (L : Assignment → Prop) (n : Network) (t : Store Datum) : Prop where
  popUntil : n.model.store.popUntil q.root = .ok t
  ladder : Ladder q r L [] t
  suits : r.Suits (q.modelAt t)
  due : ∀ id e, r id = some e → n.Owed id ∨ e.constraint.Decided (q.modelAt t)
  sound : ∀ a, (q.modelAt t).Allows a → q.start.Allows a
  complete : ∀ a, L a → (q.modelAt t).Allows a

namespace SearchState

/-- Where the search stands before its next turn. -/
def Stands [Tolerance] (q : Quest) (P : σ → Prop) (r : Roster) (shown : List Moment) (s : SearchState σ) : Prop :=
  let L := q.Seeks s.found s.measures.best
  let path := s.path.fromDeepest
  let store := s.network.model.store
  match s.turn with
  | .root => False
  | .node => Sound q P r shown (Region path) s ∧ Ladder q r L path store ∧ Node q r L path store ∧
      s.network.model.Beats q.task.objective s.measures.best
  | .down => ∃ d rest, path = d :: rest ∧ Sound q P r shown (Region rest) s ∧ Ladder q r L rest store ∧
      Node q r L rest store ∧ d.Splits (q.modelAt store)
  | .up => Sound q P r shown (Remains path) s ∧ Ladder q r L path store
  | .restart => Sound q P r shown (Region path) s ∧ Ladder q r L path store ∧
      q.task.config.restart.isEnabled = true ∧ ∃ t, Landing q r L s.network t
  | .stop => ∃ R, Sound q P r shown R s ∧ Ladder q r L path store ∧ (s.stopped = none → ∀ a, ¬R a)

end SearchState

/-- What a turn shows is what may be shown, and after it the search stands somewhere. -/
def Turns [Tolerance] (q : Quest) (P : σ → Prop) (shown : List Moment) (a : Activity (SearchState σ)) : Prop :=
  Ensures (fun before c => q.Shown (shown ++ before) c) a fun s new => ∃ r, s.Stands q P r (shown ++ new)

namespace Turns

variable [Tolerance] {q : Quest} {P : σ → Prop} {r : Roster} {shown : List Moment}

theorem done {s : SearchState σ} (h : s.Stands q P r shown) : Turns q P shown (pure s) := by
  refine Ensures.pure ⟨r, ?_⟩
  rw [List.append_nil]
  exact h

theorem tell {c : Callback} {m : Model} {f : Unit → Activity (SearchState σ)} (hc : q.Shown shown (c, m))
    (h : Turns q P (shown ++ [(c, m)]) (f ())) : Turns q P shown (report (.callback c m) >>= f) := by
  refine Ensures.bind (R := fun _ before => before = [(c, m)]) (.tell (by rw [List.append_nil]; exact hc) rfl) ?_
  rintro - before rfl
  simp only [← List.append_assoc]
  exact h

theorem after {α : Type} {a : Activity α} {f : α → Activity (SearchState σ)} {Q : α → List Moment → Prop}
    (ha : Ensures (fun before c => q.Shown (shown ++ before) c) a Q)
    (hf : ∀ x new, Q x new → Turns q P (shown ++ new) (f x)) : Turns q P shown (a >>= f) := by
  refine Ensures.bind ha fun x new hx => ?_
  have h := hf x new hx
  simp only [Turns, List.append_assoc] at h
  exact h

end Turns

end FiniteDomain
