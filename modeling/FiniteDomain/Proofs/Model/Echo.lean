import FiniteDomain.Notice
import FiniteDomain.Proofs.Domain.Echo
import FiniteDomain.Proofs.Model.Edits
import FiniteDomain.Proofs.Model.Twins
import FiniteDomain.Proofs.Propagation.Built
import FiniteDomain.Proofs.Store.Echo

/-!
# Models with a residue

What an earlier use of a model leaves behind are cells that nothing refers to, and numbers of propagators that were
removed. A model *echoes* another if it is the same but for such a residue: the same variables have the same domains in
the same cells, and events were caused by the propagators that correspond.

* `Model.Echoes`, with a lemma per operation on worlds;
* `Echoes.alike`: the same answers;
* `Echoes.narrow`: the same narrowings.
-/

namespace FiniteDomain

/-- What the second of two networks has that the first does not. -/
structure Residue where
  /-- Cells that nothing refers to. -/
  cells : Leap
  /-- Propagators that were removed. -/
  ids : Leap
  /-- Earlier executions. -/
  executions : Int
  /-- Of the first so many propagators none owes a full pass. -/
  spent : Nat := 0

def PropId.across (l : Leap) (id : PropId) : PropId := ⟨l.across id.index⟩

def Cause.across (l : Leap) : Cause → Cause
  | propagator id => propagator (id.across l)
  | c => c

def Event.across (l : Leap) (e : Event) : Event := { e with cause := e.cause.across l }

def Contradiction.across (l : Leap) (c : Contradiction) : Contradiction := { c with cause := c.cause.across l }

section Over

variable {l : Leap}

@[simp] theorem PropId.across_inj {i j : PropId} : i.across l = j.across l ↔ i = j := by
  obtain ⟨i⟩ := i
  obtain ⟨j⟩ := j
  rw [across, across, PropId.mk.injEq, PropId.mk.injEq, Leap.across_inj]

theorem Cause.across_eq_propagator {c : Cause} {id : PropId} :
    c.across l = .propagator (id.across l) ↔ c = .propagator id := by
  cases c <;> simp [across]

/-- Over no gap nothing changes. -/
theorem Contradiction.across_of_gap_eq_zero (h : l.gap = 0) (c : Contradiction) : c.across l = c := by
  obtain ⟨conflict, cause⟩ := c
  cases cause <;> simp [across, Cause.across, PropId.across, Leap.across_of_gap_eq_zero h]

end Over

/-- An outcome of the first network as the second has it. -/
abbrev outcomeAcross {α : Type} (l : Leap) (r : Except Contradiction α) : Except Contradiction α :=
  r.mapError (Contradiction.across l)

namespace Model

/-- The second model is the same but for the residue. -/
structure Echoes (k : Residue) (m m' : Model) : Prop where
  vars : m'.vars = m.vars
  store : m.store.Echoes k.cells m'.store
  events : m'.events = m.events.map (Event.across k.ids)
  housed : ∀ c, m.Owns c → c < k.cells.base

namespace Echoes

variable {k : Residue} {m m' : Model} (h : m.Echoes k m')

include h

theorem owns_eq (x : VarId) : m'.owns x = m.owns x := by rw [owns, owns, h.vars]

theorem allVars_eq : m'.allVars = m.allVars := by rw [allVars, allVars, h.vars]

/-! ### Questions -/

theorem domain_eq (x : VarId) : m'.domain x = m.domain x := by
  rw [domain, domain, variableOf, variableOf, h.vars]

theorem get_of {i : Nat} {y : Variable} (hy : m.vars[i]? = some y) :
    ∀ c, y.domain.Owns c → m'.store.get? c = m.store.get? c :=
  fun c hc => h.store.get?_of_lt (h.housed c ⟨i, y, hy, hc⟩)

/-- A question that depends on the cells of a domain only has the same answer. -/
theorem question_eq {α : Type} {f : Domain → Store Datum → Except Fault α}
    (hf : ∀ {d : Domain} {s t : Store Datum}, (∀ c, d.Owns c → t.get? c = s.get? c) → f d t = f d s) (x : VarId) :
    (do f (← m'.domain x) m'.store) = (do f (← m.domain x) m.store) := by
  rw [h.domain_eq]
  cases hy : m.vars[x.index]? with
  | none =>
    have hx : ¬m.owns x = true := fun howns => by
      obtain ⟨y, hy'⟩ := Model.owns_iff.mp howns
      rw [hy] at hy'
      cases hy'
    rw [domain_bind_eq_error hx, domain_bind_eq_error hx]
  | some y =>
    rw [domain_eq_ok hy]
    exact hf (h.get_of hy)

theorem isEnumerated_eq (x : VarId) : m'.isEnumerated x = m.isEnumerated x := by
  rw [isEnumerated, isEnumerated, h.domain_eq]

theorem lb_eq (x : VarId) : m'.lb x = m.lb x :=
  h.question_eq (f := fun d s => .ok (d.lb s)) (fun hget => congrArg _ (Domain.lb_congr hget)) x

theorem ub_eq (x : VarId) : m'.ub x = m.ub x :=
  h.question_eq (f := fun d s => .ok (d.ub s)) (fun hget => congrArg _ (Domain.ub_congr hget)) x

theorem extent_eq (x : VarId) : m'.extent x = m.extent x :=
  h.question_eq (f := fun d s => .ok (d.extent s)) (fun hget => congrArg _ (Domain.extent_congr hget)) x

theorem size_eq (x : VarId) : m'.size x = m.size x :=
  h.question_eq (f := fun d s => .ok (d.size s))
    (fun hget => congrArg (fun e : Domain.Extent => Except.ok e.size) (Domain.extent_congr hget)) x

theorem contains_eq (x : VarId) (v : Int) : m'.contains x v = m.contains x v :=
  h.question_eq (f := fun d s => d.contains s v) (fun hget => Domain.contains_congr hget v) x

theorem next?_eq (x : VarId) (v : Int) : m'.next? x v = m.next? x v :=
  h.question_eq (f := fun d s => d.next? s v) (fun hget => Domain.next?_congr hget v) x

theorem previous?_eq (x : VarId) (v : Int) : m'.previous? x v = m.previous? x v :=
  h.question_eq (f := fun d s => d.previous? s v) (fun hget => Domain.previous?_congr hget v) x

/-- **Filters have the same answers.** -/
theorem alike (l : List VarId) : m.Alike l m' := by
  refine ⟨⟨fun x _ => h.lb_eq x, fun x _ => h.ub_eq x⟩, fun x _ => h.contains_eq x, fun x _ => ?_, ?_, ?_⟩
  · exact h.question_eq (f := fun d s => d.values s) (fun hget => Domain.values_congr hget) x
  · intro x _ v _
    exact h.question_eq (f := fun d s => d.nextFrom? s v) (fun hget => Domain.nextFrom?_congr hget v) x
  · intro x _ v _
    exact h.question_eq (f := fun d s => d.previousFrom? s v) (fun hget => Domain.previousFrom?_congr hget v) x

theorem value?_eq (x : VarId) : m'.value? x = m.value? x := (h.alike [x]).value?_eq List.mem_cons_self

theorem isInstantiated_eq (x : VarId) : m'.isInstantiated x = m.isInstantiated x :=
  (h.alike [x]).isInstantiated_eq List.mem_cons_self

/-! ### Operations on the store -/

theorem withStore {s s' : Store Datum} (hs : s.Echoes k.cells s') :
    Echoes k { m with store := s } { m' with store := s' } := ⟨h.vars, hs, h.events, h.housed⟩

theorem clearEvents : m.clearEvents.Echoes k m'.clearEvents := ⟨h.vars, h.store, Array.map_empty.symm, h.housed⟩

theorem pushWorld : m.pushWorld.Echoes k m'.pushWorld := h.withStore h.store.push

theorem setCell (c : Nat) (v : Datum) : (m.setCell c v).Echoes k (m'.setCell (k.cells.across c) v) :=
  h.withStore (h.store.set c v)

theorem popWorld : Matches (Echoes k) m.popWorld m'.popWorld :=
  .bind h.store.pop fun _ _ hs => .ok (h.withStore hs)

theorem popUntil (target : Nat) : Matches (Echoes k) (m.popUntil target) (m'.popUntil target) :=
  .bind (h.store.popUntil target) fun _ _ hs => .ok (h.withStore hs)

theorem commitWorld : Matches (Echoes k) m.commitWorld m'.commitWorld :=
  .bind h.store.commit fun _ _ hs => .ok (h.withStore hs)

/-! ### Narrowing -/

omit h in
/-- The cells of a domain stand below the gap, so that related stores agree on them. -/
theorem shares {d : Domain} {l : Leap} (hd : ∀ c, d.Owns c → c < l.base) : d.Shares (Store.Echoes l) :=
  ⟨fun _ _ h c hc => h.get?_of_lt (hd c hc), fun _ _ c v h hc => h.set_of_lt (hd c hc) v⟩

theorem apply (x : VarId) (μ : Mutation) (cause : Cause) :
    Matches (fun r r' => r'.1 = outcomeAcross k.ids r.1 ∧ r.2.Echoes k r'.2) (m.apply x μ cause)
      (m'.apply x μ (cause.across k.ids)) := by
  have hvars := h.vars
  have hstore := h.store
  have hevents := h.events
  have hhoused := h.housed
  obtain ⟨name, store, vars, events, generated⟩ := m
  obtain ⟨name', store', vars', events', generated'⟩ := m'
  cases hvars
  simp only [Model.apply]
  cases hy : vars[x.index]? with
  | none => exact .error
  | some y =>
    have hd := shares fun c hc => hhoused c ⟨x.index, y, hy, hc⟩
    have happly := hd.apply hstore μ
    dsimp only
    cases hu : y.domain.apply store μ with
    | error fault => exact .error
    | ok r =>
      obtain ⟨⟨u', t'⟩, hu', hupdate, ht⟩ := happly r hu
      obtain ⟨u, t⟩ := r
      obtain rfl : u' = u := hupdate
      rw [hu']
      cases u' with
      | unchanged => exact .ok ⟨rfl, rfl, ht, hevents, hhoused⟩
      | changed kind =>
        have hpush : events'.push ⟨x, kind, cause.across k.ids⟩ = (events.push ⟨x, kind, cause⟩).map (Event.across k.ids) := by
          rw [Array.map_push, ← hevents]
          rfl
        exact .ok ⟨rfl, rfl, ht, hpush, hhoused⟩
      | emptied => exact .ok ⟨rfl, rfl, ht, hevents, hhoused⟩

/-- **The same narrowings are made.** -/
theorem narrow (x : VarId) (μ : Mutation) (cause : Cause) :
    Activity.Matches (fun r r' => r'.1 = outcomeAcross k.ids r.1 ∧ r.2.Echoes k r'.2) (m.narrow x μ cause)
      (m'.narrow x μ (cause.across k.ids)) := by
  refine .bind (.quietly (h.apply x μ cause)) ?_
  rintro ⟨result, n⟩ ⟨result', n'⟩ ⟨rfl, hn⟩
  have hname : n'.varName x = n.varName x := by rw [varName, varName, variableOf, variableOf, hn.vars]
  refine .bind (R := fun _ _ => True) (.quietly ?_) fun name name' _ => ?_
  · rw [hname]
    exact (Matches.of_eq rfl).mono fun _ _ _ => True.intro
  · -- a notice more or less makes no difference to the result
    cases Notice.ofMutation? name cause result n.events <;>
      cases Notice.ofMutation? name' (cause.across k.ids) (outcomeAcross k.ids result) n'.events <;>
      · rintro before _ _ ⟨⟩ before'
        exact ⟨_, _, rfl, rfl, hn⟩

end Echoes

end Model

end FiniteDomain
