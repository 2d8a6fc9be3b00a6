import FiniteDomain.Proofs.Search.Tether

/-!
# Back to where a decision was taken

From the moment at which a decision is taken on, the network stands some worlds atop the one of that moment: one more
for the decision and for each that is taken below. Closing these worlds restores all that was to be seen.

* `Network.Atop`, `Network.Lifts`: networks above another one, and operations that lead up or down;
* `SearchState.step_climbs`: where a turn leads;
* `Network.Atop.restores`: no world above, all is as it was.
-/

namespace FiniteDomain

open Activity

/-! ### What is restored -/

/-- The second model shows what the first one showed, but for changes still to be looked at and cells made since. -/
structure Model.Restores (m m' : Model) : Prop where
  world : m'.world = m.world
  trail : m'.store.trail = m.store.trail
  starts : m'.store.starts = m.store.starts
  vars : m'.vars = m.vars
  cells : ∀ c < m.store.slots.size, m'.store.slots[c]? = m.store.slots[c]?
  domains : ∀ x, m'.extent x = m.extent x ∧ ∀ v, m'.contains x v = m.contains x v

namespace Network

variable {n₀ n n' n'' : Network} {j k l : Nat}

/-- So has a network, and whoever was posted then is posted still and may be woken just if it might be then. -/
structure Restores (n n' : Network) : Prop where
  model : n.model.Restores n'.model
  active : ∀ (id : PropId) p, n.posts[id.index]? = some p → ∃ p', n'.posts[id.index]? = some p' ∧
    p'.propagator = p.propagator ∧ n'.model.store.flag p'.active = n.model.store.flag p.active ∧
      n'.isActive p' = n.isActive p

/-- The cells of the domains and of the propagators exist. -/
structure Housed (n : Network) : Prop where
  domains : ∀ c, n.model.Owns c → c < n.model.store.slots.size
  flags : ∀ e ∈ n.roll, e.active < n.model.store.slots.size

/-- So many worlds above the first network, whoever was posted there being posted still. -/
structure Atop (n₀ : Network) (k : Nat) (n : Network) : Prop where
  frame : n.model = { n₀.model with store := n.model.store, events := n.model.events }
  store : n₀.model.store.Over k n.model.store
  roll : ∀ i < n₀.posts.size, n.roll[i]? = n₀.roll[i]?

namespace Atop

theorem refl (h : n.model.store.Linked) : Atop n 0 n := ⟨rfl, .refl h, fun _ _ => rfl⟩

theorem evolve (h : Atop n₀ (k + 1) n) (he : Evolves n n') : Atop n₀ (k + 1) n' :=
  ⟨by rw [he.model.frame, h.frame], h.store.writes he.model.writes, he.roll ▸ h.roll⟩

theorem withStore (h : Atop n₀ k n) {s : Store Datum} (hs : n₀.model.store.Over j s) :
    Atop n₀ j { n with model := { n.model with store := s } } := ⟨by rw [h.frame], hs, h.roll⟩

theorem pushWorld (h : Atop n₀ k n) : Atop n₀ (k + 1) { n with model := n.model.pushWorld } := h.withStore h.store.push

theorem popWorld (h : Atop n₀ (k + 1) n) {m : Model} (hm : n.model.popWorld = .ok m) :
    Atop n₀ k { n with model := m } := by
  obtain ⟨t, ht, hover⟩ := h.store.exists_pop
  rw [Model.popWorld_eq_ok ht] at hm
  cases hm
  exact h.withStore hover

theorem size_posts_le (h : Atop n₀ k n) : n₀.posts.size ≤ n.posts.size := by
  refine Nat.le_of_not_lt fun hlt => ?_
  have hnone := h.roll n.posts.size hlt
  rw [Array.getElem?_eq_none (by simp), eq_comm, Array.getElem?_eq_none_iff, size_roll] at hnone
  omega

theorem post (h : Atop n₀ k n) {e : Enrolment} {values : List Datum} (hroll : n'.roll = n.roll.push e)
    (hmodel : n'.model = { n.model with store := n.model.store.grow values }) : Atop n₀ k n' := by
  have hle := h.size_posts_le
  refine ⟨by rw [hmodel, h.frame], by rw [hmodel]; exact h.store.grow values, fun i hi => ?_⟩
  rw [hroll, Array.getElem?_push, if_neg (by rw [size_roll]; omega), h.roll i hi]

/-- **Where no world is left above, all is as it was.** -/
theorem restores (h : Atop n₀ 0 n) (hhoused : n₀.Housed) : n₀.Restores n := by
  obtain ⟨values, hvalues⟩ := h.store.returns
  have hstore : n.model.store = n₀.model.store.grow values := Except.ok.inj hvalues
  have hcells : ∀ c < n₀.model.store.slots.size, n.model.store.slots[c]? = n₀.model.store.slots[c]? := by
    intro c hc
    rw [hstore, Store.getElem?_slots_grow_of_lt hc]
  have hget : ∀ c < n₀.model.store.slots.size, n.model.store.get? c = n₀.model.store.get? c := by
    intro c hc
    rw [hstore, Store.get?_grow_of_lt hc]
  have hvars : n.model.vars = n₀.model.vars := by rw [h.frame]
  refine ⟨⟨?_, ?_, ?_, hvars, hcells, Model.queries_congr hvars fun c hc => hget c (hhoused.domains c hc)⟩, fun id p hp => ?_⟩
  · rw [Model.world, hstore]
    rfl
  · rw [hstore]
    rfl
  · rw [hstore]
    rfl
  · obtain ⟨p', hp', heq⟩ := exists_of_roll (h.roll id.index (Array.getElem?_eq_some_iff.mp hp).1) hp
    rw [Post.enrolment, Post.enrolment, Enrolment.mk.injEq] at heq
    obtain ⟨hpropagator, hactive, hremoved⟩ := heq
    have hlt := hhoused.flags p.enrolment (Array.mem_map_of_mem (Array.mem_of_getElem? hp))
    have hflag : n.model.store.flag p'.active = n₀.model.store.flag p.active := by
      rw [Store.flag, Store.flag, hactive, hget p.active hlt]
    refine ⟨p', hp', hpropagator, hflag, ?_⟩
    rw [isActive, isActive, hflag, decide_not, decide_not, hremoved]

end Atop

/-- Whatever the second network is so many worlds atop of, the third is as many worlds atop of as said. -/
def Lifts (j k : Nat) (n n' : Network) : Prop := ∀ (n₀ : Network) (i : Nat), n₀.Atop (i + j) n → n₀.Atop (i + k) n'

namespace Lifts

theorem refl (k : Nat) (n : Network) : Lifts k k n n := fun _ _ h => h

theorem trans (h : Lifts j k n n') (h' : Lifts k l n' n'') : Lifts j l n n'' := fun n₀ i ha => h' n₀ i (h n₀ i ha)

theorem raise (h : Lifts j k n n') : Lifts (j + 1) (k + 1) n n' := by
  intro n₀ i ha
  rw [← Nat.add_assoc, Nat.add_right_comm] at ha ⊢
  exact h n₀ (i + 1) ha

theorem pushWorld (n : Network) : Lifts 0 1 n { n with model := n.model.pushWorld } := fun _ _ h => h.pushWorld

theorem popWorld {m : Model} (hm : n.model.popWorld = .ok m) : Lifts 1 0 n { n with model := m } :=
  fun _ _ h => h.popWorld hm

theorem evolve (he : Evolves n n') : Lifts 1 1 n n' := fun _ _ h => h.evolve he

theorem letGo (n : Network) : Lifts 1 1 n n.flush.takeLast.2 := evolve ⟨roll_flush n, .clearEvents _⟩

end Lifts

theorem Lawful.post_lifts (h : n.Lawful) {p : Propagator} (hp : p.Lawful) :
    (n.post p).Yields fun r => Lifts 0 0 n r.2 := by
  intro before r after hrun
  obtain ⟨-, -, hroll, hmodel⟩ := @Gives.yields _ .worldly _ _ (h.post hp) _ _ _ hrun
  exact fun n₀ i ha => ha.post hroll hmodel

end Network

namespace SearchState

open Network

variable {σ : Type} {n₀ : Network} {task : SearchTask} {strategy : Strategy σ} {s s' : SearchState σ}

/-- Where a turn leads from the state, above what was there before. -/
def Climbs (s : SearchState σ) (n : Network) : Prop :=
  match s.turn with
  | .node => Lifts 0 0 s.network n
  | .down => Lifts 0 1 s.network n
  | .up => ∀ d, s.path.last? = some d → if d.hasNext then Lifts 1 1 s.network n else Lifts 1 0 s.network n
  | .root | .restart | .stop => True

/-! ### Parts of a turn -/

theorem fail_lifts (s : SearchState σ) (c : Contradiction) :
    (s.fail c).Yields fun s' => Lifts 1 1 s.network s'.network :=
  .skip fun _ => .skip fun _ => .pure (.letGo s.network)

theorem settle_lifts (s : SearchState σ) (outcome : Except Contradiction Unit) :
    (s.settle outcome).Yields fun s' => Lifts 1 1 s.network s'.network := by
  cases outcome with
  | ok u => exact .pure (.refl 1 s.network)
  | error c => exact .bind (fail_lifts s c) fun s' h => .pure h

theorem branch_lifts (h : s.network.Lawful) (task : SearchTask) (d : Decision) :
    (s.branch task d).Yields fun r => Lifts 0 1 s.network r.2.network := by
  have hpushed := h.withModel s.network.model.pushWorld
  refine .bind (R := fun n => n = { s.network with model := s.network.model.pushWorld }) (.pure rfl) ?_
  rintro _ rfl
  refine .bind (@Gives.yields _ .worldly _ _ (hpushed.takeNext d)) ?_
  rintro ⟨outcome, d', n⟩ ⟨hl, hevolves⟩
  have hn := (Lifts.pushWorld s.network).trans (.evolve hevolves)
  cases outcome with
  | error c => exact .pure hn
  | ok u =>
    refine .bind (@Gives.yields _ .worldly _ _ (hl.improveAndPropagate task.objective s.measures.best .objective)) ?_
    rintro r ⟨-, hevolves'⟩
    exact .pure (hn.trans (.evolve hevolves'))

/-- The next alternative of a decision is tried one world up. -/
theorem enter_lifts (h : s.network.Lawful) (task : SearchTask) (d : Decision) :
    (s.branch task d >>= fun r => r.2.settle r.1).Yields fun s' => Lifts 0 1 s.network s'.network := by
  refine .bind (branch_lifts h task d) fun r hr before s' after hs' => hr.trans ?_
  exact settle_lifts r.2 r.1 before s' after hs'

theorem recordSolution_lifts (h : s.network.Lawful) (task : SearchTask) :
    (recordSolution task s).Yields fun s' => Lifts 0 0 s.network s'.network := by
  rw [recordSolution_eq]
  refine .skip fun violated => ?_
  split
  · exact .throw
  refine .skip fun objective => .skip fun solution => .skip fun _ => .skip fun _ => ?_
  refine .bind (R := fun s₁ : SearchState σ => Lifts 0 0 s.network s₁.network) ?_ fun s₁ hs₁ => .pure ?_
  · rw [forbid]
    split
    · exact .bind (h.post_lifts (blocking _ _).lawful) fun r hr => .pure hr
    · exact .pure (.refl 0 _)
  · rw [keep]
    split <;> exact hs₁

/-! ### Turns -/

/-- **Where a turn leads.** -/
theorem step_climbs (h : s.network.Lawful) (task : SearchTask) (strategy : Strategy σ) (signals : Signals) :
    (s.step task strategy signals).Yields fun s' => s.Climbs s'.network := by
  rw [step]
  cases hturn : s.turn with
  | root | restart | stop =>
    simp only [Climbs, hturn]
    exact .trivial _
  | node =>
    simp only [Climbs, hturn]
    rw [openNode]
    split
    · exact .skip fun _ => .pure (.refl 0 _)
    · refine .skip fun _ => ?_
      dsimp only
      split
      · exact .pure (.refl 0 _)
      · refine .skip fun next => ?_
        obtain ⟨d?, brancher⟩ := next
        cases d? with
        | some d => exact .pure (.refl 0 _)
        | none => exact recordSolution_lifts (s := { s with measures := _, nodesSinceRestart := _, brancher }) h task
  | down =>
    simp only [Climbs, hturn]
    rw [goDown]
    split
    · exact .throw
    · rename_i d _
      exact .skip fun _ => enter_lifts (s := { s with measures := { s.measures with
        decisions := s.measures.decisions + 1
        maxDepth := max s.measures.maxDepth s.path.depth } }) h task d
  | up =>
    simp only [Climbs, hturn]
    rw [goUp]
    split
    · rename_i hlast
      refine .pure fun d hd => ?_
      rw [hlast] at hd
      cases hd
    · rename_i d hlast
      refine .bind (.question _) fun n hn => ?_
      obtain ⟨m, hpop, hn⟩ := bind_eq_ok.mp hn
      cases hn
      have hpopped := Lifts.popWorld hpop
      have hd : ∀ {n}, (if d.hasNext then Lifts 1 1 s.network n else Lifts 1 0 s.network n) →
          ∀ e, s.path.last? = some e → if e.hasNext then Lifts 1 1 s.network n else Lifts 1 0 s.network n := by
        intro n hn e he
        cases hlast.symm.trans he
        exact hn
      dsimp only
      split
      · rename_i hnext
        refine .skip fun _ before s' after hs' => hd ?_
        rw [if_pos hnext]
        exact hpopped.trans (enter_lifts (s := { s with
          network := { s.network with model := m }
          measures := { s.measures with backtracks := s.measures.backtracks + 1 } }) (h.withModel m) task d before s' after hs')
      · rename_i hnext
        exact .pure (hd (by rw [if_neg hnext]; exact hpopped))

end SearchState

end FiniteDomain
