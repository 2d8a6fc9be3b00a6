import FiniteDomain.Proofs.Search.Tether

/-!
# What a search leaves behind

A run goes from turn to turn as the invariant says, closes the worlds that are open at its end, and removes the
nogoods that it recorded. What is left of it are cells that nothing uses and posts that were removed.

* `SearchState.Reaches`: the states of a run, and `Reaches.stays`;
* `SearchState.run_returns`, `SearchState.run_sheltered`: the end of a run.
-/

namespace FiniteDomain

open Activity Sheltered

namespace Observer

variable {μ α : Type} {o : Observer μ} {m m' : μ} {a : Activity α}

theorem of_attend_ok {x : α} (h : o.attend m a = (.ok x, m')) : ∃ notices, a #[] = .ok x notices := by
  rw [attend, EStateM.run] at h
  cases ha : a #[] with
  | ok y notices =>
    rw [ha] at h
    cases h
    exact ⟨notices, rfl⟩
  | error fault notices =>
    rw [ha] at h
    cases h

theorem of_attend_error {fault : Fault} (h : o.attend m a = (.error fault, m')) :
    ∃ notices, a #[] = .error fault notices := by
  rw [attend, EStateM.run] at h
  cases ha : a #[] with
  | ok y notices =>
    rw [ha] at h
    cases h
  | error fault notices =>
    rw [ha] at h
    cases h
    exact ⟨notices, rfl⟩

end Observer

/-- What is left of a search that began with the first network. -/
structure Network.Returns (n₀ n : Network) : Prop where
  lawful : n.Lawful
  model : ∃ values, n.model = { n₀.model with store := n₀.model.store.grow values, events := #[] }
  roll : ∀ i < n₀.posts.size, n.roll[i]? = n₀.roll[i]?
  removed : ∀ i e, n₀.posts.size ≤ i → n.roll[i]? = some e → e.removed = true
  housed : ∀ e ∈ n.roll, e.active < n.model.store.slots.size
  calm : n.failed = false
  rests : ∀ p ∈ n.posts, Network.Rests p
  learns : Network.Learns n₀ n

namespace SearchState

variable {σ μ : Type} {n₀ : Network} {task : SearchTask} {strategy : Strategy σ} {o : Observer μ}

/-! ### Turns -/

/-- The run comes from one state to the other, with those of the observer. -/
inductive Reaches (task : SearchTask) (strategy : Strategy σ) (o : Observer μ) :
    SearchState σ → μ → SearchState σ → μ → Prop
  | refl (s : SearchState σ) (m : μ) : Reaches task strategy o s m s m
  | turn {s s' s'' : SearchState σ} {m m' m'' : μ} (hturn : s.turn ≠ .stop)
      (hstep : o.attend m (s.step task strategy (o.signals m)) = (.ok s', m'))
      (hrest : Reaches task strategy o s' m' s'' m'') : Reaches task strategy o s m s'' m''

/-- **The invariant holds throughout a run.** -/
theorem Reaches.stays {s s' : SearchState σ} {m m' : μ} (hr : Reaches task strategy o s m s' m')
    (hs : strategy.Lawful) (h : Stays n₀ s) : Stays n₀ s' := by
  let := Tolerance.worldly
  induction hr with
  | refl => exact h
  | turn _ hstep _ ih =>
    obtain ⟨notices, hstep⟩ := Observer.of_attend_ok hstep
    exact ih ((step_gives h task hs _).yields _ _ _ hstep)

theorem turns_of_stop {s : SearchState σ} (hstop : s.turn = .stop) (m : μ) (fuel : Nat) :
    turns task strategy o s m fuel = (.ok s, m) := by
  cases fuel <;> rw [turns, if_pos hstop]

/-- The first of several turns. -/
theorem turns_eq_ok {s s' : SearchState σ} (hturn : s.turn ≠ .stop) {m m' : μ} {fuel : Nat} :
    turns task strategy o s m fuel = (.ok s', m') ↔ ∃ rest s'' m'', fuel = rest + 1 ∧
      o.attend m (s.step task strategy (o.signals m)) = (.ok s'', m'') ∧
      turns task strategy o s'' m'' rest = (.ok s', m') := by
  constructor
  · intro h
    cases fuel with
    | zero =>
      rw [turns, if_neg hturn] at h
      cases h
    | succ rest =>
      rw [turns, if_neg hturn] at h
      split at h
      · rename_i s'' m'' hstep
        exact ⟨rest, s'', m'', rfl, hstep, h⟩
      · cases h
  · rintro ⟨rest, s'', m'', rfl, hstep, hrest⟩
    rw [turns, if_neg hturn, hstep]
    exact hrest

/-- The parts of a run. -/
theorem run_eq_ok {b : σ} {m m' : μ} {fuel : Nat} {r : SearchResult × Network × σ} :
    run task strategy o fuel n₀ b m = (.ok r, m') ↔ ∃ m1 s m2,
      o.attend m ((begin n₀ b).announce task) = (.ok (), m1) ∧
      turns task strategy o (begin n₀ b) m1 fuel = (.ok s, m2) ∧
      o.attend m2 (conclude task (.ofNetwork n₀) (o.signals m2).elapsedMs s) = (.ok r, m') := by
  rw [run]
  constructor
  · intro h
    split at h
    · cases h
    · rename_i m1 hannounce
      split at h
      · cases h
      · rename_i s m2 hturns
        exact ⟨m1, s, m2, hannounce, hturns, h⟩
  · rintro ⟨m1, s, m2, hannounce, hturns, hconclude⟩
    rw [hannounce]
    dsimp only
    rw [hturns]
    exact hconclude

/-- A run is at a stop when its turns are over. -/
theorem turns_ok {s s' : SearchState σ} {m m' : μ} {fuel : Nat}
    (h : turns task strategy o s m fuel = (.ok s', m')) : Reaches task strategy o s m s' m' ∧ s'.turn = .stop := by
  induction fuel generalizing s m with
  | zero =>
    rw [turns] at h
    split at h
    · rename_i hturn
      cases h
      exact ⟨.refl _ _, hturn⟩
    · cases h
  | succ fuel ih =>
    rw [turns] at h
    split at h
    · rename_i hturn
      cases h
      exact ⟨.refl _ _, hturn⟩
    · rename_i hturn
      split at h
      · rename_i hstep
        obtain ⟨hrest, hstop⟩ := ih h
        exact ⟨.turn hturn hstep hrest, hstop⟩
      · cases h

/-- Its turns run out, or one of them faults. -/
theorem turns_error {s : SearchState σ} {m m' : μ} {fuel : Nat} {fault : Fault}
    (h : turns task strategy o s m fuel = (.error fault, m')) : fault = .outOfFuel ∨ ∃ s' m'' notices,
      Reaches task strategy o s m s' m'' ∧ s'.step task strategy (o.signals m'') #[] = .error fault notices := by
  induction fuel generalizing s m with
  | zero =>
    rw [turns] at h
    split at h <;> cases h
    exact .inl rfl
  | succ fuel ih =>
    rw [turns] at h
    split at h
    · cases h
    · rename_i hturn
      split at h
      · rename_i hstep
        refine (ih h).imp_right ?_
        rintro ⟨s', m'', notices, hrest, hfault⟩
        exact ⟨s', m'', notices, .turn hturn hstep hrest, hfault⟩
      · rename_i hstep
        cases h
        obtain ⟨notices, hfault⟩ := Observer.of_attend_error hstep
        exact .inr ⟨s, m, notices, .refl s m, hfault⟩

/-! ### The end -/

theorem rests_unpostAll {n : Network} (hrests : ∀ p ∈ n.posts, Network.Rests p) (ids : List PropId) :
    (unpostAll n ids).Yields fun n' => ∀ p ∈ n'.posts, Network.Rests p := by
  induction ids generalizing n with
  | nil => exact .pure hrests
  | cons id rest ih => exact .bind (Network.rests_unpost id) fun _ h => ih (h.2 hrests)

/-- Some posts are removed and nothing else changes. -/
theorem unpostAll_gives {n : Network} (h : n.Lawful) (ids : List PropId) :
    @Gives _ .worldly (unpostAll n ids) fun n' => n'.Lawful ∧ n'.model = n.model ∧ n'.failed = n.failed ∧
      ∀ i, n'.roll[i]? = if ⟨i⟩ ∈ ids then n.roll[i]?.map (fun e => { e with removed := true }) else n.roll[i]? := by
  let := Tolerance.worldly
  induction ids generalizing n with
  | nil => exact .pure ⟨h, rfl, rfl, fun i => by simp⟩
  | cons id rest ih =>
    refine .bind (h.unpost id) ?_
    rintro n' ⟨hl, hroll, hmodel, hfailed⟩
    refine (ih hl).mono ?_
    rintro n'' ⟨hl', hmodel', hfailed', hroll'⟩
    refine ⟨hl', hmodel'.trans hmodel, hfailed'.trans hfailed, fun i => ?_⟩
    rw [hroll', hroll, Array.getElem?_modify]
    have hid : id.index = i ↔ (⟨i⟩ : PropId) = id := ⟨fun h => by rw [← h], fun h => by rw [← h]⟩
    by_cases hi : (⟨i⟩ : PropId) = id
    · simp [hi, hid.mpr hi, Function.comp_def]
    · have hne : id.index ≠ i := fun heq => hi (hid.mp heq)
      simp [hi, hne]

theorem conclude_gives {s : SearchState σ} (h : AtNode n₀ s) (elapsedMs : Nat) :
    @Gives _ .worldly (conclude task (.ofNetwork n₀) elapsedMs s) fun r => n₀.Returns r.2.1 := by
  let := Tolerance.worldly
  obtain ⟨t, ht, hback⟩ := h.tethered.flush.popUntil (Nat.zero_le _)
  refine .bind (.question (.of_exists ⟨_, ht, rfl⟩)) ?_
  rintro _ rfl
  have hrests := rests_unpostAll (n := { s.network.flush with model := { s.network.flush.model with store := t } })
    (Network.rests_flush h.tethered.lawful.coherent) s.recorded.toList
  refine .bind ((unpostAll_gives hback.lawful _).and hrests) ?_
  rintro n ⟨⟨hl, hmodel, hfailed, hroll⟩, hrests⟩
  have hfrom : ∀ e ∈ n.roll, ∃ d ∈ Network.roll { s.network.flush with model := { s.network.flush.model with store := t } },
      e.active = d.active ∧ e.propagator = d.propagator := by
    intro e he
    obtain ⟨i, hi⟩ := Array.getElem?_of_mem he
    rw [hroll] at hi
    split at hi
    · obtain ⟨d, hd, rfl⟩ := Option.map_eq_some_iff.mp hi
      exact ⟨d, Array.mem_of_getElem? hd, rfl, rfl⟩
    · exact ⟨e, Array.mem_of_getElem? hi, rfl, rfl⟩
  refine .bind (.report _) fun _ _ => .bind (.report _) fun _ _ => .pure ⟨hl, ?_, fun i hi => ?_, ?_, ?_, ?_, hrests, ?_⟩
  · obtain ⟨values, hvalues⟩ := hback.store.returns
    cases hvalues
    refine ⟨values, ?_⟩
    rw [hmodel, hback.frame]
    rfl
  · rw [hroll, if_neg, hback.roll i hi]
    exact fun hmem => Nat.not_le_of_lt hi (hback.fresh ⟨i⟩ (Array.mem_toList_iff.mp hmem))
  · intro i e hi he
    have hlt : i < n.roll.size := (Array.getElem?_eq_some_iff.mp he).1
    rw [hroll] at he
    split at he
    · obtain ⟨-, -, rfl⟩ := Option.map_eq_some_iff.mp he
      rfl
    · rename_i hmem
      exact absurd (Array.mem_toList_iff.mpr (hback.entered i hi (Network.lt_of_roll he))) hmem
  · intro e he
    obtain ⟨d, hd, hactive, -⟩ := hfrom e he
    rw [hmodel, hactive]
    exact hback.housed d hd
  · rw [hfailed]
    rfl
  · intro e he
    obtain ⟨d, hd, -, hpropagator⟩ := hfrom e he
    rw [hpropagator]
    exact hback.learns d hd

/-! ### Runs -/

/-- A search can begin with any network of lawful propagators. -/
theorem stays_begin (hl : n₀.Lawful) (hlinked : n₀.model.store.Linked)
    (hhoused : ∀ e ∈ n₀.roll, e.active < n₀.model.store.slots.size) (b : σ) : Stays n₀ (begin n₀ b) :=
  ⟨⟨hl, rfl, .refl hlinked, fun _ _ => rfl, fun _ hi hlt => absurd hlt (Nat.not_lt_of_le hi), nofun, hhoused,
    fun e he => .inl ⟨e, he, rfl⟩⟩, nofun, fun _ => rfl⟩

/-- A state of a search that is over. -/
theorem Reaches.atNode_of_stop {s s' : SearchState σ} {m m' : μ} (hr : Reaches task strategy o s m s' m')
    (hs : strategy.Lawful) (h : Stays n₀ s) (hstop : s'.turn = .stop) : AtNode n₀ s' :=
  (hr.stays hs h).atNode (by rw [hstop]; simp) (by rw [hstop]; simp)

theorem run_returns {b b' : σ} {m m' : μ} {fuel : Nat} {result : SearchResult} {n : Network} (hs : strategy.Lawful)
    (h : Stays n₀ (begin n₀ b)) (hrun : run task strategy o fuel n₀ b m = (.ok (result, n, b'), m')) :
    n₀.Returns n := by
  let := Tolerance.worldly
  obtain ⟨_, s, _, -, hturns, hend⟩ := run_eq_ok.mp hrun
  obtain ⟨hreaches, hstop⟩ := turns_ok hturns
  obtain ⟨notices, hend⟩ := Observer.of_attend_ok hend
  exact (conclude_gives (hreaches.atNode_of_stop hs h hstop) _).yields _ _ _ hend

/-- **No operation on worlds faults in a run.** -/
theorem run_sheltered {b : σ} {m : μ} {fuel : Nat} (hs : strategy.Lawful) (h : Stays n₀ (begin n₀ b)) :
    Sheltered (run task strategy o fuel n₀ b m).1 := by
  let := Tolerance.worldly
  refine ⟨fun _ _ => True.intro, fun fault hfault => ?_⟩
  rw [run] at hfault
  split at hfault
  · rename_i hbegin
    cases hfault
    obtain ⟨notices, hbegin⟩ := Observer.of_attend_error hbegin
    cases hbegin
  · split at hfault
    · rename_i hturns
      cases hfault
      rcases turns_error hturns with rfl | ⟨s, m', notices, hreaches, hstep⟩
      · nofun
      · exact (step_gives (hreaches.stays hs h) task hs _).tolerated hstep
    · rename_i hturns
      obtain ⟨hreaches, hstop⟩ := turns_ok hturns
      have hend : ∀ (a : Activity (SearchResult × Network × σ)) m, (o.attend m a).1 = .error fault →
          ∃ notices, a #[] = .error fault notices := fun a m ha => Observer.of_attend_error (Prod.ext ha rfl)
      obtain ⟨notices, hend⟩ := hend _ _ hfault
      exact (conclude_gives (hreaches.atNode_of_stop hs h hstop) _).tolerated hend

end SearchState

end FiniteDomain
