import FiniteDomain.Proofs.Domain.Creation
import FiniteDomain.Proofs.Domain.Mutation

/-!
# The life of a domain

A domain is made in some world. While that world stays open, or is merged into its parent, the domain is
well-formed. Once it is popped, an interval is as it was made, and an enumerated domain has no value left: its
words were written after its cells had been made, so they are rolled back.

* `Birth`, `Lives`: what is kept of the creation of a domain, and what holds of it from then on;
* `lives_bounded`, `lives_enumerated`: it holds of a new domain;
* `Lives.parallel`, `Lives.own`, `Lives.push`, `Lives.pop`, `Lives.commit`: it is preserved.
-/

namespace FiniteDomain

/-- The world a domain belongs to, the values it was made with, and whether that world is the one of its creation
or one into which that was merged, rather than one below. -/
structure Birth where
  world : Nat
  values : Int → Prop
  kept : Bool

namespace Birth

/-- After a pop to a world. -/
def popped (b : Birth) (world : Nat) : Birth := if world < b.world then ⟨world, b.values, false⟩ else b

/-- After a commit to a world. -/
def merged (b : Birth) (world : Nat) : Birth := { b with world := min b.world world }

theorem popped_popped (b : Birth) {v w : Nat} (h : w ≤ v) : (b.popped v).popped w = b.popped w := by
  simp only [popped]
  split
  · rename_i hv
    simp only
    split
    · rw [if_pos (by omega)]
    · rw [if_pos (by omega), show w = v by omega]
  · rfl

end Birth

namespace Domain

/-- What holds of a domain in the current world and in all worlds below. -/
structure Lives (b : Birth) (d : Domain) (s : Store Datum) : Prop where
  born : b.world ≤ s.world
  sound : ∀ n t, s.popMany n = .ok t → d.members = none ∨ b.kept = true ∧ b.world ≤ t.world → d.WellFormed t
  before : ∀ n t, s.popMany n = .ok t → t.world < b.world → ∀ v, d.Has t v ↔ d.members = none ∧ b.values v

variable {b : Birth} {d : Domain} {s t u : Store Datum}

/-! ### Steps that spare the domain -/

/-- In every world the domain reads the same. -/
structure Parallel (d : Domain) (s t : Store Datum) : Prop where
  world : t.world = s.world
  same : ∀ n t', t.popMany n = .ok t' → ∃ s', s.popMany n = .ok s' ∧ t'.world = s'.world ∧
    s'.slots.size ≤ t'.slots.size ∧ ∀ c, d.Owns c → t'.get? c = s'.get? c

namespace Parallel

theorem trans (h1 : Parallel d s t) (h2 : Parallel d t u) : Parallel d s u := by
  refine ⟨h2.world.trans h1.world, fun n u' hu => ?_⟩
  obtain ⟨t', ht, hw, hsize, hget⟩ := h2.same n u' hu
  obtain ⟨s', hs, hw', hsize', hget'⟩ := h1.same n t' ht
  exact ⟨s', hs, hw.trans hw', Nat.le_trans hsize' hsize, fun c hc => (hget c hc).trans (hget' c hc)⟩

theorem grow (hs : s.Linked) (hd : ∀ c, d.Owns c → c < s.slots.size) (values : List Datum) :
    Parallel d s (s.grow values) := by
  refine ⟨Store.world_grow _ _, fun n t' ht => ?_⟩
  rw [hs.popMany_grow] at ht
  obtain ⟨s', hs', rfl⟩ := map_eq_ok.mp ht
  obtain ⟨-, -, hsize⟩ := hs.popMany_spec hs'
  refine ⟨s', hs', Store.world_grow _ _, by rw [Store.size_slots_grow]; omega, fun c hc => ?_⟩
  exact Store.get?_grow_of_lt (hsize ▸ hd c hc) values

theorem writes {P : Nat → Prop} (hs : s.Linked) (hw : Store.Writes P s t) (hd : ∀ c, d.Owns c → ¬P c) :
    Parallel d s t := by
  refine ⟨hw.world_eq, fun n t' ht => ?_⟩
  cases n with
  | zero =>
    cases ht
    exact ⟨s, rfl, hw.world_eq, Nat.le_of_eq hw.size_eq.symm, fun c hc => hw.get?_eq (hd c hc)⟩
  | succ n => exact ⟨t', (hw.popMany_succ hs ht), rfl, Nat.le_refl _, fun _ _ => rfl⟩

end Parallel

theorem Lives.parallel (h : Lives b d s) (hst : Parallel d s t) : Lives b d t := by
  refine ⟨hst.world ▸ h.born, fun n t' ht hb => ?_, fun n t' ht hb v => ?_⟩
  · obtain ⟨s', hs, hw, hsize, hget⟩ := hst.same n t' ht
    exact (h.sound n s' hs (hw ▸ hb)).congr hget hsize
  · obtain ⟨s', hs, hw, -, hget⟩ := hst.same n t' ht
    exact (has_congr hget v).trans (h.before n s' hs (hw ▸ hb) v)

/-! ### Steps of the domain -/

/-- A change of the domain itself. -/
theorem Lives.own (h : Lives b d s) (hs : s.Linked) (hw : Store.Writes d.Owns s t)
    (hd : d.members = none ∨ b.kept = true → d.WellFormed t) : Lives b d t := by
  refine ⟨hw.world_eq ▸ h.born, fun n t' ht hb => ?_, fun n t' ht hb => ?_⟩
  · cases n with
    | zero =>
      cases ht
      exact hd (hb.imp_right And.left)
    | succ n => exact h.sound (n + 1) t' (hw.popMany_succ hs ht) hb
  · cases n with
    | zero =>
      cases ht
      exact absurd (hw.world_eq ▸ hb) (Nat.not_lt_of_le h.born)
    | succ n => exact h.before (n + 1) t' (hw.popMany_succ hs ht) hb

/-! ### Worlds -/

theorem Lives.push (h : Lives b d s) (hs : s.Linked) : Lives b d s.push := by
  have hborn := h.born
  refine ⟨by rw [Store.world_push]; omega, fun n t ht hb => ?_, fun n t ht hb => ?_⟩
  · cases n with
    | zero =>
      cases ht
      exact (h.sound 0 s rfl (hb.imp_right fun hk => ⟨hk.1, hborn⟩)).congr (fun _ _ => rfl) (Nat.le_refl _)
    | succ n =>
      rw [Store.popMany_succ, hs.pop_push, ok_bind] at ht
      exact h.sound n t ht hb
  · cases n with
    | zero =>
      cases ht
      rw [Store.world_push] at hb
      omega
    | succ n =>
      rw [Store.popMany_succ, hs.pop_push, ok_bind] at ht
      exact h.before n t ht hb

theorem Lives.pop (h : Lives b d s) (hp : s.pop = .ok t) : Lives (b.popped t.world) d t := by
  have hbelow : ∀ n u, t.popMany n = .ok u → s.popMany (n + 1) = .ok u := by
    intro n u hu
    rw [Store.popMany_succ, hp, ok_bind, hu]
  rw [Birth.popped]
  split
  · rename_i hlt
    refine ⟨Nat.le_refl _, fun n u hu hb => ?_, fun n u hu hb => ?_⟩
    · refine h.sound (n + 1) u (hbelow n u hu) (hb.imp_right fun hk => ?_)
      cases hk.1
    · exact h.before (n + 1) u (hbelow n u hu) (Nat.lt_trans hb hlt)
  · rename_i hle
    exact ⟨Nat.le_of_not_lt hle, fun n u hu => h.sound (n + 1) u (hbelow n u hu),
      fun n u hu => h.before (n + 1) u (hbelow n u hu)⟩

theorem Lives.popMany (h : Lives b d s) (hs : s.Linked) {n : Nat} (hp : s.popMany n = .ok t) :
    Lives (b.popped t.world) d t := by
  induction n generalizing b s with
  | zero =>
    cases hp
    rwa [Birth.popped, if_neg (Nat.not_lt_of_le h.born)]
  | succ n ih =>
    rw [Store.popMany_succ] at hp
    obtain ⟨u, hu, hp⟩ := bind_eq_ok.mp hp
    obtain ⟨-, hworld, -⟩ := (hs.of_pop hu).popMany_spec hp
    have hlives := ih (h.pop hu) (hs.of_pop hu) hp
    rwa [Birth.popped_popped b (by omega)] at hlives

theorem Lives.commit (h : Lives b d s) (hs : s.Linked) (hc : s.commit = .ok t) : Lives (b.merged t.world) d t := by
  have hborn := h.born
  obtain ⟨t', ht', hl, hworld, -⟩ := hs.exists_commit (Store.world_pos_of_commit hc)
  cases hc.symm.trans ht'
  have hbelow : ∀ n u, t.popMany (n + 1) = .ok u → s.popMany (n + 2) = .ok u ∧ u.world < t.world := by
    intro n u hu
    obtain ⟨-, hw, -⟩ := hl.popMany_spec hu
    rw [Store.popMany_succ, hs.pop_commit (by omega) hc] at hu
    exact ⟨by simpa only [Store.popMany_succ, bind_assoc] using hu, by omega⟩
  simp only [Birth.merged]
  refine ⟨Nat.min_le_right _ _, fun n u hu hb => ?_, fun n u hu hb => ?_⟩
  · cases n with
    | zero =>
      cases hu
      exact (h.sound 0 s rfl (hb.imp_right fun hk => ⟨hk.1, hborn⟩)).congr (fun c _ => Store.get?_commit hc c)
        (Nat.le_of_eq (Store.size_slots_commit hc).symm)
    | succ n =>
      obtain ⟨hu, hlt⟩ := hbelow n u hu
      refine h.sound (n + 2) u hu (hb.imp_right fun hk => ⟨hk.1, ?_⟩)
      have := hk.2
      simp only at this
      omega
  · cases n with
    | zero =>
      cases hu
      simp only at hb
      omega
    | succ n =>
      simp only at hb
      exact h.before (n + 2) u (hbelow n u hu).1 (by omega)

/-! ### New domains -/

theorem lives_bounded (hs : s.Linked) {lb ub : Int} (hle : lb ≤ ub) (hlb : Value.Fits lb) (hub : Value.Fits ub) :
    Lives ⟨s.world, fun v => lb ≤ v ∧ v ≤ ub, true⟩ (bounded s lb ub).1 (bounded s lb ub).2 := by
  have hbelow : ∀ n t, (bounded s lb ub).2.popMany n = .ok t →
      (bounded s lb ub).1.WellFormed t ∧ ∀ v, (bounded s lb ub).1.Has t v ↔ lb ≤ v ∧ v ≤ ub := by
    intro n t ht
    rw [bounded_eq] at ht ⊢
    rw [hs.popMany_grow] at ht
    obtain ⟨u, hu, rfl⟩ := map_eq_ok.mp ht
    have hspec := bounded_spec u hle hlb hub
    rwa [bounded_eq, (hs.popMany_spec hu).2.2] at hspec
  have hworld : (bounded s lb ub).2.world = s.world := by
    rw [bounded_eq, Store.world_grow]
  refine ⟨Nat.le_of_eq hworld.symm, fun n t ht _ => (hbelow n t ht).1, fun n t ht _ v => ?_⟩
  · rw [(hbelow n t ht).2 v, bounded_eq]
    simp only [true_and]

theorem lives_enumerated (hs : s.Linked) {values : Array Int} (h : Increasing values)
    (hcount : (values.size : Int) ≤ Value.greatest) :
    Lives ⟨s.world, (· ∈ values), true⟩ (enumerated s values).1 (enumerated s values).2 := by
  have hmembers : (enumerated s values).1.members ≠ none := by
    rw [enumerated_fst]
    exact Option.some_ne_none _
  have hbelow : ∀ n t, (enumerated s values).2.popMany (n + 1) = .ok t →
      t.world < s.world ∧ ∀ v, ¬(enumerated s values).1.Has t v := by
    intro n t ht
    obtain ⟨u, hu, rfl⟩ := enumerated_popMany hs values ht
    obtain ⟨-, hworld, hsize⟩ := hs.popMany_spec hu
    exact ⟨by rw [Store.world_grow]; omega, not_has_blank h s u hsize⟩
  have hworld : (enumerated s values).2.world = s.world := by
    rw [enumerated_snd, Store.world_grow, (writeWords_writes _ _ _).world_eq, Store.world_grow]
  refine ⟨Nat.le_of_eq hworld.symm, fun n t ht hb => ?_, fun n t ht hb v => ?_⟩
  · obtain ⟨-, hle⟩ := hb.resolve_left hmembers
    cases n with
    | zero =>
      cases ht
      exact (enumerated_spec s h hcount).1
    | succ n => exact absurd (hbelow n t ht).1 (Nat.not_lt_of_le hle)
  · cases n with
    | zero =>
      cases ht
      exact absurd (hworld ▸ hb) (Nat.lt_irrefl _)
    | succ n => exact ⟨fun hv => absurd hv ((hbelow n t ht).2 v), fun hv => absurd hv.1 hmembers⟩

/-- A new domain made of some values, as its own life and those of the others see it. -/
structure Made (s : Store Datum) (values : Int → Prop) (d : Domain) (t : Store Datum) : Prop where
  fresh : d.Fresh s t
  lives : Lives ⟨s.world, values, true⟩ d t
  spares : ∀ e : Domain, (∀ c, e.Owns c → c < s.slots.size) → Parallel e s t

theorem made_bounded (hs : s.Linked) {lb ub : Int} (hle : lb ≤ ub) (hlb : Value.Fits lb) (hub : Value.Fits ub) :
    Made s (fun v => lb ≤ v ∧ v ≤ ub) (bounded s lb ub).1 (bounded s lb ub).2 := by
  refine ⟨bounded_fresh s lb ub, lives_bounded hs hle hlb hub, fun e he => ?_⟩
  rw [bounded_eq]
  exact .grow hs he _

theorem made_enumerated (hs : s.Linked) {values : Array Int} (h : Increasing values)
    (hcount : (values.size : Int) ≤ Value.greatest) :
    Made s (· ∈ values) (enumerated s values).1 (enumerated s values).2 := by
  refine ⟨enumerated_fresh s values, lives_enumerated hs h hcount, fun e he => ?_⟩
  have hblank := hs.grow (List.replicate (wordCount values) (.word 0))
  have hwrites := writeWords_writes (s.grow (List.replicate (wordCount values) (.word 0))) s.slots.size
    (wordsOf (.ofSorted values) values).toList
  have hhoused : ∀ c, e.Owns c → c < (s.grow (List.replicate (wordCount values) (.word 0))).slots.size := by
    intro c hc
    rw [Store.size_slots_grow]
    exact Nat.lt_of_lt_of_le (he c hc) (Nat.le_add_right _ _)
  rw [enumerated_snd]
  refine ((Parallel.grow hs he _).trans (.writes hblank hwrites fun c hc => Nat.not_le_of_lt (he c hc))).trans
    (.grow (hwrites.linked hblank) ?_ _)
  rwa [hwrites.size_eq]

end Domain

end FiniteDomain
