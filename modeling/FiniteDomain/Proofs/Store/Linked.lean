import FiniteDomain.Proofs.Faulting
import FiniteDomain.Proofs.Store.Layers

/-!
# Going back in a linked store

A store is *linked* if the stamps lead through its layers: a cell whose stamp is the world `w` has one record
in the layer of `w`, the stamp saved there leads on below, and the last record saved stamp zero. All operations
keep this, and from it follow the laws of going back:

* `Linked.pop_push`, `Linked.pop_set`: a pop undoes what was written since the push;
* `Linked.pop_grow`: new cells survive a pop with what they were made with;
* `Linked.pop_commit`: a pop after a commit is two pops.
-/

namespace FiniteDomain

namespace Store

variable {α : Type}

/-! ### Linked stores -/

/-- The stamp of a cell leads through its records, from the innermost layer down. -/
inductive Traced (cell : Nat) : Nat → List (Layer α) → Prop
  | fresh : Traced cell 0 []
  | untouched {stamp : Nat} {layer : Layer α} {rest : List (Layer α)} :
      recordsOf cell layer = [] → Traced cell stamp rest → Traced cell stamp (layer :: rest)
  | recorded {r : Record α} {layer : Layer α} {rest : List (Layer α)} :
      recordsOf cell layer = [r] → Traced cell r.stamp rest → Traced cell (rest.length + 1) (layer :: rest)

theorem Traced.le_length {cell stamp : Nat} {layers : List (Layer α)} (h : Traced cell stamp layers) :
    stamp ≤ layers.length := by
  induction h with
  | fresh => exact Nat.le_refl 0
  | untouched _ _ ih => exact Nat.le_succ_of_le ih
  | recorded _ _ _ => exact Nat.le_refl _

/-- A cell that was not recorded in the innermost layer bears an older stamp. -/
theorem Traced.lt_of_untouched {cell stamp : Nat} {layer : Layer α} {rest : List (Layer α)}
    (h : Traced cell stamp (layer :: rest)) (hl : recordsOf cell layer = []) :
    stamp < rest.length + 1 ∧ Traced cell stamp rest := by
  cases h with
  | untouched _ h => exact ⟨Nat.lt_succ_of_le h.le_length, h⟩
  | recorded hr _ => rw [hl] at hr; cases hr

theorem Traced.of_recorded {cell stamp : Nat} {layer : Layer α} {rest : List (Layer α)}
    (h : Traced cell stamp (layer :: rest)) (hl : recordsOf cell layer ≠ []) :
    ∃ r, recordsOf cell layer = [r] ∧ stamp = rest.length + 1 ∧ Traced cell r.stamp rest := by
  cases h with
  | untouched hn _ => exact absurd hn hl
  | recorded hr h => exact ⟨_, hr, rfl, h⟩

theorem traced_zero {cell : Nat} {layers : List (Layer α)} (h : ∀ layer ∈ layers, recordsOf cell layer = []) :
    Traced cell 0 layers := by
  induction layers with
  | nil => exact .fresh
  | cons layer rest ih =>
    exact .untouched (h layer List.mem_cons_self) (ih fun l hl => h l (List.mem_cons_of_mem layer hl))

/-- The layers of a store account for its stamps. -/
structure LinkedBy (s : Store α) (layers : List (Layer α)) : Prop where
  eq_ofLayers : s = ofLayers s.slots layers
  cell_lt : ∀ layer ∈ layers, ∀ r ∈ layer, r.cell < s.slots.size
  traced : ∀ cell slot, s.slots[cell]? = some slot → Traced cell slot.stamp layers

/-- The stamps of a store lead through its trail. -/
def Linked (s : Store α) : Prop := ∃ layers, s.LinkedBy layers

theorem LinkedBy.world_eq {s : Store α} {layers : List (Layer α)} (h : s.LinkedBy layers) :
    s.world = layers.length := by
  rw [h.eq_ofLayers, world_ofLayers]

theorem linked_empty : (({} : Store α)).Linked :=
  ⟨[], rfl, by simp, fun cell slot h => by simp at h⟩

/-! ### Worlds -/

theorem LinkedBy.push {s : Store α} {layers : List (Layer α)} (h : s.LinkedBy layers) :
    s.push.LinkedBy ([] :: layers) := by
  have heq : s.push = ofLayers s.slots ([] :: layers) := by
    rw [h.eq_ofLayers, push_ofLayers]
    rfl
  have hslots : s.push.slots = s.slots := by rw [heq]; rfl
  refine ⟨by rw [hslots, heq], ?_, ?_⟩
  · intro layer hl r hr
    rw [hslots]
    rcases List.mem_cons.mp hl with rfl | hl
    · exact absurd hr List.not_mem_nil
    · exact h.cell_lt layer hl r hr
  · intro cell slot hs
    rw [hslots] at hs
    exact .untouched rfl (h.traced cell slot hs)

theorem Linked.push {s : Store α} (h : s.Linked) : s.push.Linked := by
  obtain ⟨layers, h⟩ := h
  exact ⟨_, h.push⟩

@[simp] theorem world_push (s : Store α) : s.push.world = s.world + 1 := by
  obtain ⟨slots, trail, starts⟩ := s
  simp [push, world]

@[simp] theorem slots_push (s : Store α) : s.push.slots = s.slots := rfl

/-- **Popping right after a push changes nothing.** -/
theorem Linked.pop_push {s : Store α} (h : s.Linked) : s.push.pop = .ok s := by
  obtain ⟨layers, h⟩ := h
  rw [h.eq_ofLayers]
  exact pop_ofLayers_push s.slots layers

theorem LinkedBy.pop {s : Store α} {layer : Layer α} {rest : List (Layer α)}
    (h : s.LinkedBy (layer :: rest)) :
    s.pop = .ok (ofLayers (restored s.slots layer) rest) ∧
      (ofLayers (restored s.slots layer) rest).LinkedBy rest := by
  refine ⟨?_, rfl, ?_, ?_⟩
  · exact (congrArg Store.pop h.eq_ofLayers).trans (pop_ofLayers s.slots layer rest)
  · intro l hl r hr
    simpa [ofLayers] using h.cell_lt l (List.mem_cons_of_mem layer hl) r hr
  · intro cell slot hs
    have hs : (restored s.slots layer)[cell]? = some slot := hs
    cases hslot : s.slots[cell]? with
    | none =>
      rw [Array.getElem?_eq_none_iff] at hslot
      rw [Array.getElem?_eq_none (by simpa using hslot)] at hs
      cases hs
    | some old =>
      have ht := h.traced cell old hslot
      by_cases hl : recordsOf cell layer = []
      · rw [getElem?_restored_of_nil hl, hslot] at hs
        obtain rfl := Option.some.inj hs
        exact (ht.lt_of_untouched hl).2
      · obtain ⟨r, hr, -, ht⟩ := ht.of_recorded hl
        rw [getElem?_restored_of_singleton hr, hslot] at hs
        obtain rfl := Option.some.inj hs
        exact ht

/-- A store above the initial world can be popped. -/
theorem Linked.exists_pop {s : Store α} (h : s.Linked) (hw : 0 < s.world) :
    ∃ t, s.pop = .ok t ∧ t.Linked ∧ t.world + 1 = s.world ∧ t.slots.size = s.slots.size := by
  obtain ⟨layers, h⟩ := h
  have hlen := h.world_eq
  cases layers with
  | nil => rw [List.length_nil] at hlen; omega
  | cons layer rest =>
    obtain ⟨hpop, hlinked⟩ := h.pop
    refine ⟨_, hpop, ⟨rest, hlinked⟩, ?_, ?_⟩
    · rw [world_ofLayers, hlen, List.length_cons]
    · simp [ofLayers]

theorem world_pos_of_pop {s t : Store α} (hp : s.pop = .ok t) : 0 < s.world := by
  rcases Nat.eq_zero_or_pos s.world with h0 | h0
  · obtain ⟨slots, trail, starts⟩ := s
    have hs : starts = #[] := Array.eq_empty_of_size_eq_zero h0
    subst hs
    simp [Store.pop] at hp
  · exact h0

theorem Linked.of_pop {s t : Store α} (h : s.Linked) (hp : s.pop = .ok t) : t.Linked := by
  obtain ⟨u, hu, hl, -⟩ := h.exists_pop (world_pos_of_pop hp)
  cases hp.symm.trans hu
  exact hl

theorem Linked.world_of_pop {s t : Store α} (h : s.Linked) (hp : s.pop = .ok t) : t.world + 1 = s.world := by
  obtain ⟨u, hu, -, hw, -⟩ := h.exists_pop (world_pos_of_pop hp)
  cases hp.symm.trans hu
  exact hw

theorem Linked.size_of_pop {s t : Store α} (h : s.Linked) (hp : s.pop = .ok t) : t.slots.size = s.slots.size := by
  obtain ⟨u, hu, -, -, hs⟩ := h.exists_pop (world_pos_of_pop hp)
  cases hp.symm.trans hu
  exact hs

/-! ### New cells -/

/-- A store with more cells that hold the given values. -/
def grow (s : Store α) (values : List α) : Store α :=
  { s with slots := s.slots ++ (values.map fun v => (⟨v, 0⟩ : Slot α)).toArray }

theorem make_eq_grow (s : Store α) (v : α) : s.make v = (s.slots.size, s.grow [v]) := by
  obtain ⟨slots, trail, starts⟩ := s
  simp [make, grow]

theorem makeMany_eq_grow (s : Store α) (n : Nat) (v : α) :
    s.makeMany n v = (s.slots.size, s.grow (List.replicate n v)) := by
  obtain ⟨slots, trail, starts⟩ := s
  simp [makeMany, grow]

@[simp] theorem grow_nil (s : Store α) : s.grow [] = s := by simp [grow]

theorem grow_grow (s : Store α) (a b : List α) : (s.grow a).grow b = s.grow (a ++ b) := by
  simp [grow, Array.append_assoc]

@[simp] theorem world_grow (s : Store α) (values : List α) : (s.grow values).world = s.world := rfl

@[simp] theorem size_slots_grow (s : Store α) (values : List α) :
    (s.grow values).slots.size = s.slots.size + values.length := by simp [grow]

theorem getElem?_slots_grow_of_lt {s : Store α} {cell : Nat} (h : cell < s.slots.size) (values : List α) :
    (s.grow values).slots[cell]? = s.slots[cell]? := by
  simp [grow, Array.getElem?_append_left h]

theorem LinkedBy.grow {s : Store α} {layers : List (Layer α)} (h : s.LinkedBy layers) (values : List α) :
    (s.grow values).LinkedBy layers := by
  refine ⟨?_, ?_, ?_⟩
  · exact congrArg (fun t => Store.grow t values) h.eq_ofLayers
  · intro layer hl r hr
    exact Nat.lt_of_lt_of_le (h.cell_lt layer hl r hr) (by simp)
  · intro cell slot hs
    by_cases hc : cell < s.slots.size
    · rw [getElem?_slots_grow_of_lt hc] at hs
      exact h.traced cell slot hs
    · simp only [Store.grow, Array.getElem?_append_right (Nat.le_of_not_lt hc), List.getElem?_toArray,
        List.getElem?_map, Option.map_eq_some_iff] at hs
      obtain ⟨v, -, rfl⟩ := hs
      refine traced_zero fun layer hl => ?_
      rw [recordsOf, List.filter_eq_nil_iff]
      intro r hr
      have := h.cell_lt layer hl r hr
      simp only [decide_eq_true_eq]
      omega

theorem Linked.grow {s : Store α} (h : s.Linked) (values : List α) : (s.grow values).Linked := by
  obtain ⟨layers, h⟩ := h
  exact ⟨layers, h.grow values⟩

/-- **New cells survive a pop** with what they were made with. -/
theorem Linked.pop_grow {s : Store α} (h : s.Linked) (values : List α) :
    (s.grow values).pop = s.pop.map fun t => t.grow values := by
  obtain ⟨layers, h⟩ := h
  cases layers with
  | nil =>
    have hs : s.starts = #[] := Array.eq_empty_of_size_eq_zero h.world_eq
    obtain ⟨slots, trail, starts⟩ := s
    cases hs
    rfl
  | cons layer rest =>
    rw [(h.grow values).pop.1, h.pop.1]
    have hslots : restored (s.grow values).slots layer =
        restored s.slots layer ++ (values.map fun v => (⟨v, 0⟩ : Slot α)).toArray :=
      restored_append_slots (h.cell_lt layer List.mem_cons_self) _
    rw [hslots]
    rfl

/-! ### Writes -/

section Writes

variable [BEq α]

@[simp] theorem world_set (s : Store α) (cell : Nat) (v : α) : (s.set cell v).world = s.world := by
  obtain ⟨slots, trail, starts⟩ := s
  simp only [Store.set]
  split
  · rfl
  · split <;> rfl

@[simp] theorem size_slots_set (s : Store α) (cell : Nat) (v : α) :
    (s.set cell v).slots.size = s.slots.size := by
  obtain ⟨slots, trail, starts⟩ := s
  simp only [Store.set]
  split
  · rfl
  · split <;> simp

/-- A write above the initial world leaves the store as it is, overwrites a slot that has a record in the
innermost layer, or adds such a record. -/
theorem LinkedBy.set_cases {s : Store α} {layer : Layer α} {rest : List (Layer α)}
    (h : s.LinkedBy (layer :: rest)) (cell : Nat) (v : α) :
    s.set cell v = s ∨ ∃ old, s.slots[cell]? = some old ∧
      ((old.stamp = rest.length + 1 ∧ s.set cell v =
          ofLayers (s.slots.setIfInBounds cell ⟨v, rest.length + 1⟩) (layer :: rest)) ∨
        (old.stamp ≠ rest.length + 1 ∧ s.set cell v =
          ofLayers (s.slots.setIfInBounds cell ⟨v, rest.length + 1⟩)
            ((⟨cell, old.value, old.stamp⟩ :: layer) :: rest))) := by
  have hw : s.starts.size = rest.length + 1 := h.world_eq
  have heq := h.eq_ofLayers
  obtain ⟨slots, trail, starts⟩ := s
  simp only [Store.set]
  cases hs : slots[cell]? with
  | none => exact .inl rfl
  | some old =>
    simp only at hw
    by_cases hv : (old.value == v) = true
    · exact .inl (by simp [hv])
    · refine .inr ⟨old, rfl, ?_⟩
      simp only [ofLayers, mk.injEq] at heq
      by_cases hst : old.stamp = rest.length + 1
      · refine .inl ⟨hst, ?_⟩
        simp [hv, hst, ofLayers, heq.2.1, heq.2.2]
      · refine .inr ⟨hst, ?_⟩
        have htrail : trail.push ⟨cell, old.value, old.stamp⟩ =
            (((⟨cell, old.value, old.stamp⟩ :: layer) :: rest).flatten).reverse.toArray := by
          rw [heq.2.1]
          simp
        simp [hv, hst, ofLayers, offsets, htrail, heq.2.2]

theorem LinkedBy.set {s : Store α} {layer : Layer α} {rest : List (Layer α)}
    (h : s.LinkedBy (layer :: rest)) (cell : Nat) (v : α) :
    ∃ layer', (s.set cell v).LinkedBy (layer' :: rest) := by
  rcases h.set_cases cell v with heq | ⟨old, hold, ⟨hst, heq⟩ | ⟨hst, heq⟩⟩
  · exact ⟨layer, heq.symm ▸ h⟩
  · refine ⟨layer, heq ▸ ⟨rfl, ?_, ?_⟩⟩
    · intro l hl r hr
      simpa [ofLayers] using h.cell_lt l hl r hr
    · intro c slot hs
      have hs : (s.slots.setIfInBounds cell ⟨v, rest.length + 1⟩)[c]? = some slot := hs
      by_cases hc : cell = c
      · subst hc
        rw [Array.getElem?_setIfInBounds_self_of_lt (Array.getElem?_eq_some_iff.mp hold).1] at hs
        obtain rfl := Option.some.inj hs
        exact hst ▸ h.traced cell old hold
      · rw [Array.getElem?_setIfInBounds_ne hc] at hs
        exact h.traced c slot hs
  · refine ⟨⟨cell, old.value, old.stamp⟩ :: layer, heq ▸ ⟨rfl, ?_, ?_⟩⟩
    · intro l hl r hr
      have hlt := (Array.getElem?_eq_some_iff.mp hold).1
      rcases List.mem_cons.mp hl with rfl | hl
      · rcases List.mem_cons.mp hr with rfl | hr
        · simpa [ofLayers] using hlt
        · simpa [ofLayers] using h.cell_lt layer List.mem_cons_self r hr
      · simpa [ofLayers] using h.cell_lt l (List.mem_cons_of_mem layer hl) r hr
    · intro c slot hs
      have hs : (s.slots.setIfInBounds cell ⟨v, rest.length + 1⟩)[c]? = some slot := hs
      by_cases hc : cell = c
      · subst hc
        rw [Array.getElem?_setIfInBounds_self_of_lt (Array.getElem?_eq_some_iff.mp hold).1] at hs
        obtain rfl := Option.some.inj hs
        have ht := h.traced cell old hold
        have hl : recordsOf cell layer = [] := Classical.byContradiction fun hl => by
          obtain ⟨r, -, h, -⟩ := ht.of_recorded hl
          exact hst h
        refine .recorded (r := ⟨cell, old.value, old.stamp⟩) ?_ (ht.lt_of_untouched hl).2
        rw [recordsOf_cons, if_pos rfl, hl]
      · rw [Array.getElem?_setIfInBounds_ne hc] at hs
        have ht := h.traced c slot hs
        have hrec : recordsOf c (⟨cell, old.value, old.stamp⟩ :: layer) = recordsOf c layer := by
          rw [recordsOf_cons, if_neg hc]
        by_cases hl : recordsOf c layer = []
        · exact .untouched (hrec.trans hl) (ht.lt_of_untouched hl).2
        · obtain ⟨r, hr, he, ht⟩ := ht.of_recorded hl
          rw [he]
          exact .recorded (hrec.trans hr) ht

/-- In the initial world nothing is recorded. -/
theorem LinkedBy.set_initial {s : Store α} (h : s.LinkedBy []) (cell : Nat) (v : α) :
    (s.set cell v).LinkedBy [] := by
  have hw : s.starts.size = 0 := h.world_eq
  have heq := h.eq_ofLayers
  have htraced := h.traced
  obtain ⟨slots, trail, starts⟩ := s
  simp only [Store.set]
  cases hs : slots[cell]? with
  | none => exact h
  | some old =>
    by_cases hv : (old.value == v) = true
    · simpa [hv] using h
    · simp only [ofLayers, mk.injEq] at heq
      have hold : old.stamp = 0 := Nat.le_zero.mp (htraced cell old hs).le_length
      simp only at hw
      simp only [hv, Bool.false_eq_true, if_false, hold, hw, if_true]
      refine ⟨by simp [ofLayers, heq.2.1, heq.2.2], by simp, ?_⟩
      intro c slot hc
      simp only [Array.getElem?_setIfInBounds] at hc
      split at hc
      · split at hc
        · cases hc
          exact .fresh
        · cases hc
      · exact htraced c slot hc

theorem Linked.set {s : Store α} (h : s.Linked) (cell : Nat) (v : α) : (s.set cell v).Linked := by
  obtain ⟨layers, h⟩ := h
  cases layers with
  | nil => exact ⟨[], h.set_initial cell v⟩
  | cons layer rest =>
    obtain ⟨layer', h⟩ := h.set cell v
    exact ⟨_, h⟩

/-- **A write is undone by the next pop.** -/
theorem Linked.pop_set {s : Store α} (h : s.Linked) (hw : 0 < s.world) (cell : Nat) (v : α) :
    (s.set cell v).pop = s.pop := by
  obtain ⟨layers, h⟩ := h
  cases layers with
  | nil => rw [h.world_eq] at hw; exact absurd hw (Nat.lt_irrefl 0)
  | cons layer rest =>
    rw [h.pop.1]
    rcases h.set_cases cell v with heq | ⟨old, hold, ⟨hst, heq⟩ | ⟨hst, heq⟩⟩
    · rw [heq, h.pop.1]
    · have hl : recordsOf cell layer ≠ [] := fun hl => by
        have := ((h.traced cell old hold).lt_of_untouched hl).1
        omega
      rw [heq, pop_ofLayers, restored_setIfInBounds hl]
    · have hself : (s.slots.setIfInBounds cell ⟨v, rest.length + 1⟩).setIfInBounds cell ⟨old.value, old.stamp⟩ =
          s.slots := by
        obtain ⟨hlt, hget⟩ := Array.getElem?_eq_some_iff.mp hold
        rw [Array.setIfInBounds_setIfInBounds]
        change s.slots.setIfInBounds cell old = s.slots
        rw [← hget]
        simp [Array.setIfInBounds, hlt]
      rw [heq, pop_ofLayers]
      exact congrArg (fun slots => Except.ok (ofLayers (restored slots layer) rest)) hself

end Writes

/-! ### Commits -/

theorem Traced.congr {cell stamp : Nat} {a b : Layer α} {rest : List (Layer α)}
    (h : Traced cell stamp (a :: rest)) (hab : recordsOf cell b = recordsOf cell a) :
    Traced cell stamp (b :: rest) := by
  cases h with
  | untouched hn h => exact .untouched (hab.trans hn) h
  | recorded hr h => exact .recorded (hab.trans hr) h

theorem recordsOf_reverse (cell : Nat) (layer : Layer α) :
    recordsOf cell layer.reverse = (recordsOf cell layer).reverse := List.filter_reverse

/-- How a cell stands after the innermost layer was merged into the one below: it was not recorded there; or
its record is dropped, since the layer below has one; or its record moves down, since that layer has none. -/
theorem Traced.merge_cases {cell stamp : Nat} {layer below : Layer α} {rest : List (Layer α)}
    (h : Traced cell stamp (layer :: below :: rest)) :
    (recordsOf cell layer = [] ∧
        recordsOf cell (kept (rest.length + 1) layer ++ below) = recordsOf cell below ∧
        Traced cell stamp (below :: rest)) ∨
      ∃ r, recordsOf cell layer = [r] ∧
        ((∃ q, recordsOf cell below = [q] ∧
            recordsOf cell (kept (rest.length + 1) layer ++ below) = [q] ∧ Traced cell q.stamp rest) ∨
          (recordsOf cell below = [] ∧
            recordsOf cell (kept (rest.length + 1) layer ++ below) = [r] ∧ Traced cell r.stamp rest)) := by
  have hkept : recordsOf cell (kept (rest.length + 1) layer ++ below) =
      kept (rest.length + 1) (recordsOf cell layer) ++ recordsOf cell below := by
    rw [recordsOf_append, kept, recordsOf_filter, kept]
  by_cases hl : recordsOf cell layer = []
  · exact .inl ⟨hl, by rw [hkept, hl]; rfl, (h.lt_of_untouched hl).2⟩
  · obtain ⟨r, hr, -, ht⟩ := h.of_recorded hl
    refine .inr ⟨r, hr, ?_⟩
    by_cases hst : r.stamp = rest.length + 1
    · have hb : recordsOf cell below ≠ [] := fun hb => by
        have := (ht.lt_of_untouched hb).1
        omega
      obtain ⟨q, hq, -, hq'⟩ := ht.of_recorded hb
      refine .inl ⟨q, hq, ?_, hq'⟩
      rw [hkept, hr, hq]
      simp [kept, hst]
    · have hb : recordsOf cell below = [] := Classical.byContradiction fun hb => by
        obtain ⟨-, -, he, -⟩ := ht.of_recorded hb
        exact hst he
      refine .inr ⟨hb, ?_, (ht.lt_of_untouched hb).2⟩
      rw [hkept, hr, hb]
      simp [kept, hst]

theorem LinkedBy.commit {s : Store α} {layer below : Layer α} {rest : List (Layer α)}
    (h : s.LinkedBy (layer :: below :: rest)) :
    s.commit = .ok (ofLayers (restamped (rest.length + 1) s.slots layer.reverse)
        ((kept (rest.length + 1) layer ++ below) :: rest)) ∧
      (ofLayers (restamped (rest.length + 1) s.slots layer.reverse)
        ((kept (rest.length + 1) layer ++ below) :: rest)).LinkedBy
          ((kept (rest.length + 1) layer ++ below) :: rest) := by
  refine ⟨?_, rfl, ?_, ?_⟩
  · refine (congrArg Store.commit h.eq_ofLayers).trans ((commit_ofLayers s.slots layer _).trans ?_)
    simp [ofLayers, offsets]
  · intro l hl r hr
    rw [show (ofLayers (restamped (rest.length + 1) s.slots layer.reverse) _).slots.size = s.slots.size by
      simp [ofLayers]]
    rcases List.mem_cons.mp hl with rfl | hl
    · rcases List.mem_append.mp hr with hr | hr
      · exact h.cell_lt layer List.mem_cons_self r (List.mem_filter.mp hr).1
      · exact h.cell_lt below (List.mem_cons_of_mem layer List.mem_cons_self) r hr
    · exact h.cell_lt l (List.mem_cons_of_mem layer (List.mem_cons_of_mem below hl)) r hr
  · intro cell slot hs
    have hs : (restamped (rest.length + 1) s.slots layer.reverse)[cell]? = some slot := hs
    rw [getElem?_restamped, recordsOf_reverse] at hs
    cases hold : s.slots[cell]? with
    | none => simp [hold] at hs
    | some old =>
      rcases (h.traced cell old hold).merge_cases with ⟨hl, hm, ht⟩ | ⟨r, hr, ⟨q, -, hm, ht⟩ | ⟨-, hm, ht⟩⟩
      · rw [hl, hold] at hs
        obtain rfl := Option.some.inj hs
        exact ht.congr hm
      · simp only [hr, hold, List.reverse_singleton, List.cons_ne_self, if_false, Option.map_some] at hs
        obtain rfl := Option.some.inj hs
        exact .recorded hm ht
      · simp only [hr, hold, List.reverse_singleton, List.cons_ne_self, if_false, Option.map_some] at hs
        obtain rfl := Option.some.inj hs
        exact .recorded hm ht

/-- Nothing is kept of the only layer. -/
theorem LinkedBy.commit_initial {s : Store α} {layer : Layer α} (h : s.LinkedBy [layer]) :
    s.commit = .ok (ofLayers (restamped 0 s.slots layer.reverse) []) ∧
      (ofLayers (restamped 0 s.slots layer.reverse) []).LinkedBy [] := by
  have hstamp : ∀ r ∈ layer, r.stamp = 0 := by
    intro r hr
    have hlt := h.cell_lt layer List.mem_cons_self r hr
    have hmem : r ∈ recordsOf r.cell layer := by simpa [recordsOf] using hr
    have hne : recordsOf r.cell layer ≠ [] := List.ne_nil_of_mem hmem
    obtain ⟨q, hq, -, ht⟩ :=
      (h.traced r.cell s.slots[r.cell] (Array.getElem?_eq_getElem hlt)).of_recorded hne
    rw [hq, List.mem_singleton] at hmem
    exact hmem ▸ Nat.le_zero.mp ht.le_length
  have hkept : kept 0 layer = [] := by
    simpa [kept, List.filter_eq_nil_iff] using hstamp
  refine ⟨?_, rfl, by simp, ?_⟩
  · refine (congrArg Store.commit h.eq_ofLayers).trans ((commit_ofLayers s.slots layer []).trans ?_)
    simp [ofLayers, offsets, hkept]
  · intro cell slot hs
    have hs : (restamped 0 s.slots layer.reverse)[cell]? = some slot := hs
    have hzero : slot.stamp = 0 := by
      rw [getElem?_restamped, recordsOf_reverse] at hs
      cases hold : s.slots[cell]? with
      | none => simp [hold] at hs
      | some old =>
        by_cases hl : recordsOf cell layer = []
        · rw [hl, hold] at hs
          obtain rfl := Option.some.inj hs
          exact Nat.le_zero.mp ((h.traced cell old hold).lt_of_untouched hl).2.le_length
        · rw [if_neg (by simpa using hl), hold] at hs
          obtain rfl := Option.some.inj hs
          rfl
    rw [hzero]
    exact .fresh

/-- A store above the initial world can be committed. -/
theorem Linked.exists_commit {s : Store α} (h : s.Linked) (hw : 0 < s.world) :
    ∃ t, s.commit = .ok t ∧ t.Linked ∧ t.world + 1 = s.world ∧ t.slots.size = s.slots.size := by
  obtain ⟨layers, h⟩ := h
  have hlen := h.world_eq
  match layers, h, hlen with
  | [], _, hlen => rw [List.length_nil] at hlen; omega
  | [layer], h, hlen =>
    obtain ⟨hc, hl⟩ := h.commit_initial
    exact ⟨_, hc, ⟨[], hl⟩, by rw [world_ofLayers, hlen]; rfl, by simp [ofLayers]⟩
  | layer :: below :: rest, h, hlen =>
    obtain ⟨hc, hl⟩ := h.commit
    exact ⟨_, hc, ⟨_, hl⟩, by rw [world_ofLayers, hlen]; rfl, by simp [ofLayers]⟩

theorem world_pos_of_commit {s t : Store α} (hc : s.commit = .ok t) : 0 < s.world := by
  rcases Nat.eq_zero_or_pos s.world with h0 | h0
  · obtain ⟨slots, trail, starts⟩ := s
    have hs : starts = #[] := Array.eq_empty_of_size_eq_zero h0
    subst hs
    simp [Store.commit] at hc
  · exact h0

theorem Linked.of_commit {s t : Store α} (h : s.Linked) (hc : s.commit = .ok t) : t.Linked := by
  obtain ⟨u, hu, hl, -⟩ := h.exists_commit (world_pos_of_commit hc)
  cases hc.symm.trans hu
  exact hl

/-- **A pop after a commit is two pops**, if the commit did not reach the initial world. -/
theorem Linked.pop_commit {s t : Store α} (h : s.Linked) (hw : 1 < s.world) (hc : s.commit = .ok t) :
    t.pop = s.pop >>= Store.pop := by
  obtain ⟨layers, h⟩ := h
  have hlen := h.world_eq
  match layers, h, hlen with
  | [], _, hlen | [_], _, hlen => simp at hlen; omega
  | layer :: below :: rest, h, _ =>
    obtain ⟨hcommit, hl⟩ := h.commit
    cases hc.symm.trans hcommit
    have hslots : restored (restamped (rest.length + 1) s.slots layer.reverse)
        (kept (rest.length + 1) layer ++ below) = restored (restored s.slots layer) below := by
      apply Array.ext_getElem?
      intro i
      cases hold : s.slots[i]? with
      | none =>
        rw [Array.getElem?_eq_none_iff] at hold
        rw [Array.getElem?_eq_none (by simpa using hold), Array.getElem?_eq_none (by simpa using hold)]
      | some old =>
        rcases (h.traced i old hold).merge_cases with ⟨hr, hm, -⟩ | ⟨r, hr, ⟨q, hq, hm, -⟩ | ⟨hb, hm, -⟩⟩
        · rw [getElem?_restored, getElem?_restored, hm, getElem?_restored_of_nil hr, getElem?_restamped,
            recordsOf_reverse, hr]
          rfl
        · rw [getElem?_restored_of_singleton hm, getElem?_restored_of_singleton hq,
            getElem?_restored_of_singleton hr, getElem?_restamped, hold]
          split <;> rfl
        · rw [getElem?_restored_of_singleton hm, getElem?_restored_of_nil hb,
            getElem?_restored_of_singleton hr, getElem?_restamped, hold]
          split <;> rfl
    rw [h.pop.1, pop_ofLayers, hslots]
    exact (pop_ofLayers (restored s.slots layer) below rest).symm

/-! ### Several pops -/

theorem popMany_succ (s : Store α) (n : Nat) : s.popMany (n + 1) = s.pop >>= fun t => t.popMany n := rfl

theorem popMany_add (s : Store α) (m n : Nat) : s.popMany (m + n) = s.popMany m >>= fun t => t.popMany n := by
  induction m generalizing s with
  | zero => rw [Nat.zero_add]; rfl
  | succ m ih =>
    rw [Nat.succ_add, popMany_succ, popMany_succ]
    cases s.pop with
    | error fault => rfl
    | ok t => exact ih t

theorem Linked.exists_popMany {s : Store α} (h : s.Linked) {n : Nat} (hn : n ≤ s.world) :
    ∃ t, s.popMany n = .ok t ∧ t.Linked ∧ t.world + n = s.world ∧ t.slots.size = s.slots.size := by
  induction n generalizing s with
  | zero => exact ⟨s, rfl, h, rfl, rfl⟩
  | succ n ih =>
    obtain ⟨t, ht, hl, hw, hs⟩ := h.exists_pop (by omega)
    obtain ⟨u, hu, hl', hw', hs'⟩ := ih hl (by omega)
    refine ⟨u, ?_, hl', by omega, hs'.trans hs⟩
    rw [popMany_succ, ht]
    exact hu

theorem Linked.popMany_spec {s t : Store α} (h : s.Linked) {n : Nat} (hp : s.popMany n = .ok t) :
    t.Linked ∧ t.world + n = s.world ∧ t.slots.size = s.slots.size := by
  induction n generalizing s with
  | zero =>
    cases hp
    exact ⟨h, rfl, rfl⟩
  | succ n ih =>
    rw [popMany_succ] at hp
    obtain ⟨u, hu, hp⟩ := bind_eq_ok.mp hp
    obtain ⟨v, hv, hl, hw, hs⟩ := h.exists_pop (world_pos_of_pop hu)
    cases hu.symm.trans hv
    obtain ⟨hl', hw', hs'⟩ := ih hl hp
    exact ⟨hl', by omega, hs'.trans hs⟩

theorem Linked.popMany_grow {s : Store α} (h : s.Linked) (n : Nat) (values : List α) :
    (s.grow values).popMany n = (s.popMany n).map fun t => t.grow values := by
  induction n generalizing s with
  | zero => rfl
  | succ n ih =>
    rw [popMany_succ, popMany_succ, h.pop_grow]
    cases hp : s.pop with
    | error fault => rfl
    | ok t => exact ih (h.of_pop hp)

theorem popUntil_of_le {s : Store α} {target : Nat} (h : target ≤ s.world) :
    s.popUntil target = s.popMany (s.world - target) := if_pos h

theorem popUntil_eq_ok {s t : Store α} {target : Nat} :
    s.popUntil target = .ok t ↔ target ≤ s.world ∧ s.popMany (s.world - target) = .ok t := by
  by_cases h : target ≤ s.world
  · rw [popUntil_of_le h]
    exact ⟨fun ht => ⟨h, ht⟩, fun ht => ht.2⟩
  · rw [popUntil, if_neg h]
    refine ⟨fun ht => ?_, fun ht => absurd ht.1 h⟩
    cases ht

theorem Linked.of_popUntil {s t : Store α} {target : Nat} (h : s.Linked) (hp : s.popUntil target = .ok t) : t.Linked :=
  (h.popMany_spec (popUntil_eq_ok.mp hp).2).1

/-- From a store that pops led to, a world below is reached as from the first. -/
theorem Linked.popMany_of_popMany {s t : Store α} {n world : Nat} (h : s.Linked) (hp : s.popMany n = .ok t)
    (hw : world ≤ t.world) : t.popMany (t.world - world) = s.popMany (s.world - world) := by
  have hn := (h.popMany_spec hp).2.1
  rw [show s.world - world = n + (t.world - world) by omega, popMany_add, hp]
  rfl

theorem Linked.popMany_of_pop {s t : Store α} {world : Nat} (h : s.Linked) (hp : s.pop = .ok t)
    (hw : world ≤ t.world) : t.popMany (t.world - world) = s.popMany (s.world - world) :=
  h.popMany_of_popMany (n := 1) (by rw [popMany_succ, hp]; rfl) hw

end Store

end FiniteDomain
