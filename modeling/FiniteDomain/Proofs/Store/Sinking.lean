import FiniteDomain.Proofs.Store.Linked

/-!
# Sinking a world into its parent

Two runs of a store that differ by one world: in the first, world `w + 1` is open above world `w`, and in the
second what happens there happens in world `w` itself. The second store is the first one *sunk*: stamps above
`w` are one less, and of the layer of world `w + 1` just those records stay, in the layer of world `w`, that a
commit would keep. `Sinks` is kept by every operation that does not close world `w + 1`, and a commit of that
world makes the two stores equal (`Sinks.commit_eq`).
-/

namespace FiniteDomain

namespace Store

variable {α : Type}

/-! ### Sunk layers -/

/-- The world that takes the place of a world once world `w + 1` is no more. -/
def sunkStamp (w stamp : Nat) : Nat := if w < stamp then stamp - 1 else stamp

def sunkSlot (w : Nat) (slot : Slot α) : Slot α := ⟨slot.value, sunkStamp w slot.stamp⟩

def sunkRecord (w : Nat) (r : Record α) : Record α := ⟨r.cell, r.value, sunkStamp w r.stamp⟩

/-- The layers below a layer of world `w + 1` that was merged into them. World zero has no layer. -/
def fused (w : Nat) (layer : Layer α) : List (Layer α) → List (Layer α)
  | [] => []
  | below :: rest => (kept w layer ++ below) :: rest

/-- The layers without that of world `w + 1`. -/
def sunkLayers (w : Nat) : List (Layer α) → List (Layer α)
  | [] => []
  | layer :: rest =>
    if rest.length = w then fused w layer rest else layer.map (sunkRecord w) :: sunkLayers w rest

variable {w : Nat} {layer : Layer α} {rest : List (Layer α)}

theorem sunkStamp_of_le {stamp : Nat} (h : stamp ≤ w) : sunkStamp w stamp = stamp := if_neg (by omega)

theorem sunkStamp_of_lt {stamp : Nat} (h : w < stamp) : sunkStamp w stamp = stamp - 1 := if_pos h

/-- A world above `w + 1` and the one that takes its place are hit by the same stamps. -/
theorem sunkStamp_eq_iff {stamp world : Nat} (h : w + 1 < world) : sunkStamp w stamp = world - 1 ↔ stamp = world := by
  unfold sunkStamp
  split <;> omega

theorem sunkStamp_eq_self_iff {stamp : Nat} : sunkStamp w stamp = w ↔ stamp = w ∨ stamp = w + 1 := by
  unfold sunkStamp
  split <;> omega

theorem sunkLayers_of_eq (h : rest.length = w) : sunkLayers w (layer :: rest) = fused w layer rest := if_pos h

theorem sunkLayers_of_ne (h : rest.length ≠ w) :
    sunkLayers w (layer :: rest) = layer.map (sunkRecord w) :: sunkLayers w rest := if_neg h

@[simp] theorem length_fused (w : Nat) (layer : Layer α) (rest : List (Layer α)) :
    (fused w layer rest).length = rest.length := by
  cases rest <;> rfl

theorem length_sunkLayers {layers : List (Layer α)} (h : w < layers.length) :
    (sunkLayers w layers).length + 1 = layers.length := by
  induction layers with
  | nil => simp at h
  | cons layer rest ih =>
    rw [List.length_cons] at h ⊢
    by_cases hw : rest.length = w
    · rw [sunkLayers_of_eq hw, length_fused]
    · rw [sunkLayers_of_ne hw, List.length_cons, ih (by omega)]

theorem fused_nil (h : rest.length = w) : fused w ([] : Layer α) rest = rest := by
  cases rest <;> rfl

/-- A record that the commit drops. -/
theorem fused_cons_of_eq {r : Record α} (h : r.stamp = w) : fused w (r :: layer) rest = fused w layer rest := by
  cases rest <;> simp [fused, kept, h]

theorem fused_cons_of_ne {r : Record α} {below : Layer α} (h : r.stamp ≠ w) :
    fused w (r :: layer) (below :: rest) = (r :: (kept w layer ++ below)) :: rest := by
  simp [fused, kept, h]

theorem restored_map_sunk (w : Nat) (slots : Array (Slot α)) (layer : Layer α) :
    restored (slots.map (sunkSlot w)) (layer.map (sunkRecord w)) = (restored slots layer).map (sunkSlot w) := by
  induction layer generalizing slots with
  | nil => rfl
  | cons r rest ih =>
    have hset : (slots.map (sunkSlot w)).setIfInBounds r.cell (sunkSlot w ⟨r.value, r.stamp⟩) =
        (slots.setIfInBounds r.cell ⟨r.value, r.stamp⟩).map (sunkSlot w) := by
      rw [Array.map_setIfInBounds]
    exact (congrArg (fun slots => restored slots (rest.map (sunkRecord w))) hset).trans (ih _)

theorem recordsOf_map_sunk (w cell : Nat) (layer : Layer α) :
    recordsOf cell (layer.map (sunkRecord w)) = (recordsOf cell layer).map (sunkRecord w) := by
  simp only [recordsOf, List.filter_map]
  rfl

/-- The merge of a world above `w + 1` into another such world. -/
theorem kept_map_sunk (parent : Nat) (h : w + 1 < parent) (layer : Layer α) :
    kept (parent - 1) (layer.map (sunkRecord w)) = (kept parent layer).map (sunkRecord w) := by
  simp only [kept, List.filter_map]
  refine congrArg _ (List.filter_congr fun r _ => ?_)
  simp [sunkRecord, sunkStamp_eq_iff h]

/-- The merge of world `w + 2` into world `w + 1` and on into world `w`. -/
theorem kept_sunk_eq (h : ∀ r ∈ layer, r.stamp ≤ w + 1) :
    kept w (layer.map (sunkRecord w)) = kept w (kept (w + 1) layer) := by
  simp only [kept, List.filter_map, List.filter_filter]
  rw [List.filter_congr (q := fun r => decide (r.stamp ≠ w) && decide (r.stamp ≠ w + 1)) fun r _ => ?_]
  · refine (List.map_congr_left fun r hr => ?_).trans (List.map_id _)
    obtain ⟨hmem, hr⟩ := List.mem_filter.mp hr
    have hle := h r hmem
    simp only [Bool.and_eq_true, decide_eq_true_eq] at hr
    rw [sunkRecord, sunkStamp_of_le (by omega)]
    rfl
  · simp [sunkRecord, sunkStamp_eq_self_iff]

/-! ### Sunk stores -/

/-- A record was made of a slot that was last written below the world of its layer. -/
theorem LinkedBy.stamp_le {s : Store α} (h : s.LinkedBy (layer :: rest)) {r : Record α} (hr : r ∈ layer) :
    r.stamp ≤ rest.length := by
  have hlt := h.cell_lt layer List.mem_cons_self r hr
  have hmem : r ∈ recordsOf r.cell layer := by simpa [recordsOf] using hr
  obtain ⟨q, hq, -, ht⟩ :=
    (h.traced r.cell s.slots[r.cell] (Array.getElem?_eq_getElem hlt)).of_recorded (List.ne_nil_of_mem hmem)
  rw [hq, List.mem_singleton] at hmem
  exact hmem ▸ ht.le_length

/-- The second store is the first without a world of its own for what happened in world `w + 1`. -/
def Sinks (w : Nat) (s t : Store α) : Prop :=
  ∃ layers, s.LinkedBy layers ∧ w < layers.length ∧ t = ofLayers (s.slots.map (sunkSlot w)) (sunkLayers w layers)

variable {s t : Store α}

/-- A world that was just opened. -/
theorem Linked.sinks_push (h : s.Linked) : Sinks s.world s.push s := by
  obtain ⟨layers, h⟩ := h
  have hlen := h.world_eq
  refine ⟨[] :: layers, h.push, by simp [hlen], ?_⟩
  rw [sunkLayers_of_eq hlen.symm, fused_nil hlen.symm, slots_push]
  have hslots : s.slots.map (sunkSlot s.world) = s.slots := by
    refine Array.ext_getElem? fun i => ?_
    rw [Array.getElem?_map]
    cases hs : s.slots[i]? with
    | none => rfl
    | some slot =>
      have hle : slot.stamp ≤ s.world := hlen ▸ (h.traced i slot hs).le_length
      simp [sunkSlot, sunkStamp_of_le hle]
  rw [hslots]
  exact h.eq_ofLayers

namespace Sinks

theorem world_eq (h : Sinks w s t) : s.world = t.world + 1 := by
  obtain ⟨layers, hl, hlt, rfl⟩ := h
  rw [world_ofLayers, length_sunkLayers hlt, hl.world_eq]

/-- The two stores hold the same values. -/
theorem slots_eq (h : Sinks w s t) : t.slots = s.slots.map (sunkSlot w) := by
  obtain ⟨layers, -, -, rfl⟩ := h
  rfl

theorem get?_eq (h : Sinks w s t) (c : Nat) : t.get? c = s.get? c := by
  rw [get?, get?, h.slots_eq, Array.getElem?_map, Option.map_map]
  rfl

theorem size_eq (h : Sinks w s t) : t.slots.size = s.slots.size := by rw [h.slots_eq, Array.size_map]

theorem linked (h : Sinks w s t) : s.Linked := by
  obtain ⟨layers, hl, -⟩ := h
  exact ⟨layers, hl⟩

theorem push (h : Sinks w s t) : Sinks w s.push t.push := by
  obtain ⟨layers, hl, hlt, rfl⟩ := h
  refine ⟨[] :: layers, hl.push, by simp; omega, ?_⟩
  rw [push_ofLayers, sunkLayers_of_ne (by omega), slots_push]
  rfl

theorem grow (h : Sinks w s t) (values : List α) : Sinks w (s.grow values) (t.grow values) := by
  obtain ⟨layers, hl, hlt, rfl⟩ := h
  refine ⟨layers, hl.grow values, hlt, ?_⟩
  have hnew : (values.map fun v => (⟨v, 0⟩ : Slot α)).toArray.map (sunkSlot w) =
      (values.map fun v => (⟨v, 0⟩ : Slot α)).toArray := by
    simp [sunkSlot, sunkStamp]
  simp only [Store.grow, ofLayers, Array.map_append, hnew]

end Sinks

/-! ### Writes -/

theorem ofLayers_cons_inj {slots slots' : Array (Slot α)} {a b : Layer α}
    (h : ofLayers slots (a :: rest) = ofLayers slots' (b :: rest)) : a = b := by
  have htrail := congrArg (fun s : Store α => s.trail.toList.reverse) h
  simpa [ofLayers] using htrail

/-- Slots that are written in both runs, above the world that is sunk. -/
theorem map_setIfInBounds_sunk (hw : w < n + 1) (slots : Array (Slot α)) (cell : Nat) (v : α) :
    (slots.map (sunkSlot w)).setIfInBounds cell ⟨v, n⟩ = (slots.setIfInBounds cell ⟨v, n + 1⟩).map (sunkSlot w) := by
  rw [Array.map_setIfInBounds, sunkSlot, sunkStamp_of_lt hw]
  rfl

section Writes

variable [BEq α] {slots : Array (Slot α)} {old : Slot α} {cell : Nat} {v : α}

/-- A write that changes a slot of the current world. -/
theorem set_ofLayers_of_current {layers : List (Layer α)} (hold : slots[cell]? = some old)
    (hv : (old.value == v) = false) (hst : old.stamp = layers.length) :
    (ofLayers slots layers).set cell v = ofLayers (slots.setIfInBounds cell ⟨v, layers.length⟩) layers := by
  simp [ofLayers, Store.set, hold, hv, hst]

/-- A write that changes a slot of an outer world. -/
theorem set_ofLayers_of_outer (hold : slots[cell]? = some old) (hv : (old.value == v) = false)
    (hst : old.stamp ≠ rest.length + 1) :
    (ofLayers slots (layer :: rest)).set cell v =
      ofLayers (slots.setIfInBounds cell ⟨v, rest.length + 1⟩) ((⟨cell, old.value, old.stamp⟩ :: layer) :: rest) := by
  simp [ofLayers, Store.set, hold, hv, hst, offsets]

theorem LinkedBy.set_current (h : s.LinkedBy (layer :: rest)) (hold : s.slots[cell]? = some old)
    (hv : (old.value == v) = false) (hst : old.stamp = rest.length + 1) :
    (s.set cell v).LinkedBy (layer :: rest) ∧
      (s.set cell v).slots = s.slots.setIfInBounds cell ⟨v, rest.length + 1⟩ := by
  have heq : s.set cell v = ofLayers (s.slots.setIfInBounds cell ⟨v, rest.length + 1⟩) (layer :: rest) :=
    (congrArg (fun t => Store.set t cell v) h.eq_ofLayers).trans (set_ofLayers_of_current hold hv hst)
  obtain ⟨layer', hl⟩ := h.set cell v
  have := ofLayers_cons_inj (hl.eq_ofLayers.symm.trans heq)
  exact ⟨this ▸ hl, by rw [heq]; rfl⟩

theorem LinkedBy.set_outer (h : s.LinkedBy (layer :: rest)) (hold : s.slots[cell]? = some old)
    (hv : (old.value == v) = false) (hst : old.stamp ≠ rest.length + 1) :
    (s.set cell v).LinkedBy ((⟨cell, old.value, old.stamp⟩ :: layer) :: rest) ∧
      (s.set cell v).slots = s.slots.setIfInBounds cell ⟨v, rest.length + 1⟩ := by
  have heq : s.set cell v = ofLayers (s.slots.setIfInBounds cell ⟨v, rest.length + 1⟩)
      ((⟨cell, old.value, old.stamp⟩ :: layer) :: rest) :=
    (congrArg (fun t => Store.set t cell v) h.eq_ofLayers).trans (set_ofLayers_of_outer hold hv hst)
  obtain ⟨layer', hl⟩ := h.set cell v
  have := ofLayers_cons_inj (hl.eq_ofLayers.symm.trans heq)
  exact ⟨this ▸ hl, by rw [heq]; rfl⟩

/-- A write that changes nothing. -/
theorem set_eq_self (s : Store α) (h : ∀ old, s.slots[cell]? = some old → (old.value == v) = true) :
    s.set cell v = s := by
  obtain ⟨slots, trail, starts⟩ := s
  simp only [Store.set]
  cases hs : slots[cell]? with
  | none => rfl
  | some old => simp [h old hs]

/-- A write in world `w + 1`: a record is made in both runs, or in one and dropped by the commit. -/
theorem sinks_set_lowest (hl : s.LinkedBy (layer :: rest)) (hw : rest.length = w) (hold : s.slots[cell]? = some old)
    (hv : (old.value == v) = false) :
    Sinks w (s.set cell v) ((ofLayers (s.slots.map (sunkSlot w)) (sunkLayers w (layer :: rest))).set cell v) := by
  have hold' : (s.slots.map (sunkSlot w))[cell]? = some ⟨old.value, sunkStamp w old.stamp⟩ := by
    rw [Array.getElem?_map, hold]
    rfl
  have hle : old.stamp ≤ rest.length + 1 := (hl.traced cell old hold).le_length
  have hcur : sunkStamp w old.stamp = w → (ofLayers (s.slots.map (sunkSlot w)) (fused w layer rest)).set cell v =
      ofLayers ((s.slots.map (sunkSlot w)).setIfInBounds cell ⟨v, rest.length⟩) (fused w layer rest) := by
    intro hst
    rw [set_ofLayers_of_current hold' hv (by rw [length_fused, hw, hst]), length_fused]
  rw [sunkLayers_of_eq hw]
  by_cases hst : old.stamp = rest.length + 1
  · obtain ⟨hl', hs⟩ := hl.set_current hold hv hst
    refine ⟨_, hl', by rw [List.length_cons]; omega, ?_⟩
    rw [sunkLayers_of_eq hw, hcur (sunkStamp_eq_self_iff.mpr (.inr (hw ▸ hst))), map_setIfInBounds_sunk (by omega), hs]
  · obtain ⟨hl', hs⟩ := hl.set_outer hold hv hst
    refine ⟨_, hl', by rw [List.length_cons]; omega, ?_⟩
    rw [sunkLayers_of_eq hw, hs, ← map_setIfInBounds_sunk (by omega)]
    by_cases hst' : old.stamp = w
    · rw [hcur (sunkStamp_eq_self_iff.mpr (.inl hst')), fused_cons_of_eq hst']
    · have hsunk : sunkStamp w old.stamp = old.stamp := sunkStamp_of_le (by omega)
      obtain ⟨below, rest', rfl⟩ := List.exists_cons_of_length_pos (l := rest) (by omega)
      rw [List.length_cons] at hw hst hle
      rw [fused, set_ofLayers_of_outer hold' hv (by rw [hsunk, hw]; exact hst'), hsunk, fused_cons_of_ne hst']
      rfl

/-- A write above world `w + 1`: both runs make a record, or neither does. -/
theorem sinks_set_above (hl : s.LinkedBy (layer :: rest)) (hw : w < rest.length) (hold : s.slots[cell]? = some old)
    (hv : (old.value == v) = false) :
    Sinks w (s.set cell v) ((ofLayers (s.slots.map (sunkSlot w)) (sunkLayers w (layer :: rest))).set cell v) := by
  have hold' : (s.slots.map (sunkSlot w))[cell]? = some ⟨old.value, sunkStamp w old.stamp⟩ := by
    rw [Array.getElem?_map, hold]
    rfl
  have hle : old.stamp ≤ rest.length + 1 := (hl.traced cell old hold).le_length
  have hlen : (sunkLayers w rest).length + 1 = rest.length := length_sunkLayers hw
  rw [sunkLayers_of_ne (by omega)]
  by_cases hst : old.stamp = rest.length + 1
  · obtain ⟨hl', hs⟩ := hl.set_current hold hv hst
    refine ⟨_, hl', by rw [List.length_cons]; omega, ?_⟩
    rw [sunkLayers_of_ne (by omega), hs, ← map_setIfInBounds_sunk (by omega), set_ofLayers_of_current hold' hv]
    · rw [List.length_cons, hlen]
    · rw [List.length_cons, hlen, hst, sunkStamp_of_lt (by omega), Nat.add_sub_cancel]
  · obtain ⟨hl', hs⟩ := hl.set_outer hold hv hst
    refine ⟨_, hl', by rw [List.length_cons]; omega, ?_⟩
    rw [sunkLayers_of_ne (by omega), hs, ← map_setIfInBounds_sunk (by omega), set_ofLayers_of_outer hold' hv]
    · rw [hlen]
      rfl
    · obtain ⟨n, hn⟩ : ∃ n, rest.length = n + 1 := ⟨rest.length - 1, by omega⟩
      rw [hlen]
      exact fun heq => hst ((sunkStamp_eq_iff (w := w) (by omega)).mp heq)

theorem Sinks.set (h : Sinks w s t) (cell : Nat) (v : α) : Sinks w (s.set cell v) (t.set cell v) := by
  by_cases hsame : ∀ old, s.slots[cell]? = some old → (old.value == v) = true
  · rw [set_eq_self s hsame, set_eq_self t]
    · exact h
    · intro old hold
      rw [h.slots_eq, Array.getElem?_map] at hold
      obtain ⟨slot, hslot, rfl⟩ := Option.map_eq_some_iff.mp hold
      exact hsame slot hslot
  · obtain ⟨old, hold, hv⟩ : ∃ old, s.slots[cell]? = some old ∧ (old.value == v) = false := by
      simpa using hsame
    obtain ⟨layers, hl, hlt, rfl⟩ := h
    obtain ⟨layer, rest, rfl⟩ := List.exists_cons_of_length_pos (Nat.zero_lt_of_lt hlt)
    rw [List.length_cons] at hlt
    rcases Nat.eq_or_lt_of_le (Nat.le_of_lt_succ hlt) with hw | hw
    · exact sinks_set_lowest hl hw.symm hold hv
    · exact sinks_set_above hl hw hold hv

end Writes

/-! ### Worlds above the one that is sunk -/

theorem Sinks.exists_pop (h : Sinks w s t) (hw : w + 1 < s.world) :
    ∃ s' t', s.pop = .ok s' ∧ t.pop = .ok t' ∧ Sinks w s' t' := by
  obtain ⟨layers, hl, hlt, rfl⟩ := h
  rw [hl.world_eq] at hw
  obtain ⟨layer, rest, rfl⟩ := List.exists_cons_of_length_pos (Nat.zero_lt_of_lt hlt)
  rw [List.length_cons] at hw
  obtain ⟨hpop, hl'⟩ := hl.pop
  refine ⟨_, _, hpop, ?_, rest, hl', by omega, rfl⟩
  rw [sunkLayers_of_ne (by omega), pop_ofLayers, restored_map_sunk]
  rfl

theorem Sinks.popMany (h : Sinks w s t) (n : Nat) (hw : w + n < s.world) :
    ∃ s' t', s.popMany n = .ok s' ∧ t.popMany n = .ok t' ∧ Sinks w s' t' := by
  induction n generalizing s t with
  | zero => exact ⟨s, t, rfl, rfl, h⟩
  | succ n ih =>
    obtain ⟨s', t', hs, ht, h'⟩ := h.exists_pop (by omega)
    have hworld := h.linked.world_of_pop hs
    rw [popMany_succ, popMany_succ, hs, ht]
    exact ih h' (by omega)

theorem restamped_map_sunk (parent : Nat) (slots : Array (Slot α)) (layer : Layer α) :
    restamped (sunkStamp w parent) (slots.map (sunkSlot w)) (layer.map (sunkRecord w)) =
      (restamped parent slots layer).map (sunkSlot w) := by
  refine Array.ext_getElem? fun i => ?_
  simp only [getElem?_restamped, recordsOf_map_sunk, List.map_eq_nil_iff, Array.getElem?_map]
  split
  · rfl
  · rw [Option.map_map, Option.map_map]
    rfl

theorem commit_ofLayers_cons (slots : Array (Slot α)) (layer below : Layer α) (rest : List (Layer α)) :
    (ofLayers slots (layer :: below :: rest)).commit =
      .ok (ofLayers (restamped (rest.length + 1) slots layer.reverse)
        ((kept (rest.length + 1) layer ++ below) :: rest)) := by
  rw [commit_ofLayers]
  simp [ofLayers, offsets]

theorem kept_append (parent : Nat) (a b : Layer α) : kept parent (a ++ b) = kept parent a ++ kept parent b :=
  List.filter_append ..

theorem Sinks.exists_commit (h : Sinks w s t) (hw : w + 1 < s.world) :
    ∃ s' t', s.commit = .ok s' ∧ t.commit = .ok t' ∧ Sinks w s' t' := by
  obtain ⟨layers, hl, hlt, rfl⟩ := h
  rw [hl.world_eq] at hw
  match layers, hl, hw with
  | layer :: below :: rest, hl, hw =>
    simp only [List.length_cons] at hw
    obtain ⟨hcommit, hl'⟩ := hl.commit
    refine ⟨_, _, hcommit, ?_, _, hl', by rw [List.length_cons]; omega, rfl⟩
    have hslots := restamped_map_sunk (w := w) (rest.length + 1) s.slots layer.reverse
    rw [sunkStamp_of_lt (by omega), Nat.add_sub_cancel, List.map_reverse] at hslots
    rw [sunkLayers_of_ne (by rw [List.length_cons]; omega)]
    by_cases hlen : rest.length = w
    · -- World `w + 2` is merged into the world that is sunk.
      have hstamp : ∀ r ∈ layer, r.stamp ≤ w + 1 := fun r hr => hlen ▸ List.length_cons ▸ hl.stamp_le hr
      have hkept := kept_sunk_eq hstamp
      rw [sunkLayers_of_eq hlen, sunkLayers_of_eq hlen]
      cases rest with
      | nil =>
        obtain rfl : w = 0 := hlen.symm
        have hnone : kept 0 (layer.map (sunkRecord 0)) = [] := by
          rw [hkept, kept, kept, List.filter_filter, List.filter_eq_nil_iff]
          intro r hr
          have := hstamp r hr
          simp
          omega
        rw [List.length_nil] at hslots
        rw [fused, commit_ofLayers, List.length_nil, hnone, hslots]
        rfl
      | cons b rest =>
        rw [fused, fused, commit_ofLayers_cons]
        rw [List.length_cons] at hlen hslots ⊢
        rw [hlen] at hslots ⊢
        rw [hkept, hslots, kept_append, List.append_assoc]
        rfl
    · have hbelow : (sunkLayers w rest).length + 1 = rest.length := length_sunkLayers (by omega)
      have hkept : kept rest.length (layer.map (sunkRecord w)) = (kept (rest.length + 1) layer).map (sunkRecord w) :=
        kept_map_sunk (rest.length + 1) (by omega) layer
      rw [sunkLayers_of_ne hlen, sunkLayers_of_ne hlen, commit_ofLayers_cons, hbelow, hkept, hslots, List.map_append]
      rfl

/-! ### The commit -/

/-- **A commit of world `w + 1`** gives the store for which that world was never opened. -/
theorem Sinks.commit_eq (h : Sinks w s t) (hw : s.world = w + 1) : s.commit = .ok t := by
  obtain ⟨layers, hl, hlt, rfl⟩ := h
  rw [hl.world_eq] at hw
  obtain ⟨layer, rest, rfl⟩ := List.exists_cons_of_length_pos (Nat.zero_lt_of_lt hlt)
  have hlen : rest.length = w := Nat.succ.inj hw
  have hslots : restamped w s.slots layer.reverse = s.slots.map (sunkSlot w) := by
    refine Array.ext_getElem? fun i => ?_
    simp only [getElem?_restamped, recordsOf_reverse, List.reverse_eq_nil_iff, Array.getElem?_map]
    cases hs : s.slots[i]? with
    | none => simp
    | some slot =>
      have htraced := hl.traced i slot hs
      by_cases hnil : recordsOf i layer = []
      · have hle : slot.stamp ≤ w := by
          have := (htraced.lt_of_untouched hnil).1
          omega
        simp [hnil, sunkSlot, sunkStamp_of_le hle]
      · obtain ⟨r, -, hst, -⟩ := htraced.of_recorded hnil
        rw [if_neg hnil, Option.map_some, Option.map_some, sunkSlot, hst, hlen, sunkStamp_of_lt (by omega)]
        rfl
  rw [sunkLayers_of_eq hlen]
  cases rest with
  | nil =>
    obtain ⟨hcommit, -⟩ := hl.commit_initial
    subst hlen
    rw [hcommit, List.length_nil] at *
    rw [hslots]
    rfl
  | cons below rest =>
    obtain ⟨hcommit, -⟩ := hl.commit
    rw [List.length_cons] at hlen
    rw [hcommit, hlen, hslots]
    rfl

end Store

end FiniteDomain
