import FiniteDomain.Proofs.Store.Committing
import FiniteDomain.Proofs.Store.Steps
import Mathlib.Data.List.Basic

/-!
# The chains in the trail

The trail is cut into segments, one for each open world, and the records of a cell in them form a chain: each segment
that has any has one, and the stamps saved lead from each world that recorded the cell to the one before it.

* `Store.Chained`: what the worlds that recorded a cell have to do with its records and its stamp;
* `Store.Chained.untouched`, `Store.Chained.recorded_last`: what one more world does to the chain;
* `Store.Traced.exists_chained`: the chain, by induction on the layers of the store;
* `Store.Linked.segmented`: the segments together;
* `Arena.kept_of_run`: what a run of operations on an arena keeps;
* `Arena.trail_chained`: all this in every arena that operations on the empty one lead to.
-/

namespace FiniteDomain

namespace Store

variable {α : Type}

/-- Where the segment of a world begins in the trail. What lies before the first segment counts as that of the
initial world. -/
def segmentStart (s : Store α) : Nat → Nat
  | 0 => 0
  | w + 1 => s.starts[w]?.getD s.trail.size

/-- The records that the trail holds for a world, oldest first. -/
def segment (s : Store α) (w : Nat) : List (Record α) :=
  (s.trail.extract (s.segmentStart w) (s.segmentStart (w + 1))).toList

theorem segmentStart_ofLayers_nil (slots : Array (Slot α)) (w : Nat) : (ofLayers slots []).segmentStart w = 0 := by
  cases w <;> simp [segmentStart, ofLayers, offsets]

/-- The innermost layer begins where the others end. -/
theorem segmentStart_ofLayers_cons (slots : Array (Slot α)) (layer : Layer α) (rest : List (Layer α)) (w : Nat) :
    (ofLayers slots (layer :: rest)).segmentStart w =
      if w ≤ rest.length + 1 then (ofLayers slots rest).segmentStart w else (layer :: rest).flatten.length := by
  cases w with
  | zero => rfl
  | succ w =>
    have hstarts : (offsets (layer :: rest)).reverse = (offsets rest).reverse ++ [rest.flatten.length] := by
      simp [offsets]
    have hlen : (offsets rest).reverse.length = rest.length := by simp
    simp only [segmentStart, ofLayers, List.getElem?_toArray, hstarts, List.size_toArray, List.length_reverse]
    rcases Nat.lt_trichotomy w rest.length with hlt | rfl | hgt
    · rw [if_pos (by omega), List.getElem?_append_left (by omega), List.getElem?_eq_getElem (by omega)]
      rfl
    · rw [if_pos (Nat.le_refl _), List.getElem?_append_right (by omega), hlen, Nat.sub_self,
        List.getElem?_eq_none (Nat.le_of_eq hlen)]
      rfl
    · rw [if_neg (by omega), List.getElem?_eq_none]
      · rfl
      · rw [List.length_append, hlen]
        exact hgt

theorem segmentStart_le (slots : Array (Slot α)) (layers : List (Layer α)) (w : Nat) :
    (ofLayers slots layers).segmentStart w ≤ layers.flatten.length := by
  induction layers with
  | nil => exact Nat.le_of_eq (segmentStart_ofLayers_nil slots w)
  | cons layer rest ih =>
    rw [segmentStart_ofLayers_cons, List.flatten_cons, List.length_append]
    split <;> omega

theorem toList_extract_trail (slots : Array (Slot α)) (layers : List (Layer α)) (i j : Nat) :
    ((ofLayers slots layers).trail.extract i j).toList = layers.flatten.reverse.extract i j := by
  simp [ofLayers]

theorem segment_ofLayers (slots : Array (Slot α)) (layers : List (Layer α)) (w : Nat) :
    (ofLayers slots layers).segment w = layers.flatten.reverse.extract ((ofLayers slots layers).segmentStart w)
      ((ofLayers slots layers).segmentStart (w + 1)) := toList_extract_trail slots layers _ _

/-- The segment of the innermost world. -/
theorem segment_ofLayers_self (slots : Array (Slot α)) (layer : Layer α) (rest : List (Layer α)) :
    (ofLayers slots (layer :: rest)).segment (rest.length + 1) = layer.reverse := by
  have hlow : (ofLayers slots rest).segmentStart (rest.length + 1) = rest.flatten.length := by
    simp [segmentStart, ofLayers]
  rw [segment_ofLayers, segmentStart_ofLayers_cons, segmentStart_ofLayers_cons, if_pos (Nat.le_refl _),
    if_neg (by omega), hlow]
  simp [List.take_of_length_le]

/-- The segments of the worlds below. -/
theorem segment_ofLayers_of_le (slots : Array (Slot α)) (layer : Layer α) {rest : List (Layer α)} {w : Nat}
    (hw : w ≤ rest.length) : (ofLayers slots (layer :: rest)).segment w = (ofLayers slots rest).segment w := by
  have hle := segmentStart_le slots rest (w + 1)
  rw [segment_ofLayers, segment_ofLayers, segmentStart_ofLayers_cons, segmentStart_ofLayers_cons, if_pos (by omega),
    if_pos (by omega), List.flatten_cons, List.reverse_append]
  have hle' := segmentStart_le slots rest w
  rw [← List.length_reverse] at hle hle'
  rw [List.extract_eq_take_drop, List.extract_eq_take_drop, List.drop_append_of_le_length hle',
    List.take_append_of_le_length]
  rw [List.length_drop]
  omega

/-- No world above the current one has records. -/
theorem segment_ofLayers_of_lt (slots : Array (Slot α)) {layers : List (Layer α)} {w : Nat} (hw : layers.length < w) :
    (ofLayers slots layers).segment w = [] := by
  have hend : ∀ v, layers.length < v → (ofLayers slots layers).segmentStart v = layers.flatten.length := by
    intro v hv
    cases layers with
    | nil => exact segmentStart_ofLayers_nil slots v
    | cons layer rest =>
      rw [segmentStart_ofLayers_cons]
      rw [List.length_cons] at hv
      rw [if_neg (by omega)]
  rw [segment_ofLayers, hend w hw, hend (w + 1) (by omega)]
  simp [List.extract_eq_take_drop]

/-- The initial world has no records. -/
theorem segment_ofLayers_zero (slots : Array (Slot α)) (layers : List (Layer α)) :
    (ofLayers slots layers).segment 0 = [] := by
  induction layers with
  | nil => simp [segment, ofLayers]
  | cons layer rest ih => rw [segment_ofLayers_of_le slots layer (Nat.zero_le _), ih]

/-! ### The chain of a cell -/

/-- The worlds in whose segments a cell is recorded, in increasing order: each of them records it once, and the stamps
that were saved lead from each to the one before. -/
structure Chained (s : Store α) (cell stamp : Nat) (worlds : List Nat) : Prop where
  increasing : worlds.Pairwise (· < ·)
  within : ∀ w ∈ worlds, 1 ≤ w ∧ w ≤ s.world
  recorded : ∀ w, recordsOf cell (s.segment w) ≠ [] ↔ w ∈ worlds
  once : ∀ w ∈ worlds, ∃ r, recordsOf cell (s.segment w) = [r]
  saved : worlds.flatMap (fun w => (recordsOf cell (s.segment w)).map Record.stamp) = (0 :: worlds).dropLast
  last : stamp = worlds.getLast?.getD 0

namespace Chained

variable {slots : Array (Slot α)} {cell stamp : Nat} {layer : Layer α} {rest : List (Layer α)} {worlds : List Nat}

theorem le_length (h : (ofLayers slots rest).Chained cell stamp worlds) {w : Nat} (hw : w ∈ worlds) :
    w ≤ rest.length := by
  have hle := (h.within w hw).2
  rwa [world_ofLayers] at hle

/-- A world that does not record the cell leaves its chain as it is. -/
theorem untouched (h : (ofLayers slots rest).Chained cell stamp worlds) (hl : recordsOf cell layer = []) :
    (ofLayers slots (layer :: rest)).Chained cell stamp worlds := by
  have hbelow : ∀ w, recordsOf cell ((ofLayers slots (layer :: rest)).segment w) =
      recordsOf cell ((ofLayers slots rest).segment w) := by
    intro w
    rcases Nat.lt_trichotomy w (rest.length + 1) with hlt | rfl | hgt
    · rw [segment_ofLayers_of_le slots layer (Nat.le_of_lt_succ hlt)]
    · rw [segment_ofLayers_self, recordsOf_reverse, hl, segment_ofLayers_of_lt slots (Nat.lt_succ_self _)]
      rfl
    · rw [segment_ofLayers_of_lt slots (show (layer :: rest).length < w from hgt),
        segment_ofLayers_of_lt slots (by omega)]
  refine ⟨h.increasing, fun w hw => ?_, fun w => ?_, fun w hw => ?_, ?_, h.last⟩
  · rw [world_ofLayers, List.length_cons]
    exact ⟨(h.within w hw).1, Nat.le_succ_of_le (h.le_length hw)⟩
  · rw [hbelow]
    exact h.recorded w
  · rw [hbelow]
    exact h.once w hw
  · simp only [hbelow]
    exact h.saved

/-- A world that records the cell is the last of its chain, and its record has saved the stamp of the one before. -/
theorem recorded_last {r : Record α} (h : (ofLayers slots rest).Chained cell r.stamp worlds)
    (hr : recordsOf cell layer = [r]) :
    (ofLayers slots (layer :: rest)).Chained cell (rest.length + 1) (worlds ++ [rest.length + 1]) := by
  have hbelow : ∀ w ∈ worlds, (ofLayers slots (layer :: rest)).segment w = (ofLayers slots rest).segment w :=
    fun w hw => segment_ofLayers_of_le slots layer (h.le_length hw)
  have hself : recordsOf cell ((ofLayers slots (layer :: rest)).segment (rest.length + 1)) = [r] := by
    rw [segment_ofLayers_self, recordsOf_reverse, hr]
    rfl
  refine ⟨?_, fun w hw => ?_, fun w => ?_, fun w hw => ?_, ?_, by simp⟩
  · refine List.pairwise_append.mpr ⟨h.increasing, List.pairwise_singleton _ _, fun v hv w hw => ?_⟩
    rw [List.mem_singleton.mp hw]
    exact Nat.lt_succ_of_le (h.le_length hv)
  · rw [world_ofLayers, List.length_cons]
    rcases List.mem_append.mp hw with hw | hw
    · exact ⟨(h.within w hw).1, Nat.le_succ_of_le (h.le_length hw)⟩
    · rw [List.mem_singleton.mp hw]
      exact ⟨Nat.le_add_left 1 _, Nat.le_refl _⟩
  · rw [List.mem_append, List.mem_singleton]
    rcases Nat.lt_trichotomy w (rest.length + 1) with hlt | rfl | hgt
    · rw [segment_ofLayers_of_le slots layer (Nat.le_of_lt_succ hlt), h.recorded w]
      exact ⟨.inl, fun h => h.resolve_right (Nat.ne_of_lt hlt)⟩
    · simp [hself]
    · rw [segment_ofLayers_of_lt slots (show (layer :: rest).length < w from hgt)]
      refine iff_of_false (fun h => absurd rfl h) ?_
      rintro (hw | rfl)
      · exact absurd (h.le_length hw) (by omega)
      · exact absurd hgt (Nat.lt_irrefl _)
  · rcases List.mem_append.mp hw with hw | hw
    · rw [hbelow w hw]
      exact h.once w hw
    · rw [List.mem_singleton.mp hw]
      exact ⟨r, hself⟩
  · have hsaved : worlds.flatMap (fun w =>
        (recordsOf cell ((ofLayers slots (layer :: rest)).segment w)).map Record.stamp) = (0 :: worlds).dropLast := by
      rw [← h.saved]
      exact List.flatMap_congr fun w hw => by rw [hbelow w hw]
    have hlast : (0 :: worlds).getLast (List.cons_ne_nil 0 worlds) = r.stamp := by
      rw [h.last, List.getLast_eq_iff_getLast?_eq_some, List.getLast?_cons]
    rw [List.flatMap_append, List.flatMap_singleton, hself, hsaved, ← List.cons_append, List.dropLast_concat,
      List.map_singleton, ← hlast, List.dropLast_concat_getLast]

end Chained

/-- The layers of a store tell the chains of its cells. -/
theorem Traced.exists_chained (slots : Array (Slot α)) {cell stamp : Nat} {layers : List (Layer α)}
    (h : Traced cell stamp layers) : ∃ worlds, (ofLayers slots layers).Chained cell stamp worlds := by
  induction h with
  | fresh =>
    have hnone : ∀ w, (ofLayers slots ([] : List (Layer α))).segment w = [] := fun w => by simp [segment, ofLayers]
    exact ⟨[], .nil, by simp, fun w => by simp [hnone, recordsOf], by simp, rfl, rfl⟩
  | untouched hl _ ih =>
    obtain ⟨worlds, hworlds⟩ := ih
    exact ⟨worlds, hworlds.untouched hl⟩
  | recorded hr _ ih =>
    obtain ⟨worlds, hworlds⟩ := ih
    exact ⟨_, hworlds.recorded_last hr⟩

/-! ### The segments together -/

/-- The segments make up the trail. -/
theorem flatMap_segment_ofLayers (slots : Array (Slot α)) (layers : List (Layer α)) :
    (List.range (layers.length + 1)).flatMap (ofLayers slots layers).segment = layers.flatten.reverse := by
  induction layers with
  | nil => simp [segment_ofLayers_zero]
  | cons layer rest ih =>
    rw [List.length_cons, List.range_succ, List.flatMap_append, List.flatMap_singleton, segment_ofLayers_self,
      List.flatten_cons, List.reverse_append, ← ih]
    congr 1
    refine List.flatMap_congr fun w hw => ?_
    rw [segment_ofLayers_of_le slots layer (Nat.le_of_lt_succ (List.mem_range.mp hw))]

/-- The segments make up the trail, in the order in which they begin. -/
structure Segmented (s : Store α) : Prop where
  whole : (List.range (s.world + 1)).flatMap s.segment = s.trail.toList
  ordered : s.starts.toList.Pairwise (· ≤ ·)
  bounded : ∀ start ∈ s.starts, start ≤ s.trail.size

theorem mem_offsets_le {layers : List (Layer α)} {start : Nat} (h : start ∈ offsets layers) :
    start ≤ layers.flatten.length := by
  induction layers with
  | nil => cases h
  | cons layer rest ih =>
    rw [List.flatten_cons, List.length_append]
    rcases List.mem_cons.mp h with rfl | h
    · omega
    · have := ih h
      omega

theorem pairwise_offsets (layers : List (Layer α)) : (offsets layers).Pairwise (· ≥ ·) := by
  induction layers with
  | nil => exact .nil
  | cons layer rest ih => exact .cons (fun start h => mem_offsets_le h) ih

theorem segmented_ofLayers (slots : Array (Slot α)) (layers : List (Layer α)) :
    (ofLayers slots layers).Segmented where
  whole := by
    rw [world_ofLayers]
    exact flatMap_segment_ofLayers slots layers
  ordered := List.pairwise_reverse.mpr (pairwise_offsets layers)
  bounded start h := by
    have h : start ∈ offsets layers := by simpa [ofLayers] using h
    simpa [ofLayers] using mem_offsets_le h

theorem Linked.segmented {s : Store α} (h : s.Linked) : s.Segmented := by
  obtain ⟨layers, h⟩ := h
  rw [h.eq_ofLayers]
  exact segmented_ofLayers s.slots layers

/-- Every cell of a linked store has its chain. -/
theorem Linked.exists_chained {s : Store α} (h : s.Linked) {cell : Nat} {slot : Slot α}
    (hslot : s.slots[cell]? = some slot) : ∃ worlds, s.Chained cell slot.stamp worlds := by
  obtain ⟨layers, h⟩ := h
  rw [h.eq_ofLayers]
  exact (h.traced cell slot hslot).exists_chained s.slots

end Store

namespace Arena

/-! ### Cells and elements -/

/-- A cell, or an element of a vector. -/
inductive Site where
  | cell (cell : Nat)
  | element (vector place : Nat)
deriving DecidableEq

/-- Where it is in the store. -/
def address (a : Arena) : Site → Except Fault Nat
  | .cell cell => a.cellAddress cell
  | .element vector place => a.elementAddress vector place

theorem address_cell_eq_ok {a : Arena} {cell i : Nat} :
    a.address (.cell cell) = .ok i ↔ ∃ h, a.cells[cell]? = some h ∧ h.block.start = i := by
  simp only [address, cellAddress]
  cases a.cells[cell]? <;> simp

theorem address_element_eq_ok {a : Arena} {vector place i : Nat} :
    a.address (.element vector place) = .ok i ↔
      ∃ h, a.vectors[vector]? = some h ∧ place < h.block.length ∧ h.block.cell place = i := by
  simp only [address, elementAddress]
  cases a.vectors[vector]? with
  | none => simp
  | some h => by_cases hp : place < h.block.length <;> simp [hp]

/-- Cells and elements have slots of their own. -/
structure Laid (a : Arena) : Prop where
  lt : ∀ x i, a.address x = .ok i → i < a.store.slots.size
  injective : ∀ x y i, a.address x = .ok i → a.address y = .ok i → x = y

/-- New sites are laid out one after the other behind those that are there. -/
theorem Laid.extend {a b : Arena} (h : a.Laid) (hsize : a.store.slots.size ≤ b.store.slots.size)
    (fresh : Nat → Site)
    (hnew : ∀ x i, b.address x = .ok i → a.address x = .ok i ∨
      ∃ place, x = fresh place ∧ i = a.store.slots.size + place ∧ i < b.store.slots.size) : b.Laid := by
  refine ⟨fun x i hx => ?_, fun x y i hx hy => ?_⟩
  · rcases hnew x i hx with hx | ⟨-, -, -, hlt⟩
    · exact Nat.lt_of_lt_of_le (h.lt x i hx) hsize
    · exact hlt
  · rcases hnew x i hx with hx | ⟨p, rfl, hp, -⟩ <;> rcases hnew y i hy with hy | ⟨q, rfl, hq, -⟩
    · exact h.injective x y i hx hy
    · have := h.lt x i hx
      omega
    · have := h.lt y i hy
      omega
    · rw [show p = q by omega]

theorem Laid.makeCell {a : Arena} (h : a.Laid) (value : Datum) : (a.makeCell value).Laid := by
  obtain ⟨handle, hcells, hblock⟩ := cells_makeCell a value
  have hsize : (a.makeCell value).store.slots.size = a.store.slots.size + 1 := by
    rw [show (a.makeCell value).store = _ from store_create a (.makeCell value), Store.size_slots_grow]
    rfl
  refine h.extend (by omega) (fun _ => .cell a.cells.size) fun x i hx => ?_
  cases x with
  | cell cell =>
    rw [address_cell_eq_ok, hcells] at hx
    obtain ⟨g, hg, rfl⟩ := hx
    rw [Array.getElem?_push] at hg
    split at hg
    · rename_i heq
      cases hg
      rw [hblock]
      exact .inr ⟨0, by rw [heq], rfl, by rw [hsize]; exact Nat.lt_succ_self _⟩
    · exact .inl (address_cell_eq_ok.mpr ⟨g, hg, rfl⟩)
  | element vector place => exact .inl hx

theorem Laid.makeVector {a : Arena} (h : a.Laid) (length : Nat) (value : Datum) :
    (a.makeVector length value).Laid := by
  obtain ⟨handle, hvectors, hblock⟩ := vectors_makeVector a length value
  have hsize : (a.makeVector length value).store.slots.size = a.store.slots.size + length := by
    rw [show (a.makeVector length value).store = _ from store_create a (.makeVector length value),
      Store.size_slots_grow]
    simp [Op.values]
  refine h.extend (by omega) (.element a.vectors.size) fun x i hx => ?_
  cases x with
  | cell cell => exact .inl hx
  | element vector place =>
    rw [address_element_eq_ok, hvectors] at hx
    obtain ⟨g, hg, hp, rfl⟩ := hx
    rw [Array.getElem?_push] at hg
    split at hg
    · rename_i heq
      cases hg
      rw [hblock] at hp ⊢
      exact .inr ⟨place, by rw [heq], rfl, by rw [hsize]; exact Nat.add_lt_add_left hp _⟩
    · exact .inl (address_element_eq_ok.mpr ⟨g, hg, hp, rfl⟩)

theorem laid_empty : (({} : Arena)).Laid := by
  have hnone : ∀ x i, ({} : Arena).address x ≠ .ok i := by
    rintro (cell | ⟨vector, place⟩) i h <;> simp [address, cellAddress, elementAddress] at h
  exact ⟨fun x i h => absurd h (hnone x i), fun x _ i h => absurd h (hnone x i)⟩

/-- What does not make cells leaves the slots where they are. -/
theorem Laid.with_store {a : Arena} (h : a.Laid) {s : Store Datum} (hs : s.slots.size = a.store.slots.size) :
    ({ a with store := s } : Arena).Laid :=
  h.extend (Nat.le_of_eq hs.symm) .cell fun x i hx => .inl (by cases x <;> exact hx)

section Runs

variable [BEq Datum] {a b : Arena} {op : Op} {ops : List Op}

theorem Laid.of_apply (h : a.Laid) (hl : a.store.Linked) (hop : a.apply op = .ok b) : b.Laid := by
  rcases store_of_apply hop with rfl | ⟨-, hb, hs⟩
  · cases op with
    | makeCell value => exact h.makeCell value
    | makeVector length value => exact h.makeVector length value
    | _ => exact h
  · rw [hb]
    refine h.with_store ?_
    rcases hs with ⟨cell, value, hs⟩ | hs | hs | ⟨target, hs⟩ | hs
    · rw [hs, Store.size_slots_set]
    · rw [hs, Store.slots_push]
    · exact hl.size_of_pop hs
    · exact (hl.popMany_spec (Store.popUntil_eq_ok.mp hs).2).2.2
    · exact Store.size_slots_commit hs

/-! ### Runs from the empty arena -/

/-- An addition is a write of the sum. -/
theorem exists_set_of_add {cell : Nat} {delta : Int} (hop : a.apply (.add cell delta) = .ok b) :
    ∃ address sum, b = { a with store := a.store.set address (.int sum) } := by
  obtain ⟨⟨sum, c⟩, hadd, hop⟩ := bind_eq_ok.mp hop
  obtain ⟨address, -, hadd⟩ := bind_eq_ok.mp hadd
  obtain ⟨⟨sum', store⟩, hstore, hadd⟩ := bind_eq_ok.mp hadd
  cases hadd
  cases hop
  simp only [Store.add] at hstore
  split at hstore
  · cases hstore
  · cases hstore
    exact ⟨address, sum, rfl⟩

/-- How an operation moves the current world. -/
theorem world_of_apply (hl : a.store.Linked) (hop : a.apply op = .ok b) :
    op.world? 0 a.store.world = some b.store.world := by
  cases op with
  | makeCell value | makeVector length value =>
    cases hop
    rfl
  | set cell value =>
    obtain ⟨address, -, hop⟩ := bind_eq_ok.mp hop
    cases hop
    exact congrArg some (Store.world_set ..).symm
  | setAt vector place value =>
    obtain ⟨address, -, hop⟩ := bind_eq_ok.mp hop
    cases hop
    exact congrArg some (Store.world_set ..).symm
  | add cell delta =>
    obtain ⟨address, sum, rfl⟩ := exists_set_of_add hop
    exact congrArg some (Store.world_set ..).symm
  | push =>
    cases hop
    exact congrArg some (Store.world_push _).symm
  | pop =>
    obtain ⟨s, hs, hop⟩ := bind_eq_ok.mp hop
    cases hop
    have hw := hl.world_of_pop hs
    rw [Op.world?, if_pos (Store.world_pos_of_pop hs)]
    exact congrArg some (show a.store.world - 1 = s.world by omega)
  | popUntil target =>
    obtain ⟨s, hs, hop⟩ := bind_eq_ok.mp hop
    cases hop
    obtain ⟨hle, hs⟩ := Store.popUntil_eq_ok.mp hs
    have hw := (hl.popMany_spec hs).2.1
    rw [Op.world?, if_pos ⟨Nat.zero_le _, hle⟩]
    exact congrArg some (show target = s.world by omega)
  | commit =>
    obtain ⟨s, hs, hop⟩ := bind_eq_ok.mp hop
    cases hop
    obtain ⟨t, ht, -, hw, -⟩ := hl.exists_commit (Store.world_pos_of_commit hs)
    cases hs.symm.trans ht
    rw [Op.world?, if_pos (Store.world_pos_of_commit hs)]
    exact congrArg some (show a.store.world - 1 = s.world by omega)

/-- The run: the stamps stay linked, the sites stay apart, and the worlds are those that the operations leave open. -/
theorem kept_of_run (h : a.run ops = .ok b) (hl : a.store.Linked) (hlaid : a.Laid) :
    b.store.Linked ∧ b.Laid ∧ worldAfter? 0 a.store.world ops = some b.store.world := by
  induction ops generalizing a with
  | nil =>
    cases h
    exact ⟨hl, hlaid, rfl⟩
  | cons op ops ih =>
    obtain ⟨c, hop, h⟩ := bind_eq_ok.mp h
    obtain ⟨hl', hlaid', hworld⟩ := ih h (linked_of_apply hl hop) (hlaid.of_apply hl hop)
    refine ⟨hl', hlaid', ?_⟩
    rw [worldAfter?, world_of_apply hl hop]
    exact hworld

/-- **The trail chains the worlds of every cell.** After any operations on the empty arena, the worlds whose segments
record a cell or an element are linked by the stamps that were saved: each segment records it once, the oldest of
these records saved stamp zero, every other one the world of the record before it, and the slot bears the world of
the last. The sites have slots of their own, so the records of one are not those of another. The segments make up the
trail, their starts do not decrease, and there is one for each world that the operations left open. -/
theorem trail_chained (h : ({} : Arena).run ops = .ok a) :
    (∀ site i, a.address site = .ok i →
      ∃ slot worlds, a.store.slots[i]? = some slot ∧ a.store.Chained i slot.stamp worlds) ∧
      (∀ site site' i, a.address site = .ok i → a.address site' = .ok i → site = site') ∧
      a.store.Segmented ∧ worldAfter? 0 0 ops = some a.store.starts.size := by
  obtain ⟨hl, hlaid, hworld⟩ := kept_of_run h Store.linked_empty laid_empty
  refine ⟨fun site i hi => ?_, hlaid.injective, hl.segmented, hworld⟩
  have hlt := hlaid.lt site i hi
  have hslot : a.store.slots[i]? = some a.store.slots[i] := Array.getElem?_eq_getElem hlt
  obtain ⟨worlds, hworlds⟩ := hl.exists_chained hslot
  exact ⟨_, worlds, hslot, hworlds⟩

end Runs

/-- A cell is written in world one, and in world two by the commit of world three; the stamps saved are zero and
one. -/
theorem trail_chained_of_committed :
    let ops : List Op := [.makeVector 2 (.bool false), .makeCell (.int 3), .push, .set 0 (.int 4), .push, .push,
      .set 0 (.int 5), .commit]
    ∃ a, ({} : Arena).run ops = .ok a ∧ a.address (.cell 0) = .ok 2 ∧
      (∃ slot worlds, a.store.slots[2]? = some slot ∧ a.store.Chained 2 slot.stamp worlds) ∧
      a.store.stamp? 2 = some 2 ∧ [1, 2].map (fun w => (a.store.segment w).map Record.stamp) = [[0], [1]] := by
  intro ops
  have hrun : ({} : Arena).run ops = .ok _ := rfl
  exact ⟨_, hrun, by decide, (trail_chained hrun).1 (.cell 0) 2 (by decide), by decide, by decide⟩

end Arena

end FiniteDomain
