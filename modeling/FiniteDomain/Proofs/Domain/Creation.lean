import FiniteDomain.Proofs.Domain.Extent
import FiniteDomain.Proofs.Store.Steps

/-!
# New domains

A domain that was just created is well-formed and has the values it was created with. It lives in new cells.

* `bounded_spec`, `enumerated_spec`: in the world of the creation;
* `enumerated_popMany`, `not_has_blank`: in the worlds below. The words of an enumerated domain are clear there,
  so it has no value.
-/

namespace FiniteDomain

/-! ### The universe of some values -/

/-- Values in increasing order, of which there is one, and which a variable can take. -/
structure Increasing (values : Array Int) : Prop where
  nonempty : 0 < values.size
  sorted : values.toList.Pairwise (· < ·)
  fits : ∀ v ∈ values, Value.Fits v

namespace Increasing

variable {values : Array Int} (h : Increasing values)

include h

theorem getElem_lt {i j : Nat} (hj : j < values.size) (hij : i < j) : values[i] < values[j] :=
  List.pairwise_iff_getElem.mp h.sorted i j (Nat.lt_trans hij hj) hj hij

theorem getElem_le {i j : Nat} (hj : j < values.size) (hij : i ≤ j) : values[i] ≤ values[j] := by
  rcases Nat.eq_or_lt_of_le hij with rfl | hij
  · exact Int.le_refl _
  · exact Int.le_of_lt (h.getElem_lt hj hij)

theorem first_mem : values[0]?.getD 0 ∈ values := by
  have hpos := h.nonempty
  rw [Array.getElem?_eq_getElem hpos]
  exact Array.getElem_mem hpos

theorem last_mem : values.back?.getD 0 ∈ values := by
  have hlast := Nat.sub_one_lt_of_lt h.nonempty
  rw [Array.back?, Array.getElem?_eq_getElem hlast]
  exact Array.getElem_mem hlast

theorem first_le {v : Int} (hv : v ∈ values) : values[0]?.getD 0 ≤ v := by
  obtain ⟨i, hi, rfl⟩ := Array.mem_iff_getElem.mp hv
  rw [Array.getElem?_eq_getElem h.nonempty]
  exact h.getElem_le hi (Nat.zero_le i)

theorem le_last {v : Int} (hv : v ∈ values) : v ≤ values.back?.getD 0 := by
  obtain ⟨i, hi, rfl⟩ := Array.mem_iff_getElem.mp hv
  have hlast := Nat.sub_one_lt_of_lt h.nonempty
  rw [Array.back?, Array.getElem?_eq_getElem hlast]
  exact h.getElem_le hlast (by omega)

theorem ofSorted_eq : Universe.ofSorted values =
    if values.back?.getD 0 - values[0]?.getD 0 + 1 ≤ values.size * Universe.spread then
      .dense (values[0]?.getD 0) (values.back?.getD 0 - values[0]?.getD 0 + 1).toNat
    else .sparse values := by
  rw [Universe.ofSorted, Array.back?, Array.getElem?_eq_getElem h.nonempty,
    Array.getElem?_eq_getElem (Nat.sub_one_lt_of_lt h.nonempty)]
  rfl

theorem ordered_ofSorted : (Universe.ofSorted values).Ordered := by
  have hfirst := h.fits _ h.first_mem
  have hlast := h.fits _ h.last_mem
  rw [h.ofSorted_eq]
  split
  · refine ⟨fun i v hi => ?_, fun i j v w hi hj hij => ?_⟩
    · obtain ⟨hlt, ⟨⟩⟩ := Option.ite_none_right_eq_some.mp hi
      simp only [Value.Fits] at *
      omega
    · obtain ⟨-, ⟨⟩⟩ := Option.ite_none_right_eq_some.mp hi
      obtain ⟨-, ⟨⟩⟩ := Option.ite_none_right_eq_some.mp hj
      omega
  · refine ⟨fun i v hi => h.fits v (Array.mem_of_getElem? hi), fun i j v w hi hj hij => ?_⟩
    obtain ⟨-, rfl⟩ := Array.getElem?_eq_some_iff.mp hi
    obtain ⟨hlt, rfl⟩ := Array.getElem?_eq_some_iff.mp hj
    exact h.getElem_lt hlt hij

/-- Every value has a place. -/
theorem exists_place {v : Int} (hv : v ∈ values) : ∃ k, (Universe.ofSorted values).valueAt? k = some v := by
  rw [h.ofSorted_eq]
  split
  · have h1 := h.first_le hv
    have h2 := h.le_last hv
    refine ⟨(v - values[0]?.getD 0).toNat, Option.ite_none_right_eq_some.mpr ⟨by omega, congrArg some (by omega)⟩⟩
  · obtain ⟨i, hi, rfl⟩ := Array.mem_iff_getElem.mp hv
    exact ⟨i, Array.getElem?_eq_getElem hi⟩

end Increasing

/-! ### The words of some values -/

namespace Domain

/-- A row of words, clear behind its end. -/
def rowOf (words : Array UInt64) (j : Nat) : UInt64 := words[j]?.getD 0

theorem has_rowOf_modify {words : Array UInt64} {k i : Nat} (hk : k / Word.width < words.size) :
    Words.has (rowOf (words.modify (k / Word.width) fun w => Word.insert w (k % Word.width))) i =
      (decide (k = i) || Words.has (rowOf words) i) := by
  have hmod : ∀ n, n % Word.width < Word.width := fun n => Nat.mod_lt n (by decide)
  simp only [Words.has, rowOf, Array.getElem?_modify]
  by_cases hq : k / Word.width = i / Word.width
  · rw [hq] at hk
    have hget : words[i / Word.width]? = some words[i / Word.width] := Array.getElem?_eq_getElem hk
    rw [if_pos hq, hget, Option.map_some, Option.getD_some, Option.getD_some, Word.bit_insert (hmod k) (hmod i)]
    have hiff : k % Word.width = i % Word.width ↔ k = i := by
      constructor
      · intro hr
        rw [← Nat.div_add_mod k Word.width, ← Nat.div_add_mod i Word.width, hq, hr]
      · rintro rfl
        rfl
    simp only [hiff]
  · have hne : k ≠ i := by
      rintro rfl
      exact hq rfl
    rw [if_neg hq, decide_eq_false hne, Bool.false_or]

theorem has_rowOf_replicate (n i : Nat) : Words.has (rowOf (Array.replicate n 0)) i = false := by
  have hzero : rowOf (Array.replicate n 0) (i / Word.width) = 0 := by
    rw [rowOf, Array.getElem?_replicate]
    split <;> rfl
  rw [Words.has, hzero, Word.bit_eq_getLsbD (Nat.mod_lt _ (by decide))]
  exact BitVec.getLsbD_zero

/-- The words with the place of a value set. -/
def marked (u : Universe) (words : Array UInt64) (v : Int) : Array UInt64 :=
  match u.index? v with
  | some i => words.modify (i / Word.width) fun w => Word.insert w (i % Word.width)
  | none => words

theorem wordsOf_eq (u : Universe) (values : Array Int) :
    wordsOf u values =
      values.toList.foldl (marked u) (Array.replicate ((u.length + (Word.width - 1)) / Word.width) 0) := by
  rw [Array.foldl_toList]
  rfl

@[simp] theorem size_marked (u : Universe) (words : Array UInt64) (v : Int) :
    (marked u words v).size = words.size := by
  rw [marked]
  split
  · exact Array.size_modify
  · rfl

@[simp] theorem size_foldl_marked (u : Universe) (vs : List Int) (words : Array UInt64) :
    (vs.foldl (marked u) words).size = words.size := by
  induction vs generalizing words with
  | nil => rfl
  | cons v vs ih => rw [List.foldl_cons, ih, size_marked]

theorem size_wordsOf (u : Universe) (values : Array Int) :
    (wordsOf u values).size = (u.length + (Word.width - 1)) / Word.width := by
  rw [wordsOf_eq, size_foldl_marked, Array.size_replicate]

section Ordered

variable {u : Universe} (hu : u.Ordered)

include hu

theorem has_marked {words : Array UInt64} (hsize : words.size = (u.length + (Word.width - 1)) / Word.width)
    (v : Int) (i : Nat) :
    Words.has (rowOf (marked u words v)) i = true ↔ u.valueAt? i = some v ∨ Words.has (rowOf words) i = true := by
  rw [marked]
  cases hv : u.index? v with
  | none =>
    have hnone : u.valueAt? i ≠ some v := fun h => by
      rw [hu.index?_eq_some_iff.mpr h] at hv
      cases hv
    simp only [hnone, false_or]
  | some k =>
    have hk := hu.index?_eq_some_iff.mp hv
    have hlt : k / Word.width < words.size := by
      have := Universe.lt_length hk
      rw [hsize]
      simp only [Word.width]
      omega
    have hplace : u.valueAt? i = some v ↔ k = i := ⟨fun h => hu.place_unique hk h, fun h => h ▸ hk⟩
    simp only [has_rowOf_modify hlt, hplace, Bool.or_eq_true, decide_eq_true_eq]

theorem has_foldl_marked (vs : List Int) {words : Array UInt64}
    (hsize : words.size = (u.length + (Word.width - 1)) / Word.width) (i : Nat) :
    Words.has (rowOf (vs.foldl (marked u) words)) i = true ↔
      (∃ v ∈ vs, u.valueAt? i = some v) ∨ Words.has (rowOf words) i = true := by
  induction vs generalizing words with
  | nil => simp
  | cons v vs ih =>
    rw [List.foldl_cons, ih (by rw [size_marked, hsize]), has_marked hu hsize]
    simp only [List.mem_cons, exists_eq_or_imp]
    exact or_left_comm.trans or_assoc.symm

/-- The words are set at the places of the values and nowhere else. -/
theorem has_wordsOf (values : Array Int) (i : Nat) :
    Words.has (rowOf (wordsOf u values)) i = true ↔ ∃ v ∈ values, u.valueAt? i = some v := by
  rw [wordsOf_eq, has_foldl_marked hu _ Array.size_replicate, has_rowOf_replicate]
  simp

end Ordered

/-! ### The cells of a new domain -/

/-- The domain was made in cells that the store did not have before. -/
structure Fresh (s : Store Datum) (d : Domain) (t : Store Datum) : Prop where
  steps : Store.Steps (s.slots.size ≤ ·) s t
  low : ∀ c, d.Owns c → s.slots.size ≤ c
  high : ∀ c, d.Owns c → c < t.slots.size

theorem bounded_fresh (s : Store Datum) (lb ub : Int) :
    Fresh s (bounded s lb ub).1 (bounded s lb ub).2 := by
  simp only [bounded, Store.make_eq_grow]
  refine ⟨.grow _ (.grow _ .refl), ?_, ?_⟩
  · rintro c (rfl | rfl | ⟨m, hm, -⟩)
    · exact Nat.le_refl _
    · simp
    · cases hm
  · rintro c (rfl | rfl | ⟨m, hm, -⟩)
    · simp only [Store.size_slots_grow, List.length_singleton]
      omega
    · simp
    · cases hm

/-- The words of a row are written one after the other. -/
theorem writeWords_writes (s : Store Datum) (cell : Nat) (words : List UInt64) :
    Store.Writes (cell ≤ ·) s (writeWords s cell words) := by
  induction words generalizing s cell with
  | nil => exact .refl
  | cons w rest ih =>
    rw [writeWords]
    exact (Store.Writes.one (Nat.le_refl cell) _).trans ((ih _ _).mono fun c hc => Nat.le_of_succ_le hc)

theorem enumerated_fresh (s : Store Datum) (values : Array Int) :
    Fresh s (enumerated s values).1 (enumerated s values).2 := by
  simp only [enumerated, Store.make_eq_grow, Store.makeMany_eq_grow]
  generalize wordsOf (Universe.ofSorted values) values = words
  have hwrites := writeWords_writes (s.grow (List.replicate words.size (.word 0))) s.slots.size words.toList
  have hsize := hwrites.size_eq
  rw [Store.size_slots_grow, List.length_replicate] at hsize
  refine ⟨.grow _ (.grow _ (.grow _ (.writes (.grow _ .refl) hwrites))), ?_, ?_⟩
  · simp only [Store.size_slots_grow, hsize]
    rintro c (rfl | rfl | ⟨m, hm, rfl | ⟨j, -, rfl⟩⟩)
    · exact Nat.le_add_right _ _
    · simp only
      omega
    · cases hm
      simp only
      omega
    · cases hm
      exact Nat.le_add_right _ _
  · simp only [Store.size_slots_grow, hsize, List.length_singleton]
    rintro c (rfl | rfl | ⟨m, hm, rfl | ⟨j, hj, rfl⟩⟩)
    · simp only
      omega
    · simp only
      omega
    · cases hm
      simp only
      omega
    · cases hm
      simp only [Block.cell] at hj ⊢
      omega

theorem word_writeWords {words : List UInt64} {s : Store Datum} {cell j : Nat}
    (hfit : cell + words.length ≤ s.slots.size) (hj : j < words.length) :
    (writeWords s cell words).word (cell + j) = words[j] := by
  induction words generalizing s cell j with
  | nil => exact absurd hj (Nat.not_lt_zero j)
  | cons w rest ih =>
    rw [List.length_cons] at hfit hj
    rw [writeWords]
    cases j with
    | zero =>
      have hw := writeWords_writes (s.set cell (.word w)) (cell + 1) rest
      have hkept : (writeWords (s.set cell (.word w)) (cell + 1) rest).word cell = (s.set cell (.word w)).word cell := by
        rw [Store.word, hw.get?_eq (Nat.not_succ_le_self cell), Store.word]
      exact hkept.trans (Store.word_set_self s (by omega) w)
    | succ j =>
      rw [show cell + (j + 1) = cell + 1 + j by omega]
      exact ih (by rw [Store.size_slots_set]; omega) (Nat.lt_of_succ_lt_succ hj)

section Enumerated

variable (s : Store Datum) (values : Array Int)

/-- The number of words of the universe of the values. -/
def wordCount (values : Array Int) : Nat := (wordsOf (Universe.ofSorted values) values).size

/-- What the cells of a new enumerated domain hold before its words are written. -/
def blank (values : Array Int) : List Datum :=
  List.replicate (wordCount values) (.word 0) ++
    [.int (values[0]?.getD 0), .int (values.back?.getD 0), .int values.size]

/-- The cells of a new enumerated domain, from the first that is free. -/
theorem enumerated_fst : (enumerated s values).1 =
    ⟨s.slots.size + wordCount values, s.slots.size + wordCount values + 1,
      some ⟨s.slots.size + wordCount values + 2, .ofSorted values, ⟨s.slots.size, wordCount values⟩⟩⟩ := by
  have hsize := (writeWords_writes (s.grow (List.replicate (wordCount values) (.word 0))) s.slots.size
    (wordsOf (.ofSorted values) values).toList).size_eq
  rw [Store.size_slots_grow, List.length_replicate] at hsize
  simp only [enumerated, Store.make_eq_grow, Store.makeMany_eq_grow, Store.size_slots_grow, List.length_singleton]
  rw [← wordCount, hsize]

/-- The words are written, and the three numbers are made after them. -/
theorem enumerated_snd : (enumerated s values).2 =
    (writeWords (s.grow (List.replicate (wordCount values) (.word 0))) s.slots.size
      (wordsOf (.ofSorted values) values).toList).grow
        [.int (values[0]?.getD 0), .int (values.back?.getD 0), .int values.size] := by
  simp only [enumerated, Store.make_eq_grow, Store.makeMany_eq_grow, Store.grow_grow, List.cons_append,
    List.nil_append]
  rfl

/-- In the worlds below, the words are as they were before they were written. -/
theorem enumerated_popMany {s : Store Datum} (hs : s.Linked) (values : Array Int) {n : Nat} {t : Store Datum}
    (h : (enumerated s values).2.popMany (n + 1) = .ok t) :
    ∃ u, s.popMany (n + 1) = .ok u ∧ t = u.grow (blank values) := by
  have hblank := hs.grow (List.replicate (wordCount values) (.word 0))
  have hwrites := writeWords_writes (s.grow (List.replicate (wordCount values) (.word 0))) s.slots.size
    (wordsOf (.ofSorted values) values).toList
  rw [enumerated_snd, (hwrites.linked hblank).popMany_grow] at h
  obtain ⟨t', ht, rfl⟩ := map_eq_ok.mp h
  have hbelow := hwrites.popMany_succ hblank ht
  rw [hs.popMany_grow] at hbelow
  obtain ⟨u, hu, rfl⟩ := map_eq_ok.mp hbelow
  exact ⟨u, hu, Store.grow_grow _ _ _⟩

/-- What a new enumerated domain holds. -/
theorem enumerated_cells : ∀ i (hi : i < 3), (enumerated s values).2.get? (s.slots.size + wordCount values + i) =
    some [Datum.int (values[0]?.getD 0), .int (values.back?.getD 0), .int values.size][i] := by
  have hsize := (writeWords_writes (s.grow (List.replicate (wordCount values) (.word 0))) s.slots.size
    (wordsOf (.ofSorted values) values).toList).size_eq
  rw [Store.size_slots_grow, List.length_replicate] at hsize
  intro i hi
  rw [enumerated_snd, ← hsize]
  exact Store.get?_grow_add _ hi

theorem lb_enumerated : (enumerated s values).1.lb (enumerated s values).2 = values[0]?.getD 0 := by
  rw [lb, Store.int, enumerated_fst, ← Nat.add_zero (s.slots.size + wordCount values), enumerated_cells s values 0 (by decide)]
  rfl

theorem ub_enumerated : (enumerated s values).1.ub (enumerated s values).2 = values.back?.getD 0 := by
  rw [ub, Store.int, enumerated_fst, enumerated_cells s values 1 (by decide)]
  rfl

theorem int_size_enumerated : (enumerated s values).2.int (s.slots.size + wordCount values + 2) = values.size := by
  rw [Store.int, enumerated_cells s values 2 (by decide)]
  rfl

theorem word_enumerated {j : Nat} (hj : j < wordCount values) :
    (enumerated s values).2.word (s.slots.size + j) = rowOf (wordsOf (.ofSorted values) values) j := by
  have hwrites := writeWords_writes (s.grow (List.replicate (wordCount values) (.word 0))) s.slots.size
    (wordsOf (.ofSorted values) values).toList
  have hsize := hwrites.size_eq
  rw [Store.size_slots_grow, List.length_replicate] at hsize
  rw [enumerated_snd, Store.word, Store.get?_grow_of_lt (by omega), ← Store.word,
    word_writeWords (by rw [Store.size_slots_grow, List.length_replicate]; exact Nat.le_refl _) hj]
  rw [rowOf, Array.getElem?_eq_getElem hj]
  rfl

theorem has_row_enumerated {m : Members} (hm : (enumerated s values).1.members = some m) {i : Nat}
    (hi : i < m.places.length) :
    Words.has (m.row (enumerated s values).2) i = Words.has (rowOf (wordsOf (.ofSorted values) values)) i := by
  rw [enumerated_fst] at hm
  cases hm
  have hj : i / Word.width < wordCount values := by
    rw [wordCount, size_wordsOf]
    simp only [Word.width] at *
    omega
  rw [Words.has, Words.has]
  exact congrArg (fun w => Word.bit w (i % Word.width)) (word_enumerated s values hj)

end Enumerated

/-- The cells of a new enumerated domain differ, and its places are ordered. -/
theorem shaped_enumerated (s : Store Datum) {values : Array Int} (h : Increasing values) :
    (enumerated s values).1.Shaped := by
  rw [enumerated_fst]
  refine ⟨Nat.ne_of_lt (Nat.lt_succ_self _), fun m hm => ?_⟩
  cases hm
  refine ⟨h.ordered_ofSorted, fun i hi => ?_, by simp only; omega, fun j hj => ?_⟩
  · simp only [wordCount, size_wordsOf, Word.width] at *
    omega
  · simp only [Block.cell] at *
    omega

/-- The place of a value is marked if it is one of the values. -/
theorem has_row_enumerated_iff (s : Store Datum) {values : Array Int} (h : Increasing values) {m : Members}
    (hm : (enumerated s values).1.members = some m) {i : Nat} {v : Int} (hi : m.places.valueAt? i = some v) :
    Words.has (m.row (enumerated s values).2) i = true ↔ v ∈ values := by
  rw [has_row_enumerated s values hm (Universe.lt_length hi)]
  rw [enumerated_fst] at hm
  cases hm
  rw [has_wordsOf h.ordered_ofSorted]
  exact ⟨fun ⟨w, hw, hiw⟩ => Option.some.inj (hi.symm.trans hiw) ▸ hw, fun hv => ⟨v, hv, hi⟩⟩

theorem has_enumerated_iff (s : Store Datum) {values : Array Int} (h : Increasing values) (v : Int) :
    (enumerated s values).1.Has (enumerated s values).2 v ↔ v ∈ values := by
  rw [has_iff (shaped_enumerated s h), lb_enumerated, ub_enumerated]
  constructor
  · rintro ⟨-, -, hm⟩
    have hmembers := congrArg Domain.members (enumerated_fst s values)
    obtain ⟨i, hi, hb⟩ := hm _ hmembers
    exact (has_row_enumerated_iff s h hmembers hi).mp hb
  · refine fun hv => ⟨h.first_le hv, h.le_last hv, fun m hm => ?_⟩
    obtain ⟨i, hi⟩ := h.exists_place hv
    have hi : m.places.valueAt? i = some v := by
      rw [enumerated_fst] at hm
      cases hm
      exact hi
    exact ⟨i, hi, (has_row_enumerated_iff s h hm hi).mpr hv⟩

/-- Between the places of the bounds all values are counted. -/
theorem count_row_enumerated (s : Store Datum) {values : Array Int} (h : Increasing values) {m : Members}
    (hm : (enumerated s values).1.members = some m) {i j : Nat}
    (hi : m.places.valueAt? i = some ((enumerated s values).1.lb (enumerated s values).2))
    (hj : m.places.valueAt? j = some ((enumerated s values).1.ub (enumerated s values).2)) :
    Words.count (m.row (enumerated s values).2) i j = values.toList.length := by
  have hordered := ((shaped_enumerated s h).members m hm).ordered
  refine hordered.count_eq_length (Universe.lt_length hj) h.sorted fun v => ⟨fun hv => ?_, ?_⟩
  · have hv := Array.mem_toList_iff.mp hv
    obtain ⟨hle, hge, hmem⟩ := (has_iff (shaped_enumerated s h) _ _).mp ((has_enumerated_iff s h v).mpr hv)
    obtain ⟨k, hk, hb⟩ := hmem m hm
    exact ⟨k, (hordered.le_iff hi hk).mp hle, (hordered.le_iff hk hj).mp hge, hk, hb⟩
  · rintro ⟨k, -, -, hk, hb⟩
    exact Array.mem_toList_iff.mpr ((has_row_enumerated_iff s h hm hk).mp hb)

/-- **A new enumerated domain** is well-formed and has the values it was made of. -/
theorem enumerated_spec (s : Store Datum) {values : Array Int} (h : Increasing values)
    (hcount : (values.size : Int) ≤ Value.greatest) :
    (enumerated s values).1.WellFormed (enumerated s values).2 ∧
      ∀ v, (enumerated s values).1.Has (enumerated s values).2 v ↔ v ∈ values := by
  have hlb := lb_enumerated s values
  have hub := ub_enumerated s values
  have hhas := has_enumerated_iff s h
  have hsize : ∀ m, (enumerated s values).1.members = some m → (enumerated s values).2.int m.size = values.size := by
    intro m hm
    rw [enumerated_fst] at hm
    cases hm
    exact int_size_enumerated s values
  refine ⟨⟨shaped_enumerated s h, (enumerated_fresh s values).high, hlb ▸ h.fits _ h.first_mem,
    hub ▸ h.fits _ h.last_mem, (hhas _).mpr (hlb ▸ h.first_mem), (hhas _).mpr (hub ▸ h.last_mem),
    fun m i j hm hi hj => ?_, fun m hm => ?_⟩, hhas⟩
  · rw [count_row_enumerated s h hm hi hj, hsize m hm]
    rfl
  · rw [hsize m hm]
    simp only [Value.Fits, Value.least, Value.greatest] at *
    omega

/-- In the worlds below that of its creation an enumerated domain has no value. -/
theorem not_has_blank {values : Array Int} (h : Increasing values) (s u : Store Datum)
    (hsize : u.slots.size = s.slots.size) (v : Int) : ¬(enumerated s values).1.Has (u.grow (blank values)) v := by
  intro hv
  obtain ⟨-, -, hmem⟩ := (has_iff (shaped_enumerated s h) _ _).mp hv
  obtain ⟨i, hi, hb⟩ := hmem _ (congrArg Domain.members (enumerated_fst s values))
  have hj : i / Word.width < wordCount values := by
    have := Universe.lt_length hi
    simp only [wordCount, size_wordsOf, Word.width] at *
    omega
  have hzero : (u.grow (blank values)).word (s.slots.size + i / Word.width) = 0 := by
    rw [Store.word, ← hsize, Store.get?_grow_add _ (by simp [blank]; omega)]
    simp only [blank]
    rw [List.getElem_append_left (by rwa [List.length_replicate]), List.getElem_replicate]
  have hclear : Words.has (Members.row ⟨s.slots.size + wordCount values + 2, .ofSorted values,
      ⟨s.slots.size, wordCount values⟩⟩ (u.grow (blank values))) i = Word.bit 0 (i % Word.width) :=
    congrArg (fun w => Word.bit w (i % Word.width)) hzero
  rw [hclear, Word.bit_eq_getLsbD (Nat.mod_lt _ (by decide))] at hb
  simp at hb

/-! ### A new interval -/

theorem bounded_eq (s : Store Datum) (lb ub : Int) :
    bounded s lb ub = (⟨s.slots.size, s.slots.size + 1, none⟩, s.grow [.int lb, .int ub]) := by
  simp only [bounded, Store.make_eq_grow, Store.size_slots_grow, Store.grow_grow, List.length_singleton,
    List.cons_append, List.nil_append]

/-- **A new interval** is well-formed and has the values from one bound to the other. -/
theorem bounded_spec (s : Store Datum) {lb ub : Int} (hle : lb ≤ ub) (hlb : Value.Fits lb) (hub : Value.Fits ub) :
    (bounded s lb ub).1.WellFormed (bounded s lb ub).2 ∧
      ∀ v, (bounded s lb ub).1.Has (bounded s lb ub).2 v ↔ lb ≤ v ∧ v ≤ ub := by
  have hfresh := bounded_fresh s lb ub
  rw [bounded_eq] at hfresh ⊢
  have hshaped : (Domain.mk s.slots.size (s.slots.size + 1) none).Shaped :=
    ⟨Nat.ne_of_lt (Nat.lt_succ_self _), fun m hm => by cases hm⟩
  have hl : (Domain.mk s.slots.size (s.slots.size + 1) none).lb (s.grow [.int lb, .int ub]) = lb := by
    have hget : (s.grow [.int lb, .int ub]).get? (s.slots.size + 0) = some (.int lb) :=
      s.get?_grow_add Nat.zero_lt_two
    rw [Nat.add_zero] at hget
    rw [Domain.lb, Store.int, hget]
  have hu : (Domain.mk s.slots.size (s.slots.size + 1) none).ub (s.grow [.int lb, .int ub]) = ub := by
    have hget : (s.grow [.int lb, .int ub]).get? (s.slots.size + 1) = some (.int ub) :=
      s.get?_grow_add Nat.one_lt_two
    rw [Domain.ub, Store.int, hget]
  have hhas : ∀ v, (Domain.mk s.slots.size (s.slots.size + 1) none).Has (s.grow [.int lb, .int ub]) v ↔
      lb ≤ v ∧ v ≤ ub := by
    intro v
    rw [has_iff hshaped, hl, hu]
    exact ⟨fun h => ⟨h.1, h.2.1⟩, fun h => ⟨h.1, h.2, fun m hm => by cases hm⟩⟩
  refine ⟨⟨hshaped, hfresh.high, ?_, ?_, (hhas _).mpr ?_, (hhas _).mpr ?_, fun m _ _ hm => ?_, fun m hm => ?_⟩, hhas⟩
  · rwa [hl]
  · rwa [hu]
  · rw [hl]
    exact ⟨Int.le_refl lb, hle⟩
  · rw [hu]
    exact ⟨hle, Int.le_refl ub⟩
  · cases hm
  · cases hm

end Domain

end FiniteDomain
