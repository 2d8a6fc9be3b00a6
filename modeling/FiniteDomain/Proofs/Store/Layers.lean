import FiniteDomain.Store.Datum

/-!
# The layers of a trail

The trail of a store is cut into layers, one for each open world, and `ofLayers` puts a store together from
its slots and its layers. In this view pushing adds an empty layer, popping restores what the innermost layer
recorded (`pop_ofLayers`), and committing hands the records that still matter to the layer below
(`commit_ofLayers`).
-/

namespace FiniteDomain

namespace Store

variable {α : Type}

/-- The records of one world, newest first. -/
abbrev Layer (α : Type) := List (Record α)

/-- For each layer the number of records below it, innermost first. -/
def offsets : List (Layer α) → List Nat
  | [] => []
  | _ :: rest => rest.flatten.length :: offsets rest

@[simp] theorem length_offsets (layers : List (Layer α)) : (offsets layers).length = layers.length := by
  induction layers with
  | nil => rfl
  | cons layer rest ih => simp [offsets, ih]

/-- A store with the given slots and layers, the innermost layer first. -/
def ofLayers (slots : Array (Slot α)) (layers : List (Layer α)) : Store α :=
  ⟨slots, layers.flatten.reverse.toArray, (offsets layers).reverse.toArray⟩

@[simp] theorem world_ofLayers (slots : Array (Slot α)) (layers : List (Layer α)) :
    (ofLayers slots layers).world = layers.length := by simp [world, ofLayers]

/-- The slots after the records of a layer were undone. -/
def restored (slots : Array (Slot α)) (layer : Layer α) : Array (Slot α) :=
  layer.foldl (fun slots r => slots.setIfInBounds r.cell ⟨r.value, r.stamp⟩) slots

/-- The records of one cell in a layer. -/
def recordsOf (cell : Nat) (layer : Layer α) : Layer α := layer.filter fun r => r.cell = cell

@[simp] theorem size_restored (slots : Array (Slot α)) (layer : Layer α) :
    (restored slots layer).size = slots.size := by
  induction layer generalizing slots with
  | nil => rfl
  | cons r rest ih => simpa [restored] using ih (slots.setIfInBounds r.cell ⟨r.value, r.stamp⟩)

/-! ### What a layer restores -/

theorem recordsOf_cons (cell : Nat) (r : Record α) (layer : Layer α) :
    recordsOf cell (r :: layer) = if r.cell = cell then r :: recordsOf cell layer else recordsOf cell layer := by
  simp [recordsOf, List.filter_cons]

theorem recordsOf_append (cell : Nat) (a b : Layer α) :
    recordsOf cell (a ++ b) = recordsOf cell a ++ recordsOf cell b := by simp [recordsOf]

theorem recordsOf_filter (cell : Nat) (p : Record α → Bool) (layer : Layer α) :
    recordsOf cell (layer.filter p) = (recordsOf cell layer).filter p := by
  simp [recordsOf, List.filter_filter, Bool.and_comm]

/-- The oldest record of a cell decides what it gets back. -/
theorem getElem?_restored (slots : Array (Slot α)) (layer : Layer α) (i : Nat) :
    (restored slots layer)[i]? =
      match (recordsOf i layer).getLast? with
      | none => slots[i]?
      | some r => slots[i]?.map fun _ => ⟨r.value, r.stamp⟩ := by
  induction layer generalizing slots with
  | nil => rfl
  | cons r rest ih =>
    have hstep : restored slots (r :: rest) = restored (slots.setIfInBounds r.cell ⟨r.value, r.stamp⟩) rest := rfl
    rw [hstep, ih, recordsOf_cons, Array.getElem?_setIfInBounds]
    by_cases hc : r.cell = i
    · subst hc
      cases hl : (recordsOf r.cell rest).getLast? with
      | none => by_cases hb : r.cell < slots.size <;> simp [List.getLast?_cons, hl, hb]
      | some x => by_cases hb : r.cell < slots.size <;> simp [List.getLast?_cons, hl, hb]
    · simp [hc]

theorem getElem?_restored_of_nil {slots : Array (Slot α)} {layer : Layer α} {i : Nat}
    (h : recordsOf i layer = []) : (restored slots layer)[i]? = slots[i]? := by
  rw [getElem?_restored, h]
  rfl

theorem getElem?_restored_of_singleton {slots : Array (Slot α)} {layer : Layer α} {i : Nat} {r : Record α}
    (h : recordsOf i layer = [r]) : (restored slots layer)[i]? = slots[i]?.map fun _ => ⟨r.value, r.stamp⟩ := by
  rw [getElem?_restored, h]
  rfl

/-- What a recorded cell holds does not matter, for it is restored. -/
theorem restored_setIfInBounds {layer : Layer α} {cell : Nat} (h : recordsOf cell layer ≠ [])
    (slots : Array (Slot α)) (slot : Slot α) :
    restored (slots.setIfInBounds cell slot) layer = restored slots layer := by
  apply Array.ext_getElem?
  intro i
  rw [getElem?_restored, getElem?_restored]
  by_cases hi : cell = i
  · subst hi
    cases hl : (recordsOf cell layer).getLast? with
    | none => exact absurd (List.getLast?_eq_none_iff.mp hl) h
    | some r => by_cases hb : cell < slots.size <;> simp [hb]
  · rw [Array.getElem?_setIfInBounds_ne hi]

theorem restored_append_slots {layer : Layer α} {slots : Array (Slot α)}
    (h : ∀ r ∈ layer, r.cell < slots.size) (more : Array (Slot α)) :
    restored (slots ++ more) layer = restored slots layer ++ more := by
  induction layer generalizing slots with
  | nil => rfl
  | cons r rest ih =>
    have hr : r.cell < slots.size := h r List.mem_cons_self
    have hset : (slots ++ more).setIfInBounds r.cell ⟨r.value, r.stamp⟩ =
        slots.setIfInBounds r.cell ⟨r.value, r.stamp⟩ ++ more := by
      apply Array.ext_getElem?
      intro i
      simp only [Array.getElem?_setIfInBounds, Array.getElem?_append, Array.size_setIfInBounds]
      grind
    have hrest : ∀ q ∈ rest, q.cell < (slots.setIfInBounds r.cell ⟨r.value, r.stamp⟩).size := fun q hq => by
      rw [Array.size_setIfInBounds]
      exact h q (List.mem_cons_of_mem r hq)
    calc restored (slots ++ more) (r :: rest)
        = restored (slots.setIfInBounds r.cell ⟨r.value, r.stamp⟩ ++ more) rest := by
          rw [← hset]; rfl
      _ = restored slots (r :: rest) ++ more := ih hrest

/-! ### Operations on layers -/

theorem push_ofLayers (slots : Array (Slot α)) (layers : List (Layer α)) :
    (ofLayers slots layers).push = ofLayers slots ([] :: layers) := by
  simp [push, ofLayers, offsets]

theorem unwind_eq (slots : Array (Slot α)) (layer below : Layer α) :
    unwind slots (layer ++ below).reverse.toArray below.length =
      (restored slots layer, below.reverse.toArray) := by
  induction layer generalizing slots with
  | nil =>
    rw [unwind, dif_neg (by simp)]
    rfl
  | cons r rest ih =>
    rw [unwind, dif_pos (by simp)]
    have hlast (h : (r :: rest ++ below).reverse.toArray.size - 1 < (r :: rest ++ below).reverse.toArray.size) :
        (r :: rest ++ below).reverse.toArray[(r :: rest ++ below).reverse.toArray.size - 1] = r := by simp
    have hpop : (r :: rest ++ below).reverse.toArray.pop = (rest ++ below).reverse.toArray := by simp
    simp only [hlast, hpop]
    exact ih (slots.setIfInBounds r.cell ⟨r.value, r.stamp⟩)

theorem pop_ofLayers (slots : Array (Slot α)) (layer : Layer α) (rest : List (Layer α)) :
    (ofLayers slots (layer :: rest)).pop = .ok (ofLayers (restored slots layer) rest) := by
  have hback : (offsets (layer :: rest)).reverse.toArray.back? = some rest.flatten.length := by
    simp [offsets]
  have htrail : (layer :: rest).flatten.reverse.toArray = (layer ++ rest.flatten).reverse.toArray := rfl
  have hstarts : (offsets (layer :: rest)).reverse.toArray.pop = (offsets rest).reverse.toArray := by
    simp [offsets]
  simp only [pop, ofLayers, hback, htrail, unwind_eq, hstarts]

theorem pop_ofLayers_push (slots : Array (Slot α)) (layers : List (Layer α)) :
    (ofLayers slots layers).push.pop = .ok (ofLayers slots layers) := by
  rw [push_ofLayers, pop_ofLayers]
  rfl

/-! ### Merging a layer -/

/-- The slots of a layer with another stamp. -/
def restamped (stamp : Nat) (slots : Array (Slot α)) (layer : Layer α) : Array (Slot α) :=
  layer.foldl (fun slots r => slots.modify r.cell fun slot => { slot with stamp }) slots

theorem restamped_cons (stamp : Nat) (slots : Array (Slot α)) (r : Record α) (layer : Layer α) :
    restamped stamp slots (r :: layer) =
      restamped stamp (slots.modify r.cell fun slot => { slot with stamp }) layer := rfl

@[simp] theorem size_restamped (stamp : Nat) (slots : Array (Slot α)) (layer : Layer α) :
    (restamped stamp slots layer).size = slots.size := by
  induction layer generalizing slots with
  | nil => rfl
  | cons r rest ih => rw [restamped_cons, ih, Array.size_modify]

theorem getElem?_restamped (stamp : Nat) (slots : Array (Slot α)) (layer : Layer α) (i : Nat) :
    (restamped stamp slots layer)[i]? =
      if recordsOf i layer = [] then slots[i]? else slots[i]?.map fun slot => { slot with stamp } := by
  induction layer generalizing slots with
  | nil => rfl
  | cons r rest ih =>
    rw [restamped_cons, ih, recordsOf_cons, Array.getElem?_modify]
    by_cases hc : r.cell = i
    · cases slots[i]? <;> simp [hc]
    · simp [hc]

/-- The records of a closed layer that its parent still needs. -/
def kept (parent : Nat) (layer : Layer α) : Layer α := layer.filter fun r => r.stamp ≠ parent

theorem merge_eq (parent : Nat) (slots : Array (Slot α)) (trail : Array (Record α)) (segment : Layer α) :
    merge parent slots trail segment =
      (restamped parent slots segment, trail ++ (kept parent segment).toArray) := by
  induction segment generalizing slots trail with
  | nil => simp [merge, restamped, kept]
  | cons r rest ih =>
    rw [merge, ih, restamped_cons]
    by_cases hr : r.stamp = parent
    · simp [kept, hr]
    · simp [kept, hr]

theorem commit_ofLayers (slots : Array (Slot α)) (layer : Layer α) (rest : List (Layer α)) :
    (ofLayers slots (layer :: rest)).commit =
      .ok ⟨restamped rest.length slots layer.reverse, (kept rest.length layer ++ rest.flatten).reverse.toArray,
        (offsets rest).reverse.toArray⟩ := by
  have hback : (offsets (layer :: rest)).reverse.toArray.back? = some rest.flatten.length := by
    simp [offsets]
  have hstarts : (offsets (layer :: rest)).reverse.toArray.pop = (offsets rest).reverse.toArray := by
    simp [offsets]
  have hsize : (offsets (layer :: rest)).reverse.toArray.size - 1 = rest.length := by simp
  have hsegment : ((layer :: rest).flatten.reverse.toArray.extract rest.flatten.length
      (layer :: rest).flatten.reverse.toArray.size).toList = layer.reverse := by
    simp [List.take_of_length_le]
  have htake : (layer :: rest).flatten.reverse.toArray.take rest.flatten.length =
      rest.flatten.reverse.toArray := by
    simp
  have hkept : kept rest.length layer.reverse = (kept rest.length layer).reverse := by
    simp [kept, List.filter_reverse]
  simp only [commit, ofLayers, hback, hstarts, hsize, hsegment, htake, merge_eq, hkept]
  simp

end Store

end FiniteDomain
