import FiniteDomain.Proofs.Faulting
import FiniteDomain.Proofs.Store.Linked
import FiniteDomain.Store.Arena

/-!
# Backtracking in an arena

What an arena is after any operations above a world and a return to that world: the arena of the moment of the
push, together with the cells and vectors made since, which hold what they were made with. Writes compare data
by whatever test of equality there is.

* `popUntil_of_apply`: the step, for one operation;
* `popUntil_of_above`: the run, as one equation between arenas;
* `backtracking_restores`: the return does not fault, and the same for each cell, each element, the trail and the
  worlds.
-/

namespace FiniteDomain

namespace Arena

/-- A use of an arena. -/
inductive Op where
  | makeCell (value : Datum)
  | makeVector (length : Nat) (value : Datum)
  | set (cell : Nat) (value : Datum)
  | add (cell : Nat) (delta : Int)
  | setAt (vector place : Nat) (value : Datum)
  | push
  | pop
  | popUntil (target : Nat)
  | commit

variable [BEq Datum]

def apply (a : Arena) : Op → Except Fault Arena
  | .makeCell value => .ok (a.makeCell value)
  | .makeVector length value => .ok (a.makeVector length value)
  | .set cell value => a.set cell value
  | .add cell delta => do return (← a.add cell delta).2
  | .setAt vector place value => a.setAt vector place value
  | .push => .ok a.push
  | .pop => a.pop
  | .popUntil target => a.popUntil target
  | .commit => a.commit

/-- The arena came about by operations on the empty one. -/
inductive Reachable : Arena → Prop
  | empty : Reachable {}
  | step {a b : Arena} {op : Op} : Reachable a → a.apply op = .ok b → Reachable b

/-- The operations lead from one arena to the other, and each leaves it above the given world. -/
inductive Above (world : Nat) : Arena → List Op → Arena → Prop
  | nil (a : Arena) : Above world a [] a
  | cons {a b c : Arena} {op : Op} {ops : List Op} :
      a.apply op = .ok b → world < b.store.world → Above world b ops c → Above world a (op :: ops) c

/-- Pops lead from one arena to the other. -/
inductive Descends : Arena → Arena → Prop
  | refl (a : Arena) : Descends a a
  | pop {a b c : Arena} : a.pop = .ok b → Descends b c → Descends a c
  | popUntil {a b c : Arena} (target : Nat) : a.popUntil target = .ok b → Descends b c → Descends a c

/-- The operation as far as it makes cells. -/
def create (a : Arena) : Op → Arena
  | .makeCell value => a.makeCell value
  | .makeVector length value => a.makeVector length value
  | _ => a

/-- The data in the slots that an operation makes. -/
def Op.values : Op → List Datum
  | .makeCell value => [value]
  | .makeVector length value => List.replicate length value
  | _ => []

/-- The slot of an element of a vector. -/
def slotAt (a : Arena) (vector place : Nat) : Except Fault (Slot Datum) := do
  let address ← a.elementAddress vector place
  match a.store.slots[address]? with
  | some slot => return slot
  | none => throw .missing

/-- The cells that some operations make, by what they are made with. -/
def madeCells (ops : List Op) : List Datum :=
  ops.filterMap fun
    | .makeCell value => some value
    | _ => none

/-- The vectors that some operations make, by their lengths and what they are made with. -/
def madeVectors (ops : List Op) : List (Nat × Datum) :=
  ops.filterMap fun
    | .makeVector length value => some (length, value)
    | _ => none

/-- The second arena is the first one and the cells and vectors that some operations made: what was there has
its value and its stamp, the trail and the worlds are the same, and what was made is as it was made. -/
structure Restores (a : Arena) (ops : List Op) (c : Arena) : Prop where
  cells : ∀ cell slot, a.get cell = .ok slot → c.get cell = .ok slot
  elements : ∀ vector place slot, a.slotAt vector place = .ok slot → c.slotAt vector place = .ok slot
  trail : c.store.trail = a.store.trail
  starts : c.store.starts = a.store.starts
  made : ∀ (i : Nat) value, (madeCells ops)[i]? = some value → c.get (a.cells.size + i) = .ok ⟨value, 0⟩
  madeElements : ∀ (i : Nat) length value place, (madeVectors ops)[i]? = some (length, value) →
    place < length → c.slotAt (a.vectors.size + i) place = .ok ⟨value, 0⟩

/-! ### One operation -/

omit [BEq Datum] in
theorem store_create (a : Arena) (op : Op) : (a.create op).store = a.store.grow op.values := by
  cases op <;> simp [create, makeCell, makeVector, Op.values, Store.make_eq_grow, Store.makeMany_eq_grow]

omit [BEq Datum] in
/-- The names of new cells depend on the number of slots only. -/
theorem create_with_store (a : Arena) (op : Op) {s : Store Datum} (h : s.slots.size = a.store.slots.size) :
    { a with store := s }.create op = { a.create op with store := s.grow op.values } := by
  cases op <;> simp [create, makeCell, makeVector, Op.values, Store.make_eq_grow, Store.makeMany_eq_grow, h]

/-- How an operation changes the store of an arena. -/
theorem store_of_apply {a b : Arena} {op : Op} (h : a.apply op = .ok b) :
    b = a.create op ∨
      ((∀ c, Arena.create c op = c) ∧ b = { a with store := b.store } ∧
        ((∃ cell value, b.store = a.store.set cell value) ∨ b.store = a.store.push ∨
          a.store.pop = .ok b.store ∨ (∃ target, a.store.popUntil target = .ok b.store) ∨
          a.store.commit = .ok b.store)) := by
  cases op with
  | makeCell value =>
    cases h
    exact .inl rfl
  | makeVector length value =>
    cases h
    exact .inl rfl
  | set cell value =>
    obtain ⟨address, -, h⟩ := bind_eq_ok.mp h
    cases h
    exact .inr ⟨fun _ => rfl, rfl, .inl ⟨address, value, rfl⟩⟩
  | add cell delta =>
    obtain ⟨⟨sum, c⟩, hadd, h⟩ := bind_eq_ok.mp h
    obtain ⟨address, -, hadd⟩ := bind_eq_ok.mp hadd
    obtain ⟨⟨sum', store⟩, hstore, hadd⟩ := bind_eq_ok.mp hadd
    cases hadd
    cases h
    refine .inr ⟨fun _ => rfl, rfl, .inl ⟨address, .int sum, ?_⟩⟩
    simp only [Store.add] at hstore
    split at hstore
    · cases hstore
    · cases hstore
      rfl
  | setAt vector place value =>
    obtain ⟨address, -, h⟩ := bind_eq_ok.mp h
    cases h
    exact .inr ⟨fun _ => rfl, rfl, .inl ⟨address, value, rfl⟩⟩
  | push =>
    cases h
    exact .inr ⟨fun _ => rfl, rfl, .inr (.inl rfl)⟩
  | pop =>
    obtain ⟨store, hp, h⟩ := bind_eq_ok.mp h
    cases h
    exact .inr ⟨fun _ => rfl, rfl, .inr (.inr (.inl hp))⟩
  | popUntil target =>
    obtain ⟨store, hp, h⟩ := bind_eq_ok.mp h
    cases h
    exact .inr ⟨fun _ => rfl, rfl, .inr (.inr (.inr (.inl ⟨target, hp⟩)))⟩
  | commit =>
    obtain ⟨store, hp, h⟩ := bind_eq_ok.mp h
    cases h
    exact .inr ⟨fun _ => rfl, rfl, .inr (.inr (.inr (.inr hp)))⟩

theorem linked_of_apply {a b : Arena} {op : Op} (ha : a.store.Linked) (h : a.apply op = .ok b) :
    b.store.Linked := by
  rcases store_of_apply h with rfl | ⟨-, -, ⟨cell, value, hs⟩ | hs | hs | ⟨target, hs⟩ | hs⟩
  · rw [store_create]
    exact ha.grow op.values
  · exact hs ▸ ha.set cell value
  · exact hs ▸ ha.push
  · exact ha.of_pop hs
  · exact ha.of_popUntil hs
  · exact ha.of_commit hs

theorem Reachable.linked {a : Arena} (h : a.Reachable) : a.store.Linked := by
  induction h with
  | empty => exact Store.linked_empty
  | step _ hop ih => exact linked_of_apply ih hop

theorem linked_of_above {a b : Arena} {ops : List Op} {world : Nat} (ha : a.store.Linked)
    (h : Above world a ops b) : b.store.Linked := by
  induction h with
  | nil a => exact ha
  | cons hop _ _ ih => exact ih (linked_of_apply ha hop)

/-! ### Going back over one operation -/

omit [BEq Datum] in
/-- The store of an arena after a return to a world, and the arena around it. -/
theorem popUntil_eq_map (a : Arena) {world : Nat} (h : world ≤ a.store.world) :
    a.popUntil world = (a.store.popMany (a.store.world - world)).map fun s => { a with store := s } := by
  rw [Arena.popUntil, Store.popUntil_of_le h]
  cases a.store.popMany (a.store.world - world) <;> rfl

omit [BEq Datum] in
/-- An operation that changes the store only, and there only what the return undoes, is undone. -/
theorem popUntil_congr {a b : Arena} {world : Nat} (ha : world ≤ a.store.world) (hb : world ≤ b.store.world)
    (hab : b = { a with store := b.store })
    (h : b.store.popMany (b.store.world - world) = a.store.popMany (a.store.world - world)) :
    b.popUntil world = a.popUntil world := by
  rw [popUntil_eq_map a ha, popUntil_eq_map b hb, h]
  congr 1
  funext s
  rw [hab]

/-- The step: an operation above a world is, after a return to that world, as good as the cells it made. -/
theorem popUntil_of_apply {a b : Arena} {op : Op} {world : Nat} (hl : a.store.Linked)
    (ha : world < a.store.world) (hb : world < b.store.world) (h : a.apply op = .ok b) :
    b.popUntil world = (a.popUntil world).map fun c => c.create op := by
  have ha' : world ≤ a.store.world := Nat.le_of_lt ha
  have hb' : world ≤ b.store.world := Nat.le_of_lt hb
  rcases store_of_apply h with rfl | ⟨hid, hab, hs⟩
  · obtain ⟨t, ht, -, -, hsize⟩ := hl.exists_popMany (Nat.sub_le a.store.world world)
    rw [popUntil_eq_map a ha', popUntil_eq_map _ hb', store_create, Store.world_grow, hl.popMany_grow, ht]
    exact congrArg Except.ok (create_with_store a op hsize).symm
  · have hsame : b.popUntil world = a.popUntil world := by
      refine popUntil_congr ha' hb' hab ?_
      rcases hs with ⟨cell, value, hs⟩ | hs | hs | ⟨target, hs⟩ | hs
      · obtain ⟨n, hn⟩ : ∃ n, a.store.world - world = n + 1 := ⟨a.store.world - world - 1, by omega⟩
        rw [hs, Store.world_set, hn, Store.popMany_succ, Store.popMany_succ, hl.pop_set (by omega)]
      · rw [hs, Store.world_push, show a.store.world + 1 - world = (a.store.world - world) + 1 by omega,
          Store.popMany_succ, hl.pop_push]
        rfl
      · exact hl.popMany_of_pop hs hb'
      · exact hl.popMany_of_popMany (Store.popUntil_eq_ok.mp hs).2 hb'
      · obtain ⟨t, ht, -, hw, -⟩ := hl.exists_commit (by omega)
        cases hs.symm.trans ht
        obtain ⟨k, hk⟩ : ∃ k, b.store.world - world = k + 1 := ⟨b.store.world - world - 1, by omega⟩
        rw [hk, show a.store.world - world = k + 1 + 1 by omega, Store.popMany_succ, Store.popMany_succ,
          hl.pop_commit (by omega) hs]
        cases a.store.pop <;> rfl
    rw [hsame, show (fun c => Arena.create c op) = id from funext hid]
    cases a.popUntil world <;> rfl

/-! ### Going back over a run -/

/-- The arena after the cells and vectors of some operations were made in it. -/
def createAll (a : Arena) (ops : List Op) : Arena := ops.foldl create a

/-- The run: a return to a world undoes all that was done above it but the making of cells. -/
theorem popUntil_of_run {a b : Arena} {ops : List Op} {world : Nat} (hl : a.store.Linked)
    (hw : world < a.store.world) (h : Above world a ops b) :
    b.popUntil world = (a.popUntil world).map fun c => c.createAll ops := by
  induction h with
  | nil a => cases a.popUntil world <;> rfl
  | @cons a b c op ops hop hb _ ih =>
    rw [ih (linked_of_apply hl hop) hb, popUntil_of_apply hl hw hb hop]
    cases a.popUntil world <;> rfl

theorem popUntil_of_above {a b : Arena} {ops : List Op} (ha : a.store.Linked)
    (h : Above a.store.world a.push ops b) : b.popUntil a.store.world = .ok (a.createAll ops) := by
  have hw : a.push.store.world = a.store.world + 1 := Store.world_push a.store
  rw [popUntil_of_run (a := a.push) ha.push (by omega) h, popUntil_eq_map a.push (by omega), hw,
    show a.store.world + 1 - a.store.world = 0 + 1 by omega, Store.popMany_succ]
  show ((a.store.push.pop >>= _).map _).map _ = _
  rw [ha.pop_push]
  rfl

/-! ### What the cells hold -/

section Cells

omit [BEq Datum]

theorem get_eq_ok {a : Arena} {cell : Nat} {slot : Slot Datum} :
    a.get cell = .ok slot ↔ ∃ h, a.cells[cell]? = some h ∧ a.store.slots[h.block.start]? = some slot := by
  simp only [get, cellAddress]
  cases a.cells[cell]? with
  | none => simp
  | some h => cases hs : a.store.slots[h.block.start]? <;> simp [hs, throw, throwThe, MonadExceptOf.throw]

theorem slotAt_eq_ok {a : Arena} {vector place : Nat} {slot : Slot Datum} :
    a.slotAt vector place = .ok slot ↔ ∃ h, a.vectors[vector]? = some h ∧ place < h.block.length ∧
      a.store.slots[h.block.cell place]? = some slot := by
  simp only [slotAt, elementAddress]
  cases a.vectors[vector]? with
  | none => simp
  | some h =>
    by_cases hp : place < h.block.length
    · cases hs : a.store.slots[h.block.cell place]? <;> simp [hp, hs, throw, throwThe, MonadExceptOf.throw]
    · simp [hp]

/-- What an arena has stays when cells are made. -/
theorem create_extends (a : Arena) (op : Op) :
    (∀ (cell : Nat) (h : Handle), a.cells[cell]? = some h → (a.create op).cells[cell]? = some h) ∧
      (∀ (vector : Nat) (h : Handle), a.vectors[vector]? = some h → (a.create op).vectors[vector]? = some h) ∧
        ∀ (i : Nat) (slot : Slot Datum), a.store.slots[i]? = some slot → (a.create op).store.slots[i]? = some slot := by
  refine ⟨?_, ?_, ?_⟩
  · intro cell h hc
    have hlt := (Array.getElem?_eq_some_iff.mp hc).1
    cases op <;> simp [create, makeCell, makeVector, hc, Array.getElem?_push, Nat.ne_of_lt hlt]
  · intro vector h hc
    have hlt := (Array.getElem?_eq_some_iff.mp hc).1
    cases op <;> simp [create, makeCell, makeVector, hc, Array.getElem?_push, Nat.ne_of_lt hlt]
  · intro i slot hs
    rw [store_create, Store.getElem?_slots_grow_of_lt (Array.getElem?_eq_some_iff.mp hs).1]
    exact hs

theorem get_createAll {a : Arena} {cell : Nat} {slot : Slot Datum} (h : a.get cell = .ok slot) (ops : List Op) :
    (a.createAll ops).get cell = .ok slot := by
  induction ops generalizing a with
  | nil => exact h
  | cons op ops ih =>
    obtain ⟨handle, hc, hs⟩ := get_eq_ok.mp h
    obtain ⟨hcells, -, hslots⟩ := a.create_extends op
    exact ih (get_eq_ok.mpr ⟨handle, hcells cell handle hc, hslots _ slot hs⟩)

theorem slotAt_createAll {a : Arena} {vector place : Nat} {slot : Slot Datum}
    (h : a.slotAt vector place = .ok slot) (ops : List Op) :
    (a.createAll ops).slotAt vector place = .ok slot := by
  induction ops generalizing a with
  | nil => exact h
  | cons op ops ih =>
    obtain ⟨handle, hc, hp, hs⟩ := slotAt_eq_ok.mp h
    obtain ⟨-, hvectors, hslots⟩ := a.create_extends op
    exact ih (slotAt_eq_ok.mpr ⟨handle, hvectors vector handle hc, hp, hslots _ slot hs⟩)

theorem cells_makeCell (a : Arena) (value : Datum) :
    ∃ h, (a.makeCell value).cells = a.cells.push h ∧ h.block = ⟨a.store.slots.size, 1⟩ := ⟨_, rfl, rfl⟩

theorem vectors_makeVector (a : Arena) (length : Nat) (value : Datum) :
    ∃ h, (a.makeVector length value).vectors = a.vectors.push h ∧ h.block = ⟨a.store.slots.size, length⟩ :=
  ⟨_, rfl, rfl⟩

/-- A made cell holds what it was made with, in the stamp of the initial world. -/
theorem get_createAll_made {a : Arena} {ops : List Op} {i : Nat} {value : Datum}
    (h : (madeCells ops)[i]? = some value) :
    (a.createAll ops).get (a.cells.size + i) = .ok ⟨value, 0⟩ := by
  induction ops generalizing a i with
  | nil => simp [madeCells] at h
  | cons op ops ih =>
    cases op with
    | makeCell v =>
      cases i with
      | zero =>
        obtain rfl : v = value := by simpa [madeCells] using h
        obtain ⟨handle, hcells, hblock⟩ := cells_makeCell a v
        refine get_createAll (a := a.create (.makeCell v)) (get_eq_ok.mpr ⟨handle, ?_, ?_⟩) ops
        · simp [create, hcells]
        · rw [store_create, hblock]
          simp [Store.grow, Op.values]
      | succ i =>
        have h : (madeCells ops)[i]? = some value := by simpa [madeCells] using h
        have := ih (a := a.create (.makeCell v)) h
        rwa [show (a.create (.makeCell v)).cells.size = a.cells.size + 1 by simp [create, makeCell],
          Nat.add_right_comm, Nat.add_assoc] at this
    | makeVector n v =>
      have h : (madeCells ops)[i]? = some value := by simpa [madeCells] using h
      exact ih (a := a.create (.makeVector n v)) h
    | _ =>
      have h : (madeCells ops)[i]? = some value := by simpa [madeCells] using h
      exact ih (a := a) h

/-- So does each element of a made vector. -/
theorem slotAt_createAll_made {a : Arena} {ops : List Op} {i length place : Nat} {value : Datum}
    (h : (madeVectors ops)[i]? = some (length, value)) (hp : place < length) :
    (a.createAll ops).slotAt (a.vectors.size + i) place = .ok ⟨value, 0⟩ := by
  induction ops generalizing a i with
  | nil => simp [madeVectors] at h
  | cons op ops ih =>
    cases op with
    | makeVector n v =>
      cases i with
      | zero =>
        obtain ⟨rfl, rfl⟩ : n = length ∧ v = value := by simpa [madeVectors] using h
        obtain ⟨handle, hvectors, hblock⟩ := vectors_makeVector a n v
        refine slotAt_createAll (a := a.create (.makeVector n v)) (slotAt_eq_ok.mpr ⟨handle, ?_, ?_, ?_⟩) ops
        · simp [create, hvectors]
        · rw [hblock]
          exact hp
        · rw [store_create, hblock]
          simp [Store.grow, Op.values, Block.cell, hp]
      | succ i =>
        have h : (madeVectors ops)[i]? = some (length, value) := by simpa [madeVectors] using h
        have := ih (a := a.create (.makeVector n v)) h
        rwa [show (a.create (.makeVector n v)).vectors.size = a.vectors.size + 1 by simp [create, makeVector],
          Nat.add_right_comm, Nat.add_assoc] at this
    | makeCell v =>
      have h : (madeVectors ops)[i]? = some (length, value) := by simpa [madeVectors] using h
      exact ih (a := a.create (.makeCell v)) h
    | _ =>
      have h : (madeVectors ops)[i]? = some (length, value) := by simpa [madeVectors] using h
      exact ih (a := a) h

theorem worlds_createAll (a : Arena) (ops : List Op) :
    (a.createAll ops).store.trail = a.store.trail ∧ (a.createAll ops).store.starts = a.store.starts := by
  induction ops generalizing a with
  | nil => exact ⟨rfl, rfl⟩
  | cons op ops ih =>
    obtain ⟨ht, hs⟩ := ih (a.create op)
    rw [store_create] at ht hs
    exact ⟨ht, hs⟩

theorem world_createAll (a : Arena) (ops : List Op) : (a.createAll ops).store.world = a.store.world :=
  congrArg Array.size (a.worlds_createAll ops).2

end Cells

/-! ### Returning -/

section Descents

omit [BEq Datum]

theorem Descends.linked {a b : Arena} (h : Descends a b) (ha : a.store.Linked) : b.store.Linked := by
  induction h with
  | refl a => exact ha
  | pop hp _ ih =>
    obtain ⟨s, hs, hb⟩ := bind_eq_ok.mp hp
    cases hb
    exact ih (ha.of_pop hs)
  | popUntil target hp _ ih =>
    obtain ⟨s, hs, hb⟩ := bind_eq_ok.mp hp
    cases hb
    exact ih (ha.of_popUntil hs)

/-- A pop of a world that was opened does not fault, and the world is one less. -/
theorem exists_pop {a : Arena} (ha : a.store.Linked) (hw : 0 < a.store.world) :
    ∃ b, a.pop = .ok b ∧ b.store.world + 1 = a.store.world := by
  obtain ⟨t, ht, -, hworld, -⟩ := ha.exists_pop hw
  exact ⟨{ a with store := t }, by rw [pop, ht]; rfl, hworld⟩

/-- It does not matter by which pops a world is reached. -/
theorem popUntil_of_descends {a b : Arena} (h : Descends a b) (ha : a.store.Linked) :
    b.store.world ≤ a.store.world ∧ a.popUntil b.store.world = .ok b := by
  induction h with
  | refl a =>
    refine ⟨Nat.le_refl _, ?_⟩
    rw [popUntil_eq_map a (Nat.le_refl _), Nat.sub_self]
    rfl
  | @pop a b c hp _ ih =>
    obtain ⟨s, hs, hb⟩ := bind_eq_ok.mp hp
    cases hb
    obtain ⟨hle, hc⟩ := ih (ha.of_pop hs)
    have hw := ha.world_of_pop hs
    have hle' : c.store.world ≤ a.store.world := Nat.le_trans hle (Nat.le.intro hw)
    exact ⟨hle', (popUntil_congr hle' hle rfl (ha.popMany_of_pop hs hle)).symm.trans hc⟩
  | @popUntil a b c target hp _ ih =>
    obtain ⟨s, hs, hb⟩ := bind_eq_ok.mp hp
    cases hb
    obtain ⟨hle, hc⟩ := ih (ha.of_popUntil hs)
    have hmany := (Store.popUntil_eq_ok.mp hs).2
    have hw := (ha.popMany_spec hmany).2.1
    have hle' : c.store.world ≤ a.store.world := Nat.le_trans hle (Nat.le.intro hw)
    exact ⟨hle', (popUntil_congr hle' hle rfl (ha.popMany_of_popMany hmany hle)).symm.trans hc⟩

theorem restores_createAll (a : Arena) (ops : List Op) : Restores a ops (a.createAll ops) where
  cells _ _ h := get_createAll h ops
  elements _ _ _ h := slotAt_createAll h ops
  trail := (a.worlds_createAll ops).1
  starts := (a.worlds_createAll ops).2
  made _ _ h := get_createAll_made h
  madeElements _ _ _ _ h hp := slotAt_createAll_made h hp

end Descents

/-- **Backtracking restores everything.** Whatever happened between a push and the return to the world before
it, the return does not fault, be it at once or by pops of which each closes one world, and every cell and element of
that moment has its value and its stamp again, the trail and the worlds are the same, and what was made meanwhile is as
it was made. -/
theorem backtracking_restores {a b : Arena} {ops : List Op} (ha : a.Reachable)
    (h : Above a.store.world a.push ops b) :
    (∃ c, b.popUntil a.store.world = .ok c ∧ c.store.world = a.store.world ∧ Restores a ops c) ∧
      (∀ c, Descends b c → a.store.world < c.store.world →
        ∃ d, c.pop = .ok d ∧ d.store.world + 1 = c.store.world) ∧
      ∀ c, Descends b c → c.store.world = a.store.world → Restores a ops c := by
  have hback := popUntil_of_above ha.linked h
  have hb : b.store.Linked := linked_of_above ha.linked.push h
  refine ⟨⟨_, hback, a.world_createAll ops, restores_createAll a ops⟩, ?_, ?_⟩
  · intro c hc hw
    exact exists_pop (hc.linked hb) (by omega)
  · intro c hc hw
    have hpop := (popUntil_of_descends hc hb).2
    rw [hw, hback] at hpop
    obtain rfl := Except.ok.inj hpop
    exact restores_createAll a ops

omit [BEq Datum] in
/-- A cell is overwritten with what it holds, under a test of equality that nothing passes; then, in a world that
is committed, a cell is made and the first one is overwritten again. -/
theorem backtracking_restores_of_committed :
    ∃ (eq : BEq Datum) (a b c : Arena) (ops : List Op),
      (∀ v, eq.beq v v = false) ∧ a.Reachable ∧ a.get 0 = .ok ⟨.int 3, 0⟩ ∧ Above a.store.world a.push ops b ∧
        b.get 0 = .ok ⟨.int 5, 1⟩ ∧ b.popUntil a.store.world = .ok c ∧ c.store.world = a.store.world ∧
          c.get 0 = .ok ⟨.int 3, 0⟩ ∧ c.get 1 = .ok ⟨.bool true, 0⟩ ∧
            (∃ d, b.pop = .ok d ∧ d.store.world + 1 = b.store.world) ∧
              ∀ d, Descends b d → d.store.world = a.store.world →
                d.get 0 = .ok ⟨.int 3, 0⟩ ∧ d.get 1 = .ok ⟨.bool true, 0⟩ := by
  let eq : BEq Datum := ⟨fun _ _ => false⟩
  let a : Arena := ({} : Arena).makeCell (.int 3)
  have ha : a.Reachable := .step .empty (show ({} : Arena).apply (.makeCell (.int 3)) = .ok a from rfl)
  have h : Above a.store.world a.push
      [.set 0 (.int 3), .push, .makeCell (.bool true), .set 0 (.int 5), .commit] _ :=
    .cons rfl (by decide) <| .cons rfl (by decide) <| .cons rfl (by decide) <| .cons rfl (by decide) <|
      .cons rfl (by decide) <| .nil _
  obtain ⟨⟨c, hpop, hworld, hc⟩, hdown, hdescent⟩ := backtracking_restores ha h
  refine ⟨eq, a, _, c, _, fun _ => rfl, ha, rfl, h, rfl, hpop, hworld, hc.cells 0 _ rfl, hc.made 0 _ rfl,
    hdown _ (.refl _) (by decide), ?_⟩
  intro d hd hw
  exact ⟨(hdescent d hd hw).cells 0 _ rfl, (hdescent d hd hw).made 0 _ rfl⟩

end Arena

end FiniteDomain
