import FiniteDomain.Proofs.Store.Backtracking
import FiniteDomain.Proofs.Store.Sinking

/-!
# Commits of an arena

To open a world, to do something in it that closes all worlds it opens, and to commit the world comes to the
same as to do that without the world: the arenas are equal, and so are the faults if there is one.

* `Shadows.apply`: the step, for one operation in the two runs;
* `Shadows.run`: the run;
* `commit_eq_run`: the run between the push and the commit.
-/

namespace FiniteDomain

namespace Arena

/-- The operation that does one world further in what the given one does. Only going back to a world says which
one it means. -/
def Op.deeper : Op → Op
  | .popUntil target => .popUntil (target + 1)
  | op => op

/-- The world after an operation, unless that is below a base. -/
def Op.world? (base world : Nat) : Op → Option Nat
  | .push => some (world + 1)
  | .pop | .commit => if base < world then some (world - 1) else none
  | .popUntil target => if base ≤ target ∧ target ≤ world then some target else none
  | _ => some world

/-- The world after some operations that never go below a base. -/
def worldAfter? (base world : Nat) : List Op → Option Nat
  | [] => some world
  | op :: ops => do worldAfter? base (← op.world? base world) ops

/-- All worlds that the operations open are closed again, and they never go below the world where they begin. -/
def Balanced (base : Nat) (ops : List Op) : Prop := worldAfter? base base ops = some base

instance (base : Nat) (ops : List Op) : Decidable (Balanced base ops) := inferInstanceAs (Decidable (_ = _))

variable [BEq Datum]

/-- The operations one after the other, up to the first fault. -/
def run (a : Arena) : List Op → Except Fault Arena
  | [] => .ok a
  | op :: ops => do (← a.apply op).run ops

/-- The second arena is the first one without a world of its own for what happened in world `w + 1`. -/
structure Shadows (w : Nat) (a b : Arena) : Prop where
  cells : a.cells = b.cells
  vectors : a.vectors = b.vectors
  store : Store.Sinks w a.store b.store

/-- What the same operation comes to in two runs: the same fault, or two results with their arenas in step. -/
def InStep (w v : Nat) : Except Fault Arena → Except Fault Arena → Prop
  | .ok a, .ok b => Shadows w a b ∧ b.store.world = v
  | .error f, .error g => f = g
  | _, _ => False

namespace Shadows

variable {w v : Nat} {a b : Arena}

omit [BEq Datum] in
theorem cellAddress_eq (h : Shadows w a b) (cell : Nat) : a.cellAddress cell = b.cellAddress cell := by
  rw [cellAddress, cellAddress, h.cells]

omit [BEq Datum] in
theorem elementAddress_eq (h : Shadows w a b) (vector place : Nat) :
    a.elementAddress vector place = b.elementAddress vector place := by
  rw [elementAddress, elementAddress, h.vectors]

/-- A write at an address that both arenas agree on. -/
theorem set_at (h : Shadows w a b) (r : Except Fault Nat) (value : Datum) :
    InStep w b.store.world (do return { a with store := a.store.set (← r) value })
      (do return { b with store := b.store.set (← r) value }) := by
  cases r with
  | error fault => exact rfl
  | ok address => exact ⟨⟨h.cells, h.vectors, h.store.set address value⟩, Store.world_set ..⟩

theorem add (h : Shadows w a b) (cell : Nat) (delta : Int) :
    InStep w b.store.world (do return (← a.add cell delta).2) (do return (← b.add cell delta).2) := by
  rw [Arena.add, Arena.add, h.cellAddress_eq]
  cases b.cellAddress cell with
  | error fault => exact rfl
  | ok address =>
    have hint : b.store.int address = a.store.int address := by rw [Store.int, Store.int, h.store.get?_eq]
    simp only [ok_bind, Store.add, hint]
    cases Value.ofInt? (a.store.int address + delta) with
    | none => exact rfl
    | some sum => exact ⟨⟨h.cells, h.vectors, h.store.set address _⟩, Store.world_set ..⟩

omit [BEq Datum] in
/-- New cells and vectors get the same names in both arenas. -/
theorem create (h : Shadows w a b) (op : Op) :
    Shadows w (a.create op) (b.create op) ∧ (b.create op).store.world = b.store.world := by
  have heq : a.create op = { b.create op with store := a.store.grow op.values } := by
    obtain ⟨hcells, hvectors, hstore⟩ := h
    have ha : a = { b with store := a.store } := by
      obtain ⟨s, cells, vectors⟩ := a
      cases hcells
      cases hvectors
      rfl
    have hcreate := create_with_store b op (s := a.store) hstore.size_eq.symm
    rwa [← ha] at hcreate
  have hstore := store_create b op
  refine ⟨⟨by rw [heq], by rw [heq], ?_⟩, by rw [hstore, Store.world_grow]⟩
  rw [heq, hstore]
  exact h.store.grow op.values

/-- **The step.** An operation that stays above the world that is sunk keeps the two arenas in step. -/
theorem apply (h : Shadows w a b) {op : Op} (hop : op.world? w b.store.world = some v) :
    InStep w v (a.apply op.deeper) (b.apply op) := by
  have hworld := h.store.world_eq
  cases op with
  | makeCell value =>
    cases hop
    exact h.create (.makeCell value)
  | makeVector length value =>
    cases hop
    exact h.create (.makeVector length value)
  | set cell value =>
    cases hop
    show InStep w _ (a.set cell value) (b.set cell value)
    rw [Arena.set, Arena.set, h.cellAddress_eq]
    exact h.set_at (b.cellAddress cell) value
  | add cell delta =>
    cases hop
    exact h.add cell delta
  | setAt vector place value =>
    cases hop
    show InStep w _ (a.setAt vector place value) (b.setAt vector place value)
    rw [Arena.setAt, Arena.setAt, h.elementAddress_eq]
    exact h.set_at (b.elementAddress vector place) value
  | push =>
    cases hop
    exact ⟨⟨h.cells, h.vectors, h.store.push⟩, Store.world_push _⟩
  | pop =>
    obtain ⟨hlt, ⟨⟩⟩ := Option.ite_none_right_eq_some.mp hop
    obtain ⟨s, t, hs, ht, hsinks⟩ := h.store.exists_pop (by omega)
    have hw := hsinks.world_eq
    have hw' := h.store.linked.world_of_pop hs
    simp only [Op.deeper, Arena.apply, Arena.pop, hs, ht]
    exact ⟨⟨h.cells, h.vectors, hsinks⟩, by show t.world = _; omega⟩
  | popUntil target =>
    obtain ⟨⟨hle, hle'⟩, hv⟩ := Option.ite_none_right_eq_some.mp hop
    obtain rfl : target = v := Option.some.inj hv
    obtain ⟨s, t, hs, ht, hsinks⟩ := h.store.popMany (b.store.world - target) (by omega)
    obtain ⟨s', hs', -, hw', -⟩ := h.store.linked.exists_popMany (n := b.store.world - target) (by omega)
    cases hs.symm.trans hs'
    have hw := hsinks.world_eq
    have hsub : a.store.world - (target + 1) = b.store.world - target := by omega
    simp only [Op.deeper, Arena.apply, Arena.popUntil]
    rw [Store.popUntil_of_le (by omega), Store.popUntil_of_le hle', hsub, hs, ht]
    exact ⟨⟨h.cells, h.vectors, hsinks⟩, by show t.world = _; omega⟩
  | commit =>
    obtain ⟨hlt, ⟨⟩⟩ := Option.ite_none_right_eq_some.mp hop
    obtain ⟨s, t, hs, ht, hsinks⟩ := h.store.exists_commit (by omega)
    obtain ⟨s', hs', -, hw', -⟩ := h.store.linked.exists_commit (by omega)
    cases hs.symm.trans hs'
    have hw := hsinks.world_eq
    simp only [Op.deeper, Arena.apply, Arena.commit, hs, ht]
    exact ⟨⟨h.cells, h.vectors, hsinks⟩, by show t.world = _; omega⟩

/-- **The run.** Operations that stay above the world that is sunk keep the two arenas in step. -/
theorem run (h : Shadows w a b) {ops : List Op} (hops : worldAfter? w b.store.world ops = some v) :
    InStep w v (a.run (ops.map Op.deeper)) (b.run ops) := by
  induction ops generalizing a b with
  | nil =>
    cases hops
    exact ⟨h, rfl⟩
  | cons op ops ih =>
    obtain ⟨u, hop, hops⟩ := Option.bind_eq_some_iff.mp hops
    have hstep := h.apply hop
    rw [List.map_cons, Arena.run, Arena.run]
    cases ha : a.apply op.deeper with
    | error f =>
      cases hb : b.apply op with
      | error g =>
        rw [ha, hb] at hstep
        exact hstep
      | ok b' =>
        rw [ha, hb] at hstep
        exact hstep.elim
    | ok a' =>
      cases hb : b.apply op with
      | error g =>
        rw [ha, hb] at hstep
        exact hstep.elim
      | ok b' =>
        rw [ha, hb] at hstep
        obtain ⟨h', rfl⟩ := hstep
        exact ih h' hops

end Shadows

/-- **A commit equals never having pushed.** Whatever is done between a push and the commit of the pushed world,
as long as it closes the worlds it opens, the arena that comes out is the one of doing it without that world,
with the same values, stamps, trail and worlds; and if one of the two ends in a fault, so does the other. -/
theorem commit_eq_run {a : Arena} (ha : a.Reachable) {ops : List Op} (hops : Balanced a.store.world ops) :
    a.push.run (ops.map Op.deeper) >>= Arena.commit = a.run ops := by
  have hshadows : Shadows a.store.world a.push a := ⟨rfl, rfl, ha.linked.sinks_push⟩
  have hstep := hshadows.run hops
  cases hb : a.run ops with
  | error g =>
    cases hd : a.push.run (ops.map Op.deeper) with
    | error f =>
      rw [hd, hb] at hstep
      cases hstep
      rfl
    | ok d =>
      rw [hd, hb] at hstep
      exact hstep.elim
  | ok b =>
    cases hd : a.push.run (ops.map Op.deeper) with
    | error f =>
      rw [hd, hb] at hstep
      exact hstep.elim
    | ok d =>
      rw [hd, hb] at hstep
      obtain ⟨⟨hcells, hvectors, hsinks⟩, hworld⟩ := hstep
      have hcommit := hsinks.commit_eq (by rw [hsinks.world_eq, hworld])
      rw [ok_bind, Arena.commit, hcommit]
      obtain ⟨s, cells, vectors⟩ := d
      cases hcells
      cases hvectors
      rfl

end Arena

/-- A cell of world one is overwritten in the world that is committed, in a committed world within it, and in two
worlds that are left at once; a cell is made meanwhile. -/
theorem Arena.commit_eq_run_of_nested :
    let a := (({} : Arena).makeCell (.int 3)).push
    let ops : List Arena.Op := [.set 0 (.int 4), .push, .makeCell (.bool true), .set 0 (.int 5), .commit, .push, .push,
      .set 0 (.int 7), .popUntil 1]
    a.Reachable ∧ Arena.Balanced a.store.world ops ∧ a.push.run (ops.map Arena.Op.deeper) >>= Arena.commit = a.run ops ∧
      (a.run ops).toOption.map (fun b => (b.store.int 0, b.store.stamp? 0, b.store.trail.size)) =
        some (5, some 1, 1) := by
  intro a ops
  have ha : a.Reachable :=
    .step (.step .empty (show ({} : Arena).apply (.makeCell (.int 3)) = .ok _ from rfl))
      (show Arena.apply _ .push = .ok a from rfl)
  have hops : Arena.Balanced a.store.world ops := by decide
  exact ⟨ha, hops, Arena.commit_eq_run ha hops, by decide +kernel⟩

end FiniteDomain
