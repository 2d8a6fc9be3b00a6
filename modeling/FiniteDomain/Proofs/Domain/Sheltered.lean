import FiniteDomain.Domain.Mutation
import FiniteDomain.Proofs.Activity

/-!
# Domains know of no worlds

Whatever domain is asked or narrowed in whatever store, be it well-formed or not, no fault comes of it that only
the operations on worlds have.

* `Sheltered`: computations without such a fault, and how they are put together;
* `Domain.sheltered_apply`: mutations.
-/

namespace FiniteDomain

/-- The faults of the operations on worlds. -/
def Fault.OfWorlds : Fault → Prop
  | popAtInitialWorld | popAbove _ _ | commitAtInitialWorld => True
  | _ => False

namespace Tolerance

/-- Every fault is put up with but those of the operations on worlds. -/
@[reducible]
def worldly : Tolerance := ⟨fun fault => ¬fault.OfWorlds⟩

end Tolerance

/-- The computation ends in no fault of the operations on worlds. -/
def Sheltered {α : Type} (r : Except Fault α) : Prop := @Meets .worldly α r fun _ => True

namespace Sheltered

variable {α β : Type}

theorem ok (x : α) : Sheltered (.ok x) :=
  let := Tolerance.worldly
  Meets.ok True.intro

theorem error {fault : Fault} (h : ¬fault.OfWorlds) : Sheltered (.error fault : Except Fault α) :=
  let := Tolerance.worldly
  Meets.error h

theorem bind {r : Except Fault α} {f : α → Except Fault β} (hr : Sheltered r) (hf : ∀ x, Sheltered (f x)) :
    Sheltered (r >>= f) :=
  let := Tolerance.worldly
  Meets.bind hr fun x _ => hf x

theorem map {r : Except Fault α} (f : α → β) (hr : Sheltered r) : Sheltered (f <$> r) := by
  cases r with
  | ok x => exact ok (f x)
  | error fault => exact error (hr.2 fault rfl)

end Sheltered

open Sheltered

theorem sheltered_filterM {α : Type} {p : α → Except Fault Bool} (h : ∀ x, Sheltered (p x)) (l : List α) :
    Sheltered (l.filterM p) := by
  have haux : ∀ (l found : List α), Sheltered (List.filterAuxM p l found) := by
    intro l
    induction l with
    | nil => exact fun found => ok found
    | cons x rest ih => exact fun found => bind (h x) fun b => ih _
  exact bind (haux l []) fun _ => ok _

theorem sheltered_mapM {α β : Type} {f : α → Except Fault β} (h : ∀ x, Sheltered (f x)) (xs : Array α) :
    Sheltered (xs.mapM f) := by
  have haux : ∀ l : List α, Sheltered (l.mapM f) := by
    intro l
    induction l with
    | nil => exact ok []
    | cons x rest ih =>
      rw [List.mapM_cons]
      exact bind (h x) fun _ => bind ih fun _ => ok _
  rw [Array.mapM_eq_mapM_toList]
  exact map _ (haux xs.toList)

theorem sheltered_allM {α : Type} {p : α → Except Fault Bool} (h : ∀ x, Sheltered (p x)) (xs : Array α) :
    Sheltered (xs.allM p) := by
  have haux : ∀ l : List α, Sheltered (l.allM p) := by
    intro l
    induction l with
    | nil => exact ok true
    | cons x rest ih =>
      refine bind (h x) fun b => ?_
      cases b with
      | true => exact ih
      | false => exact ok false
  rw [← Array.allM_toList]
  exact haux xs.toList

theorem sheltered_successor (v : Int) : Sheltered (successor v) := by
  rw [successor]
  split
  · exact ok _
  · exact error not_false

theorem sheltered_predecessor (v : Int) : Sheltered (predecessor v) := by
  rw [predecessor]
  split
  · exact ok _
  · exact error not_false

theorem sheltered_placeBefore (i : Nat) : Sheltered (placeBefore i) := by
  cases i with
  | zero => exact error not_false
  | succ i => exact ok i

theorem Store.sheltered_add (s : Store Datum) (cell : Nat) (d : Int) : Sheltered (s.add cell d) := by
  rw [Store.add]
  split
  · exact error not_false
  · exact ok _

namespace Universe

variable (u : Universe)

theorem sheltered_place (v : Int) : Sheltered (u.place v) := by
  rw [place]
  split
  · exact ok _
  · exact error not_false

theorem sheltered_value (i : Nat) : Sheltered (u.value i) := by
  cases u with
  | dense offset n =>
    rw [value]
    split
    · exact ok _
    · exact error not_false
  | sparse table =>
    rw [value]
    split
    · exact ok _
    · exact error not_false

end Universe

namespace Members

variable (m : Members) (s : Store Datum)

theorem sheltered_check (i : Nat) : Sheltered (m.check i) := by
  rw [check]
  split
  · exact ok _
  · exact error not_false

theorem sheltered_has (i : Nat) : Sheltered (m.has s i) := bind (m.sheltered_check i) fun _ => ok _

theorem sheltered_next? (start limit : Nat) : Sheltered (m.next? s start limit) := by
  rw [next?]
  split
  · exact ok _
  · refine bind (m.sheltered_check limit) fun _ => ?_
    split
    · exact bind (m.places.sheltered_value _) fun _ => ok _
    · exact ok _

theorem sheltered_previous? (start limit : Nat) : Sheltered (m.previous? s start limit) := by
  rw [previous?]
  split
  · exact ok _
  · refine bind (m.sheltered_check start) fun _ => ?_
    split
    · exact bind (m.places.sheltered_value _) fun _ => ok _
    · exact ok _

theorem sheltered_count (start limit : Nat) : Sheltered (m.count s start limit) := by
  rw [count]
  split
  · exact ok _
  · exact bind (m.sheltered_check limit) fun _ => ok _

end Members

namespace Domain

variable (d : Domain) (s : Store Datum)

/-! ### Queries -/

theorem sheltered_contains (v : Int) : Sheltered (d.contains s v) := by
  rw [contains]
  split
  · exact ok _
  · split
    · exact ok _
    · split
      · exact Members.sheltered_has _ s _
      · exact ok _

theorem sheltered_next? (v : Int) : Sheltered (d.next? s v) := by
  rw [next?]
  split
  · exact ok _
  · split
    · exact bind (sheltered_successor v) fun _ => ok _
    · rename_i m _
      exact bind (m.places.sheltered_place _) fun _ => bind (m.places.sheltered_place _) fun _ =>
        m.sheltered_next? s _ _

theorem sheltered_previous? (v : Int) : Sheltered (d.previous? s v) := by
  rw [previous?]
  split
  · exact ok _
  · split
    · exact bind (sheltered_predecessor v) fun _ => ok _
    · rename_i m _
      exact bind (sheltered_placeBefore _) fun _ => bind (m.places.sheltered_place _) fun _ =>
        bind (m.places.sheltered_place _) fun _ => m.sheltered_previous? s _ _

theorem sheltered_nextFrom? (v : Int) : Sheltered (d.nextFrom? s v) := by
  refine bind (d.sheltered_contains s v) fun there => ?_
  split
  · exact ok _
  · exact d.sheltered_next? s v

theorem sheltered_previousFrom? (v : Int) : Sheltered (d.previousFrom? s v) := by
  refine bind (d.sheltered_contains s v) fun there => ?_
  split
  · exact ok _
  · exact d.sheltered_previous? s v

theorem sheltered_valuesFrom (v : Int) (found : Array Int) (fuel : Nat) :
    Sheltered (d.valuesFrom s v found fuel) := by
  induction fuel generalizing v found with
  | zero => exact error not_false
  | succ fuel ih =>
    refine bind (d.sheltered_next? s v) fun w => ?_
    cases w with
    | none => exact ok _
    | some w => exact ih w _

theorem sheltered_values : Sheltered (d.values s) := d.sheltered_valuesFrom s _ _ _

/-! ### Mutations -/

theorem sheltered_atLeast (v : Int) : Sheltered (d.atLeast s v) := by
  rw [atLeast]
  split
  · exact ok _
  · split
    · exact ok _
    · split
      · exact ok _
      · rename_i m _
        refine bind (d.sheltered_nextFrom? s v) fun w => ?_
        cases w with
        | none => exact ok _
        | some w =>
          exact bind (m.places.sheltered_place _) fun _ => bind (m.places.sheltered_place _) fun _ =>
            bind (sheltered_placeBefore _) fun _ => bind (m.sheltered_count s _ _) fun _ =>
            bind (s.sheltered_add _ _) fun _ => ok _

theorem sheltered_atMost (v : Int) : Sheltered (d.atMost s v) := by
  rw [atMost]
  split
  · exact ok _
  · split
    · exact ok _
    · split
      · exact ok _
      · rename_i m _
        refine bind (d.sheltered_previousFrom? s v) fun w => ?_
        cases w with
        | none => exact ok _
        | some w =>
          exact bind (m.places.sheltered_place _) fun _ => bind (m.places.sheltered_place _) fun _ =>
            bind (m.sheltered_count s _ _) fun _ => bind (s.sheltered_add _ _) fun _ => ok _

theorem sheltered_meets (low high : Int) : Sheltered (d.meets s low high) := by
  rw [meets]
  split
  · exact ok _
  · split
    · refine bind (d.sheltered_nextFrom? s low) fun w => ?_
      cases w <;> exact ok _
    · exact ok _

theorem sheltered_within (low high : Int) : Sheltered (d.within s low high) := by
  refine bind (d.sheltered_meets s low high) fun any => ?_
  split
  · refine bind (d.sheltered_atLeast s low) fun r => ?_
    split
    · exact ok _
    · refine bind (d.sheltered_atMost _ high) fun r => ?_
      split <;> exact ok _
  · exact ok _

theorem sheltered_remove (v : Int) : Sheltered (d.remove s v) := by
  refine bind (d.sheltered_contains s v) fun there => ?_
  split
  · dsimp only
    split
    · exact ok _
    · split
      · exact bind (sheltered_successor v) fun _ => d.sheltered_atLeast s _
      · split
        · exact bind (sheltered_predecessor v) fun _ => d.sheltered_atMost s _
        · split
          · exact ok _
          · rename_i m _
            exact bind (m.places.sheltered_place v) fun i => bind (m.sheltered_check i) fun _ =>
              bind (Store.sheltered_add _ _ _) fun _ => ok _
  · exact ok _

theorem sheltered_removeUpTo (v high : Int) (sofar : Update) (fuel : Nat) :
    Sheltered (d.removeUpTo s v high sofar fuel) := by
  induction fuel generalizing s v sofar with
  | zero => exact error not_false
  | succ fuel ih =>
    refine bind (d.sheltered_next? s v) fun w => ?_
    cases w with
    | none => exact ok _
    | some w =>
      dsimp only
      split
      · refine bind (d.sheltered_remove s w) fun r => ?_
        split
        · exact ok _
        · exact ih _ _ _
      · exact ok _

theorem sheltered_removeRange (low high : Int) : Sheltered (d.removeRange s low high) := by
  rw [removeRange]
  split
  · exact ok _
  · split
    · split
      · exact ok _
      · exact bind (sheltered_successor high) fun _ => d.sheltered_atLeast s _
    · split
      · exact bind (sheltered_predecessor low) fun _ => d.sheltered_atMost s _
      · split
        · exact bind (sheltered_predecessor low) fun _ => d.sheltered_removeUpTo s _ _ _ _
        · exact ok _

theorem sheltered_assign (v : Int) : Sheltered (d.assign s v) := by
  refine bind (d.sheltered_contains s v) fun there => ?_
  split
  · split
    · exact ok _
    · dsimp only
      split <;> exact ok _
  · exact ok _

/-- **A mutation of a domain ends in no fault of the operations on worlds.** -/
theorem sheltered_apply (μ : Mutation) : Sheltered (d.apply s μ) := by
  cases μ with
  | atLeast v => exact d.sheltered_atLeast s v
  | atMost v => exact d.sheltered_atMost s v
  | within low high => exact d.sheltered_within s low high
  | remove v => exact d.sheltered_remove s v
  | removeRange low high => exact d.sheltered_removeRange s low high
  | assign v => exact d.sheltered_assign s v

end Domain

end FiniteDomain
