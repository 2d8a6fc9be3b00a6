import FiniteDomain.Proofs.Faulting
import FiniteDomain.Proofs.Store.Linked
import FiniteDomain.Store.Datum

/-!
# Writes to a set of cells

A store that came about by writes to some cells agrees with the old one on all others, and is gone with the
world it was written in.
-/

namespace FiniteDomain

namespace Datum

theorem int_beq_iff {a b : Int} : ((Datum.int a == Datum.int b) = true) ↔ a = b := by
  show (a == b) = true ↔ a = b
  exact beq_iff_eq

theorem word_beq_iff {a b : UInt64} : ((Datum.word a == Datum.word b) = true) ↔ a = b := by
  show (a == b) = true ↔ a = b
  exact beq_iff_eq

end Datum

namespace Store

/-! ### One write -/

theorem slots_set_of_ne (s : Store Datum) {cell c : Nat} (h : cell ≠ c) (v : Datum) :
    (s.set cell v).slots[c]? = s.slots[c]? := by
  obtain ⟨slots, trail, starts⟩ := s
  simp only [Store.set]
  split
  · rfl
  · split
    · rfl
    · exact Array.getElem?_setIfInBounds_ne h

theorem get?_set_of_ne (s : Store Datum) {cell c : Nat} (h : cell ≠ c) (v : Datum) :
    (s.set cell v).get? c = s.get? c := by
  rw [get?, get?, slots_set_of_ne s h]

/-- A cell holds what was written, or something equal. -/
theorem get?_set_self (s : Store Datum) {cell : Nat} (h : cell < s.slots.size) (v : Datum) :
    (s.set cell v).get? cell = some v ∨
      ∃ old, s.get? cell = some old ∧ (old == v) = true ∧ (s.set cell v).get? cell = some old := by
  obtain ⟨slots, trail, starts⟩ := s
  have h : cell < slots.size := h
  have hs : slots[cell]? = some slots[cell] := Array.getElem?_eq_getElem h
  simp only [Store.set, hs]
  split
  · rename_i heq
    exact .inr ⟨slots[cell].value, by simp [get?, hs], heq, by simp [get?, hs]⟩
  · exact .inl (by simp [get?, h])

theorem int_set_self (s : Store Datum) {cell : Nat} (h : cell < s.slots.size) (v : Int) :
    (s.set cell (.int v)).int cell = v := by
  rcases get?_set_self s h (.int v) with hv | ⟨old, -, heq, hv⟩
  · rw [int, hv]
  · rw [int, hv]
    cases old with
    | int w => exact Datum.int_beq_iff.mp heq
    | bool _ => cases heq
    | double _ => cases heq
    | word _ => cases heq

theorem word_set_self (s : Store Datum) {cell : Nat} (h : cell < s.slots.size) (v : UInt64) :
    (s.set cell (.word v)).word cell = v := by
  rcases get?_set_self s h (.word v) with hv | ⟨old, -, heq, hv⟩
  · rw [word, hv]
  · rw [word, hv]
    cases old with
    | word w => exact Datum.word_beq_iff.mp heq
    | bool _ => cases heq
    | double _ => cases heq
    | int _ => cases heq

theorem int_set_of_ne (s : Store Datum) {cell c : Nat} (h : cell ≠ c) (v : Datum) :
    (s.set cell v).int c = s.int c := by rw [int, int, get?_set_of_ne s h]

theorem word_set_of_ne (s : Store Datum) {cell c : Nat} (h : cell ≠ c) (v : Datum) :
    (s.set cell v).word c = s.word c := by rw [word, word, get?_set_of_ne s h]

theorem add_of_fits (s : Store Datum) (cell : Nat) {d : Int} (h : Value.Fits (s.int cell + d)) :
    s.add cell d = .ok (s.int cell + d, s.set cell (.int (s.int cell + d))) := by
  simp only [add, Value.ofInt?, if_pos h]

/-- A flag that is cleared says no, whatever the cell held. -/
theorem flag_set_false (s : Store Datum) (cell : Nat) : (s.set cell (.bool false)).flag cell = false := by
  by_cases hlt : cell < s.slots.size
  · rcases s.get?_set_self hlt (.bool false) with hv | ⟨old, -, heq, hv⟩
    · rw [flag, hv]
    · rw [flag, hv]
      cases old with
      | bool b =>
        cases b with
        | false => rfl
        | true => cases heq
      | int _ | double _ | word _ => rfl
  · have hnone : (s.set cell (.bool false)).get? cell = none := by
      rw [get?, Array.getElem?_eq_none (by rw [size_slots_set]; exact Nat.le_of_not_lt hlt)]
      rfl
    rw [flag, hnone]

/-! ### Any number of writes -/

/-- The second store came about from the first by writes to cells of the set. -/
inductive Writes (P : Nat → Prop) (s : Store Datum) : Store Datum → Prop
  | refl : Writes P s s
  | set {t : Store Datum} (cell : Nat) (v : Datum) : Writes P s t → P cell → Writes P s (t.set cell v)

namespace Writes

variable {P Q : Nat → Prop} {s t u : Store Datum}

theorem one {cell : Nat} (h : P cell) (v : Datum) : Writes P s (s.set cell v) := .set cell v .refl h

theorem trans (h1 : Writes P s t) (h2 : Writes P t u) : Writes P s u := by
  induction h2 with
  | refl => exact h1
  | set cell v _ hc ih => exact .set cell v ih hc

theorem mono (h : Writes P s t) (hPQ : ∀ c, P c → Q c) : Writes Q s t := by
  induction h with
  | refl => exact .refl
  | set cell v _ hc ih => exact .set cell v ih (hPQ cell hc)

theorem size_eq (h : Writes P s t) : t.slots.size = s.slots.size := by
  induction h with
  | refl => rfl
  | set cell v _ _ ih => rw [size_slots_set, ih]

theorem world_eq (h : Writes P s t) : t.world = s.world := by
  induction h with
  | refl => rfl
  | set cell v _ _ ih => rw [world_set, ih]

theorem linked (h : Writes P s t) (hs : s.Linked) : t.Linked := by
  induction h with
  | refl => exact hs
  | set cell v _ _ ih => exact ih.set cell v

theorem get?_eq (h : Writes P s t) {c : Nat} (hc : ¬P c) : t.get? c = s.get? c := by
  induction h with
  | refl => rfl
  | set cell v _ hP ih =>
    rw [get?_set_of_ne _ (fun heq : cell = c => hc (heq ▸ hP)), ih]

/-- What was written in a world is gone when it is popped. -/
theorem pop_eq (h : Writes P s t) (hs : s.Linked) (hw : 0 < s.world) : t.pop = s.pop := by
  induction h with
  | refl => rfl
  | @set t cell v ht _ ih =>
    rw [Linked.pop_set (ht.linked hs) (by rw [ht.world_eq]; exact hw), ih]

theorem popMany_succ (h : Writes P s t) (hs : s.Linked) {n : Nat} (hp : t.popMany (n + 1) = .ok u) :
    s.popMany (n + 1) = .ok u := by
  rw [Store.popMany_succ] at hp ⊢
  obtain ⟨v, hv, -⟩ := bind_eq_ok.mp hp
  rwa [← h.pop_eq hs (h.world_eq ▸ world_pos_of_pop hv)]

end Writes

end Store

end FiniteDomain
