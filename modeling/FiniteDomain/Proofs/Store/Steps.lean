import FiniteDomain.Proofs.Store.Writes

/-!
# Steps of a store

A store changes by new cells, writes, and the opening and closing of worlds. A cell that no step writes holds
in every open world what it was made with.
-/

namespace FiniteDomain

namespace Store

variable {s t u : Store Datum} {P Q : Nat → Prop} {c : Nat} {v : Datum}

theorem get?_grow_of_lt {c : Nat} (h : c < s.slots.size) (values : List Datum) :
    (s.grow values).get? c = s.get? c := by
  rw [get?, get?, getElem?_slots_grow_of_lt h]

theorem get?_grow_add (s : Store Datum) {values : List Datum} {i : Nat} (h : i < values.length) :
    (s.grow values).get? (s.slots.size + i) = some values[i] := by
  simp [get?, grow, h]

theorem get?_grow_new (s : Store Datum) (v : Datum) : (s.grow [v]).get? s.slots.size = some v := by
  have h : 0 < [v].length := Nat.zero_lt_one
  exact s.get?_grow_add h

theorem size_slots_merge (parent : Nat) (slots : Array (Slot Datum)) (trail : Array (Record Datum))
    (segment : List (Record Datum)) : (merge parent slots trail segment).1.size = slots.size := by
  rw [merge_eq, size_restamped]

/-- Merging a world changes stamps only. -/
theorem get?_commit (h : s.commit = .ok t) (c : Nat) : t.get? c = s.get? c := by
  obtain ⟨slots, trail, starts⟩ := s
  simp only [commit] at h
  split at h
  · cases h
  · cases h
    rw [get?, get?, merge_eq]
    simp only [getElem?_restamped]
    split
    · rfl
    · cases slots[c]? <;> rfl

theorem size_slots_commit (h : s.commit = .ok t) : t.slots.size = s.slots.size := by
  obtain ⟨slots, trail, starts⟩ := s
  simp only [commit] at h
  split at h
  · cases h
  · cases h
    exact size_slots_merge _ _ _ _

/-- The cell holds the value in the current world and in all worlds below. -/
def Throughout (s : Store Datum) (c : Nat) (v : Datum) : Prop := ∀ n t, s.popMany n = .ok t → t.get? c = some v

namespace Throughout

theorem get?_eq (h : s.Throughout c v) : s.get? c = some v := h 0 s rfl

theorem lt (h : s.Throughout c v) : c < s.slots.size := by
  have hget := h.get?_eq
  rw [get?, Option.map_eq_some_iff] at hget
  obtain ⟨slot, hslot, -⟩ := hget
  exact (Array.getElem?_eq_some_iff.mp hslot).1

theorem pop (h : s.Throughout c v) (hp : s.pop = .ok t) : t.Throughout c v := by
  intro n u hu
  refine h (n + 1) u ?_
  rw [popMany_succ, hp]
  exact hu

theorem push (h : s.Throughout c v) (hs : s.Linked) : s.push.Throughout c v := by
  intro n t ht
  cases n with
  | zero =>
    cases ht
    exact h.get?_eq
  | succ n =>
    rw [popMany_succ, hs.pop_push] at ht
    exact h n t ht

theorem grow (h : s.Throughout c v) (hs : s.Linked) (values : List Datum) : (s.grow values).Throughout c v := by
  intro n t ht
  rw [hs.popMany_grow] at ht
  obtain ⟨u, hu, rfl⟩ := map_eq_ok.mp ht
  have hget := h n u hu
  rw [get?_grow_of_lt ?_, hget]
  exact (show u.Throughout c v from fun m w hw => h (n + m) w (by rw [popMany_add, hu]; exact hw)).lt

theorem set (h : s.Throughout c v) (hs : s.Linked) {cell : Nat} (hc : cell ≠ c) (w : Datum) :
    (s.set cell w).Throughout c v := by
  intro n t ht
  cases n with
  | zero =>
    cases ht
    rw [get?_set_of_ne s hc]
    exact h.get?_eq
  | succ n =>
    have hw : 0 < s.world := by
      rw [popMany_succ] at ht
      obtain ⟨u, hu, -⟩ := bind_eq_ok.mp ht
      rw [← world_set s cell w]
      exact world_pos_of_pop hu
    rw [popMany_succ, hs.pop_set hw] at ht
    exact h (n + 1) t ht

theorem commit (h : s.Throughout c v) (hs : s.Linked) (hc : s.commit = .ok t) : t.Throughout c v := by
  intro n u hu
  cases n with
  | zero =>
    cases hu
    rw [get?_commit hc]
    exact h.get?_eq
  | succ n =>
    have hw : 1 < s.world := by
      rw [popMany_succ] at hu
      obtain ⟨w, hw, -⟩ := bind_eq_ok.mp hu
      obtain ⟨t', ht', -, hworld, -⟩ := hs.exists_commit (world_pos_of_commit hc)
      cases hc.symm.trans ht'
      have := world_pos_of_pop hw
      omega
    rw [popMany_succ, hs.pop_commit hw hc] at hu
    refine h (n + 2) u ?_
    simpa only [popMany_succ, bind_assoc] using hu

end Throughout

/-- A new cell. -/
theorem Linked.throughout_new (hs : s.Linked) (v : Datum) : (s.grow [v]).Throughout s.slots.size v := by
  intro n t ht
  rw [hs.popMany_grow] at ht
  obtain ⟨u, hu, rfl⟩ := map_eq_ok.mp ht
  have hn : n ≤ s.world := by
    refine Nat.le_of_not_lt fun hlt => ?_
    rw [show n = s.world + (n - s.world - 1 + 1) by omega, popMany_add] at hu
    obtain ⟨w, hw, -, hzero, -⟩ := hs.exists_popMany (Nat.le_refl s.world)
    rw [hw, ok_bind, popMany_succ] at hu
    obtain ⟨x, hx, -⟩ := bind_eq_ok.mp hu
    have := world_pos_of_pop hx
    omega
  obtain ⟨w, hw, -, -, hsize⟩ := hs.exists_popMany hn
  cases hu.symm.trans hw
  rw [← hsize]
  exact get?_grow_new u v

/-- The second store came about from the first by steps that write to cells of the set only. -/
inductive Steps (P : Nat → Prop) (s : Store Datum) : Store Datum → Prop
  | refl : Steps P s s
  | grow {t : Store Datum} (values : List Datum) : Steps P s t → Steps P s (t.grow values)
  | set {t : Store Datum} (cell : Nat) (v : Datum) : Steps P s t → P cell → Steps P s (t.set cell v)
  | push {t : Store Datum} : Steps P s t → Steps P s t.push
  | pop {t u : Store Datum} : Steps P s t → t.pop = .ok u → Steps P s u
  | commit {t u : Store Datum} : Steps P s t → t.commit = .ok u → Steps P s u

namespace Steps

theorem mono (h : Steps P s t) (hPQ : ∀ c, P c → Q c) : Steps Q s t := by
  induction h with
  | refl => exact .refl
  | grow values _ ih => exact .grow values ih
  | set cell v _ hc ih => exact .set cell v ih (hPQ cell hc)
  | push _ ih => exact .push ih
  | pop _ hp ih => exact .pop ih hp
  | commit _ hc ih => exact .commit ih hc

theorem writes (h : Steps P s t) (hw : Writes P t u) : Steps P s u := by
  induction hw with
  | refl => exact h
  | set cell v _ hc ih => exact .set cell v ih hc

theorem trans (h1 : Steps P s t) (h2 : Steps P t u) : Steps P s u := by
  induction h2 with
  | refl => exact h1
  | grow values _ ih => exact .grow values ih
  | set cell v _ hc ih => exact .set cell v ih hc
  | push _ ih => exact .push ih
  | pop _ hp ih => exact .pop ih hp
  | commit _ hc ih => exact .commit ih hc

theorem popMany (h : Steps P s t) {n : Nat} (hp : t.popMany n = .ok u) : Steps P s u := by
  induction n generalizing t with
  | zero =>
    cases hp
    exact h
  | succ n ih =>
    rw [popMany_succ] at hp
    obtain ⟨w, hw, hp⟩ := bind_eq_ok.mp hp
    exact ih (.pop h hw) hp

theorem linked (h : Steps P s t) (hs : s.Linked) : t.Linked := by
  induction h with
  | refl => exact hs
  | grow values _ ih => exact ih.grow values
  | set cell v _ _ ih => exact ih.set cell v
  | push _ ih => exact ih.push
  | pop _ hp ih => exact ih.of_pop hp
  | commit _ hc ih => exact ih.of_commit hc

theorem size_le (h : Steps P s t) (hs : s.Linked) : s.slots.size ≤ t.slots.size := by
  induction h with
  | refl => exact Nat.le_refl _
  | grow values _ ih => exact Nat.le_trans ih (by simp)
  | set cell v _ _ ih => rwa [size_slots_set]
  | push _ ih => exact ih
  | pop ht hp ih => rwa [(ht.linked hs).size_of_pop hp]
  | commit _ hc ih => rwa [size_slots_commit hc]

/-- **What is never written stays in every open world.** -/
theorem throughout (h : Steps P s t) (hs : s.Linked) (hc : ¬P c) (hv : s.Throughout c v) : t.Throughout c v := by
  induction h with
  | refl => exact hv
  | grow values ht ih => exact ih.grow (ht.linked hs) values
  | set cell w ht hP ih => exact ih.set (ht.linked hs) (fun heq => hc (heq ▸ hP)) w
  | push ht ih => exact ih.push (ht.linked hs)
  | pop _ hp ih => exact ih.pop hp
  | commit ht hcommit ih => exact ih.commit (ht.linked hs) hcommit

end Steps

end Store

end FiniteDomain
