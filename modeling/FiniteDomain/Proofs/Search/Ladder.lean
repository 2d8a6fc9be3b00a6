import FiniteDomain.Proofs.Branch.Heuristic
import FiniteDomain.Proofs.Branch.Path

/-!
# The worlds below a node

Below the world of a node lie those of the nodes above it, one for each decision on the path, and at the bottom
the world that the search began in. In each the store is still the one that its decision was taken in, so that
the assignments left there are those on the path to it.
-/

namespace FiniteDomain

/-! ### Posting to a settled network -/

namespace Roster

variable [Tolerance] {r : Roster} {m : Model} {c : Constraint}

omit [Tolerance] in
theorem flag_grow {e : Member} (h : e.cell < m.store.slots.size) (values : List Datum) :
    (m.store.grow values).flag e.cell = m.store.flag e.cell := by
  rw [Store.flag, Store.flag, Store.get?_grow_of_lt h]

/-- A further constraint with a cell of its own. -/
theorem Suits.post (h : r.Suits m) (hc : c.Suits m) (id : PropId) :
    (r.insert id ⟨c, m.store.slots.size⟩).Suits { m with store := m.store.grow [.bool true] } := by
  have hagrees := Model.Agrees.grow h.wellFormed [.bool true]
  have hold := h.agrees hagrees fun i e he => flag_grow (h.housed i e he) _
  refine ⟨hold.wellFormed, ?_, ?_, ?_, ?_, ?_⟩
  · intro i e he
    rcases insert_cases he with ⟨-, rfl⟩ | ⟨-, he⟩
    · exact hagrees.suits hc
    · exact hold.suits i e he
  · intro i e he
    rcases insert_cases he with ⟨-, rfl⟩ | ⟨-, he⟩
    · simp
    · exact hold.housed i e he
  · intro i e he
    rcases insert_cases he with ⟨-, rfl⟩ | ⟨-, he⟩
    · exact fun hown => Nat.lt_irrefl _ (((hagrees.owns_iff _).mp hown).lt h.wellFormed)
    · exact hold.apart i e he
  · intro i j e f he hf heq
    rcases insert_cases he with ⟨rfl, rfl⟩ | ⟨-, he'⟩ <;> rcases insert_cases hf with ⟨rfl, rfl⟩ | ⟨-, hf'⟩
    · rfl
    · have hlt := h.housed j f hf'
      rw [← heq] at hlt
      exact absurd hlt (Nat.lt_irrefl _)
    · have hlt := h.housed i e he'
      rw [heq] at hlt
      exact absurd hlt (Nat.lt_irrefl _)
    · exact h.distinct i j e f he' hf' heq
  · intro i e he hflag
    rcases insert_cases he with ⟨-, rfl⟩ | ⟨-, he⟩
    · rw [Store.flag, Store.get?_grow_new] at hflag
      cases hflag
    · exact hold.passive i e he hflag

theorem Settles.post (h : r.Settles m) (hc : c.Suits m) (hd : c.Decided m) (id : PropId) :
    (r.insert id ⟨c, m.store.slots.size⟩).Settles { m with store := m.store.grow [.bool true] } := by
  have hagrees := Model.Agrees.grow h.wellFormed [.bool true]
  refine ⟨h.toSuits.post hc id, fun i e he => ?_⟩
  rcases insert_cases he with ⟨-, rfl⟩ | ⟨-, he⟩
  · exact hagrees.decided hd
  · exact hagrees.decided (h.decided i e he)

end Roster

/-! ### Nodes -/

/-- What a search sets out from: its task, the model as it is then, and the constraints posted then. -/
structure Quest where
  task : SearchTask
  start : Model
  posted : Roster

namespace Quest

/-- The model with another store and no changes to look at. -/
def modelAt (q : Quest) (t : Store Datum) : Model := { q.start with store := t, events := #[] }

/-- The assignment is over the domains at the start, and all posted constraints admit it. -/
def Goal (q : Quest) (a : Assignment) : Prop := q.start.Allows a ∧ q.posted.Admits a

/-- The world of the root. -/
def root (q : Quest) : Nat := q.start.store.world + 1

end Quest

/-- At the node below some decisions all constraints are decided. The assignments left there are on the path,
and of those that are looked for none on the path is missing. -/
structure Node [Tolerance] (q : Quest) (r : Roster) (L : Assignment → Prop) (path : List Decision)
    (t : Store Datum) : Prop where
  settles : r.Settles (q.modelAt t)
  sound : ∀ a, (q.modelAt t).Allows a → q.start.Allows a ∧ OnPath path a
  complete : ∀ a, L a → OnPath path a → (q.modelAt t).Allows a

/-- The node at which a decision was taken whose alternatives are being tried. -/
structure Rung [Tolerance] (q : Quest) (r : Roster) (L : Assignment → Prop) (d : Decision) (path : List Decision)
    (t : Store Datum) : Prop extends Node q r L path t where
  parts : d.Parts (q.modelAt t)
  tried : d.tried = 1 ∨ d.tried = 2

/-- Popped world after world, the store comes to the nodes above and at last to the one that the search began
in, with some cells more. -/
def Ladder [Tolerance] (q : Quest) (r : Roster) (L : Assignment → Prop) : List Decision → Store Datum → Prop
  | [], s => ∃ values, s.pop = .ok (q.start.store.grow values)
  | d :: path, s => ∃ t, s.pop = .ok t ∧ Rung q r L d path t ∧ Ladder q r L path t

variable [Tolerance] {q : Quest} {r : Roster} {L L' : Assignment → Prop} {path : List Decision} {s t : Store Datum}

theorem Node.mono (h : Node q r L path t) (hL : ∀ a, L' a → L a) : Node q r L' path t :=
  ⟨h.settles, h.sound, fun a ha => h.complete a (hL a ha)⟩

theorem Node.linked (h : Node q r L path t) : t.Linked := h.settles.wellFormed.linked

theorem Rung.mono {d : Decision} (h : Rung q r L d path t) (hL : ∀ a, L' a → L a) : Rung q r L' d path t :=
  ⟨h.toNode.mono hL, h.parts, h.tried⟩

/-- A constraint on a variable that is not fixed is posted. -/
theorem Node.post (h : Node q r L path t) {c : Constraint} (id : PropId) (hc : c.Suits (q.modelAt t))
    (hd : c.Decided (q.modelAt t)) :
    Node q (r.insert id ⟨c, t.slots.size⟩) L path (t.grow [.bool true]) := by
  have hagrees := Model.Agrees.grow h.settles.wellFormed [.bool true]
  refine ⟨h.settles.post hc hd id, ?_, ?_⟩
  · exact fun a ha => h.sound a ((hagrees.allows_iff a).mp ha)
  · exact fun a hL hp => (hagrees.allows_iff a).mpr (h.complete a hL hp)

namespace Ladder

theorem mono (h : Ladder q r L path s) (hL : ∀ a, L' a → L a) : Ladder q r L' path s := by
  induction path generalizing s with
  | nil => exact h
  | cons d rest ih =>
    obtain ⟨t, hp, hr, hl⟩ := h
    exact ⟨t, hp, hr.mono hL, ih hl⟩

theorem tried (h : Ladder q r L path s) : ∀ d ∈ path, d.tried = 1 ∨ d.tried = 2 := by
  induction path generalizing s with
  | nil => exact fun d hd => absurd hd List.not_mem_nil
  | cons d rest ih =>
    obtain ⟨t, -, hr, hl⟩ := h
    exact List.forall_mem_cons.mpr ⟨hr.tried, ih hl⟩

theorem world_eq (h : Ladder q r L path s) (hs : s.Linked) : s.world = q.root + path.length := by
  induction path generalizing s with
  | nil =>
    obtain ⟨values, hp⟩ := h
    exact (hs.world_of_pop hp).symm
  | cons d rest ih =>
    obtain ⟨t, hp, hr, hl⟩ := h
    rw [← hs.world_of_pop hp, ih hl hr.linked, List.length_cons, Nat.add_assoc]

/-- The bottom of the ladder is the store that the search began in, with some cells more. -/
theorem popUntil_start (h : Ladder q r L path s) (hs : s.Linked) :
    ∃ values, s.popUntil q.start.store.world = .ok (q.start.store.grow values) := by
  have hw := h.world_eq hs
  have hroot : q.root = q.start.store.world + 1 := rfl
  have hmany : ∃ values, s.popMany (path.length + 1) = .ok (q.start.store.grow values) := by
    clear hw
    induction path generalizing s with
    | nil =>
      obtain ⟨values, hp⟩ := h
      exact ⟨values, by rw [List.length_nil, Store.popMany_succ, hp]; rfl⟩
    | cons d rest ih =>
      obtain ⟨t, hp, hr, hl⟩ := h
      obtain ⟨values, hm⟩ := ih hl hr.linked
      exact ⟨values, by rw [List.length_cons, Store.popMany_succ, hp]; exact hm⟩
  obtain ⟨values, hm⟩ := hmany
  refine ⟨values, Store.popUntil_eq_ok.mpr ⟨by omega, ?_⟩⟩
  rw [← hm]
  congr 1
  omega

/-- Below the first decision lies the root. -/
theorem popUntil_root (h : Ladder q r L path s) (hs : s.Linked) (hne : path ≠ []) :
    ∃ t, s.popUntil q.root = .ok t ∧ Ladder q r L [] t ∧ Node q r L [] t := by
  have hw := h.world_eq hs
  have hmany : ∃ t, s.popMany path.length = .ok t ∧ Ladder q r L [] t ∧ Node q r L [] t := by
    clear hw
    induction path generalizing s with
    | nil => exact absurd rfl hne
    | cons d rest ih =>
      obtain ⟨t, hp, hr, hl⟩ := h
      rw [List.length_cons, Store.popMany_succ, hp]
      cases rest with
      | nil => exact ⟨t, rfl, hl, hr.toNode⟩
      | cons e rest => exact ih hl hr.linked (by simp)
  obtain ⟨t, hm, h⟩ := hmany
  refine ⟨t, Store.popUntil_eq_ok.mpr ⟨by omega, ?_⟩, h⟩
  rw [← hm]
  congr 1
  omega

/-- Posting a constraint on the variables of all decisions of the path. -/
theorem post (h : Ladder q r L path s) (hs : s.Linked) {c : Constraint} (id : PropId)
    (hc : ∀ t, c.Suits (q.modelAt t)) (hfree : ∀ d ∈ path, d.var ∈ c.propagator.scope) :
    Ladder q (r.insert id ⟨c, s.slots.size⟩) L path (s.grow [.bool true]) := by
  induction path generalizing s with
  | nil =>
    obtain ⟨values, hp⟩ := h
    exact ⟨values ++ [.bool true], by rw [hs.pop_grow, hp]; exact congrArg _ (Store.grow_grow _ _ _)⟩
  | cons d rest ih =>
    obtain ⟨t, hp, hr, hl⟩ := h
    obtain ⟨hd, hfree⟩ := List.forall_mem_cons.mp hfree
    have hagrees := Model.Agrees.grow hr.settles.wellFormed [.bool true]
    rw [← hs.size_of_pop hp]
    refine ⟨t.grow [.bool true], by rw [hs.pop_grow, hp]; rfl, ⟨?_, hr.parts.agrees hagrees, hr.tried⟩,
      ih hl hr.linked hfree⟩
    exact hr.toNode.post id (hc t) fun hf => absurd (hf d.var hd) (hr.parts.free hr.settles.wellFormed)

end Ladder

end FiniteDomain
