import FiniteDomain.Proofs.Propagation.Scheduling

/-!
# Who is called for

While a network propagates, changes are looked at and propagators are executed. From this past alone, and from what
was due when propagation began, it follows which propagators are called for, what they are told, and in which order
they come: a propagator is called for if a full pass is due or if a change concerned it since it was last executed.

* `heard`, `owes`, `Roused`: what the past means for one propagator;
* `line`: who waits in each class, first come first served;
* `Rested.line_spec`: those who wait are those called for, each once.
-/

namespace FiniteDomain

/-- One thing that happens while a network propagates. -/
inductive Happening where
  /-- A change was looked at when the model stood so. -/
  | noted (e : Event) (m : Model)
  | executed (id : PropId)

/-- What happened since a propagation began, the latest first. -/
abbrev Past := List Happening

namespace Network

/-! ### What the past means -/

/-- A change concerns a posted propagator at a place of its scope: the variable of the change stands there, the
change is one that is waited for there, it is not the propagator's own, and the propagator was active. -/
def hears (n : Network) (id : PropId) (place : Nat) (e : Event) (m : Model) : Bool :=
  match n.posts[id.index]? with
  | none => false
  | some p => decide (p.state ≠ .removed) && decide (p.propagator.scope[place]? = some e.var) &&
      e.kind.mask.intersects (p.propagator.condition place) && decide (e.cause ≠ .propagator id) &&
      m.store.flag p.active

/-- The conditions met at a place by the changes that concerned the propagator since it was last executed. -/
def heard (n : Network) (id : PropId) (place : Nat) : Past → EventMask
  | [] => .void
  | .noted e m :: past =>
    if n.hears id place e m then n.heard id place past ||| e.kind.mask else n.heard id place past
  | .executed i :: past => if i = id then .void else n.heard id place past

/-- A change concerned the propagator since it was last executed. -/
def Roused (n : Network) (id : PropId) : Past → Prop
  | [] => False
  | .noted e m :: past => (∃ place, n.hears id place e m = true) ∨ n.Roused id past
  | .executed i :: past => i ≠ id ∧ n.Roused id past

/-- A full pass was due when propagation began, and the propagator was not executed since. -/
def owes (n : Network) (id : PropId) : Past → Bool
  | [] => n.posts[id.index]?.any Post.full
  | .noted _ _ :: past => n.owes id past
  | .executed i :: past => if i = id then false else n.owes id past

/-- The propagator has something to do. -/
def Called (n : Network) (id : PropId) (past : Past) : Prop := n.owes id past = true ∨ n.Roused id past

/-- The places at which changes concerned the propagator since it was last executed, in increasing order, with the
conditions met there. -/
def calls (n : Network) (id : PropId) (past : Past) : List (Nat × EventMask) :=
  match n.posts[id.index]? with
  | none => []
  | some p => ((List.range p.propagator.scope.size).map fun place => (place, n.heard id place past)).filter
      fun call => !call.2.isEmpty

/-- Goes to the end of a line, unless it stands there already. -/
def queueUp (line : List PropId) (id : PropId) : List PropId := if id ∈ line then line else line ++ [id]

/-- The propagators of a class that a change concerns, in the order of posting. -/
def hearers (n : Network) (π : Priority) (e : Event) (m : Model) : List PropId :=
  (n.posts.toList.zipIdx.filter fun q => q.1.propagator.priority = π ∧
    ∃ place < q.1.propagator.scope.size, n.hears ⟨q.2⟩ place e m = true).map fun q => ⟨q.2⟩

/-- Those of a class who wait, the first to come in front. -/
def line (n : Network) (π : Priority) : Past → List PropId
  | [] => n.agenda.queue π
  | .noted e m :: past => (n.hearers π e m).foldl queueUp (n.line π past)
  | .executed i :: past => (n.line π past).filter fun id => id ≠ i

variable {n : Network} {id i : PropId} {π : Priority} {past : Past} {e : Event} {m : Model}

/-- What a change has to be to concern a propagator. -/
theorem hears_iff {place : Nat} : n.hears id place e m = true ↔ ∃ p, n.posts[id.index]? = some p ∧
    p.state ≠ .removed ∧ p.propagator.scope[place]? = some e.var ∧
    e.kind.mask.intersects (p.propagator.condition place) = true ∧ e.cause ≠ .propagator id ∧
    m.store.flag p.active = true := by
  rw [hears]
  cases n.posts[id.index]? with
  | none => simp
  | some p => simp [and_assoc]

theorem lt_of_hears {p : Post} (hp : n.posts[id.index]? = some p) {place : Nat} (h : n.hears id place e m = true) :
    place < p.propagator.scope.size := by
  obtain ⟨q, hq, -, hscope, -⟩ := hears_iff.mp h
  cases hp.symm.trans hq
  exact (Array.getElem?_eq_some_iff.mp hscope).1

theorem called_executed : n.Called id (.executed i :: past) ↔ id ≠ i ∧ n.Called id past := by
  rw [Called, Called, owes, Roused]
  by_cases hi : i = id
  · simp [hi]
  · simp [hi, Ne.symm hi]

theorem called_noted : n.Called id (.noted e m :: past) ↔
    n.Called id past ∨ ∃ place, n.hears id place e m = true := by
  rw [Called, Called, owes, Roused, or_comm (a := ∃ place, _), or_assoc]

theorem exists_of_owes (h : n.owes id past = true) : ∃ p, n.posts[id.index]? = some p ∧ p.full = true := by
  induction past with
  | nil =>
    rw [owes] at h
    cases hp : n.posts[id.index]? with
    | none =>
      rw [hp] at h
      cases h
    | some p =>
      rw [hp] at h
      exact ⟨p, rfl, h⟩
  | cons happening past ih =>
    cases happening with
    | noted e m => exact ih h
    | executed i =>
      rw [owes] at h
      split at h
      · cases h
      · exact ih h

theorem exists_of_roused (h : n.Roused id past) : ∃ p, n.posts[id.index]? = some p ∧ p.state ≠ .removed := by
  induction past with
  | nil => exact h.elim
  | cons happening past ih =>
    cases happening with
    | noted e m =>
      rcases h with ⟨place, hears⟩ | h
      · obtain ⟨p, hp, hlive, -⟩ := hears_iff.mp hears
        exact ⟨p, hp, hlive⟩
      · exact ih h
    | executed i => exact ih h.2

/-- Only who was posted and not removed is called for. -/
theorem Coherent.exists_of_called (h : n.Coherent) (hc : n.Called id past) :
    ∃ p, n.posts[id.index]? = some p ∧ p.state ≠ .removed := by
  rcases hc with howes | hroused
  · obtain ⟨p, hp, hfull⟩ := exists_of_owes howes
    refine ⟨p, hp, fun hremoved => ?_⟩
    have := (h.sound.fits id p hp).full hfull
    simp [hremoved] at this
  · exact exists_of_roused hroused

/-! ### Who waits -/

theorem mem_foldl_queueUp {ids line : List PropId} : id ∈ ids.foldl queueUp line ↔ id ∈ line ∨ id ∈ ids := by
  induction ids generalizing line with
  | nil => simp
  | cons i rest ih =>
    rw [List.foldl_cons, ih, queueUp, List.mem_cons]
    split
    · rename_i hmem
      constructor
      · exact Or.imp_right .inr
      · rintro (h | rfl | h)
        · exact .inl h
        · exact .inl hmem
        · exact .inr h
    · rw [List.mem_append, List.mem_singleton, or_assoc]

theorem nodup_foldl_queueUp {ids line : List PropId} (h : line.Nodup) : (ids.foldl queueUp line).Nodup := by
  refine List.foldlRecOn _ _ h fun line h i _ => ?_
  rw [queueUp]
  split
  · exact h
  · rename_i hout
    refine List.nodup_append.mpr ⟨h, List.nodup_singleton i, ?_⟩
    rintro j hj k hk rfl
    exact hout (List.mem_singleton.mp hk ▸ hj)

/-- The propagator is posted in the class. -/
def InClass (n : Network) (id : PropId) (π : Priority) : Prop :=
  ∃ p, n.posts[id.index]? = some p ∧ p.propagator.priority = π

instance (n : Network) (id : PropId) (π : Priority) : Decidable (n.InClass id π) :=
  decidable_of_iff (n.posts[id.index]?.any fun p => p.propagator.priority = π) (by
    rw [InClass]
    cases n.posts[id.index]? <;> simp)

theorem mem_hearers : id ∈ n.hearers π e m ↔ n.InClass id π ∧ ∃ place, n.hears id place e m = true := by
  rw [hearers, List.mem_map]
  constructor
  · rintro ⟨⟨p, i⟩, hq, rfl⟩
    obtain ⟨hmem, hcond⟩ := List.mem_filter.mp hq
    obtain ⟨hπ, place, -, h⟩ := of_decide_eq_true hcond
    rw [List.mk_mem_zipIdx_iff_getElem?, Array.getElem?_toList] at hmem
    exact ⟨⟨p, hmem, hπ⟩, place, h⟩
  · rintro ⟨⟨p, hp, hπ⟩, place, h⟩
    refine ⟨(p, id.index), List.mem_filter.mpr ⟨?_, decide_eq_true ⟨hπ, place, lt_of_hears hp h, h⟩⟩, rfl⟩
    rw [List.mk_mem_zipIdx_iff_getElem?, Array.getElem?_toList, hp]

/-- **Those who wait in a class are those of it that are called for, each once.** -/
theorem Rested.line_spec (h : n.Rested) (π : Priority) (past : Past) :
    (n.line π past).Nodup ∧ ∀ id, id ∈ n.line π past ↔ n.InClass id π ∧ n.Called id past := by
  induction past with
  | nil =>
    refine ⟨h.coherent.queues.nodup π, fun id => ?_⟩
    rw [line, h.coherent.queues.mem_iff, Called, owes, Roused, or_false, InClass]
    constructor
    · rintro ⟨p, hp, hs, hπ⟩
      exact ⟨⟨p, hp, hπ⟩, by rw [hp]; exact (h.rests p (Array.mem_of_getElem? hp)).due hs⟩
    · rintro ⟨⟨p, hp, hπ⟩, hfull⟩
      rw [hp] at hfull
      refine ⟨p, hp, ?_, hπ⟩
      exact ((h.coherent.sound.fits id p hp).full hfull).resolve_right (h.coherent.ne_failed h.failed hp)
  | cons happening past ih =>
    obtain ⟨hnodup, hmem⟩ := ih
    cases happening with
    | noted e m =>
      refine ⟨nodup_foldl_queueUp hnodup, fun id => ?_⟩
      rw [line, mem_foldl_queueUp, hmem, mem_hearers, called_noted, and_or_left]
    | executed i =>
      refine ⟨hnodup.filter _, fun id => ?_⟩
      rw [line, List.mem_filter, hmem, called_executed, decide_eq_true_iff]
      exact ⟨fun ⟨⟨hπ, hc⟩, hne⟩ => ⟨hπ, hne, hc⟩, fun ⟨hπ, hne, hc⟩ => ⟨⟨hπ, hc⟩, hne⟩⟩

end Network

end FiniteDomain
