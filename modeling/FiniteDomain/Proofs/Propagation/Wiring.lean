import FiniteDomain.Proofs.Activity
import FiniteDomain.Proofs.Constraint.Basic

/-!
# Wiring of a network

A *roster* says which constraints are posted under which numbers. A network is *wired* to it if the posts are
those of the roster, every variable is watched by the propagators of its constraints, and the agenda holds what
is scheduled.

* `Rouses`: what waking propagators does, for one change or for many;
* `Wired.post`, `Wired.unpost`, `Wired.flush`: the other steps that touch the posts.
-/

namespace FiniteDomain

/-- A posted constraint and the cell that says whether its propagator is still to be woken. -/
structure Member where
  constraint : Constraint
  cell : Nat

/-- The posted constraints by the numbers of their propagators. -/
abbrev Roster := PropId → Option Member

namespace Roster

/-- All constraints of the roster admit the assignment. -/
def Admits (r : Roster) (a : Assignment) : Prop := ∀ id e, r id = some e → e.constraint.Admits a

def insert (r : Roster) (id : PropId) (e : Member) : Roster := fun j => if j = id then some e else r j

def erase (r : Roster) (id : PropId) : Roster := fun j => if j = id then none else r j

theorem insert_self (r : Roster) (id : PropId) (e : Member) : r.insert id e id = some e := if_pos rfl

theorem insert_of_ne (r : Roster) {id j : PropId} (e : Member) (h : j ≠ id) : r.insert id e j = r j := if_neg h

/-- A member of the larger roster is the new one or was there before. -/
theorem insert_cases {r : Roster} {id j : PropId} {e f : Member} (h : r.insert id e j = some f) :
    (j = id ∧ f = e) ∨ (j ≠ id ∧ r j = some f) := by
  by_cases hj : j = id
  · subst hj
    rw [insert_self] at h
    cases h
    exact .inl ⟨rfl, rfl⟩
  · rw [insert_of_ne r e hj] at h
    exact .inr ⟨hj, h⟩

/-- Nothing that was posted goes away under a new number. -/
theorem insert_extends {r : Roster} {id j : PropId} {e f : Member} (hid : r id = none) (h : r j = some f) :
    r.insert id e j = some f := by
  rw [insert_of_ne r e, h]
  rintro rfl
  cases hid.symm.trans h

theorem admits_insert_iff {r : Roster} {id : PropId} {e : Member} {a : Assignment} (hid : r id = none) :
    (r.insert id e).Admits a ↔ r.Admits a ∧ e.constraint.Admits a := by
  constructor
  · exact fun h => ⟨fun j f hf => h j f (insert_extends hid hf), h id e (insert_self r id e)⟩
  · rintro ⟨h, he⟩ j f hf
    rcases insert_cases hf with ⟨rfl, rfl⟩ | ⟨-, hf⟩
    · exact he
    · exact h j f hf

theorem erase_cases {r : Roster} {id j : PropId} {f : Member} (h : r.erase id j = some f) :
    j ≠ id ∧ r j = some f := by
  rw [erase] at h
  by_cases hj : j = id
  · rw [if_pos hj] at h
    cases h
  · rw [if_neg hj] at h
    exact ⟨hj, h⟩

end Roster

namespace Agenda

/-- Those who wait. -/
def ids (a : Agenda) : List PropId := a.entries.map Prod.snd

theorem mem_ids_enqueue {a : Agenda} {priority : Priority} {id i : PropId} :
    i ∈ (a.enqueue priority id).ids ↔ i = id ∨ i ∈ a.ids := by
  have hinsert : ∀ l : List (Priority × PropId),
      i ∈ (insertEntry (priority, id) l).map Prod.snd ↔ i = id ∨ i ∈ l.map Prod.snd := by
    intro l
    induction l with
    | nil => simp [insertEntry]
    | cons e rest ih =>
      rw [insertEntry]
      split
      · rw [List.map_cons, List.mem_cons, ih, List.map_cons, List.mem_cons]
        exact or_left_comm
      · simp
  exact hinsert a.entries

theorem ids_of_next? {a b : Agenda} {id : PropId} (h : a.next? = some (id, b)) : a.ids = id :: b.ids := by
  obtain ⟨entries⟩ := a
  cases entries with
  | nil => cases h
  | cons e rest =>
    cases h
    rfl

theorem ids_of_next?_none {a : Agenda} (h : a.next? = none) : a.ids = [] := by
  obtain ⟨entries⟩ := a
  cases entries with
  | nil => rfl
  | cons e rest => cases h

theorem mem_ids_erase {a : Agenda} {id i : PropId} : i ∈ (a.erase id).ids ↔ i ≠ id ∧ i ∈ a.ids := by
  simp only [ids, erase, List.mem_map, List.mem_filter, decide_eq_true_eq]
  constructor
  · rintro ⟨e, ⟨he, hne⟩, rfl⟩
    exact ⟨hne, e, he, rfl⟩
  · rintro ⟨hne, e, he, rfl⟩
    exact ⟨e, ⟨he, hne⟩, rfl⟩

end Agenda

namespace Network

/-- The variable is watched so. -/
def Watches (watchers : Array (Array Watcher)) (x : VarId) (w : Watcher) : Prop :=
  ∃ ws, watchers[x.index]? = some ws ∧ w ∈ ws

/-- The propagator is on the agenda. -/
def Scheduled (n : Network) (id : PropId) : Prop := ∃ p, n.posts[id.index]? = some p ∧ p.state = .scheduled

/-- A full pass of the propagator is due. -/
def Owed (n : Network) (id : PropId) : Prop :=
  ∃ p, n.posts[id.index]? = some p ∧ p.full = true ∧ p.state ≠ .removed

structure Wired (r : Roster) (n : Network) : Prop where
  member : ∀ id e, r id = some e → ∃ p, n.posts[id.index]? = some p ∧
    p.propagator = e.constraint.propagator ∧ p.active = e.cell ∧ p.state ≠ .removed
  removed : ∀ id p, r id = none → n.posts[id.index]? = some p → p.state = .removed
  watched : ∀ id e place x, r id = some e → e.constraint.propagator.scope[place]? = some x →
    Watches n.watchers x ⟨id, place, e.constraint.propagator.condition place⟩
  queued : ∀ id, n.Scheduled id → id ∈ n.agenda.ids
  waiting : ∀ id ∈ n.agenda.ids, r id ≠ none
  owing : ∀ (id : PropId) p, n.posts[id.index]? = some p → p.full = true → p.state ≠ .idle
  calm : n.failed = false → ∀ (id : PropId) p, n.posts[id.index]? = some p → p.state ≠ .failed

variable {r : Roster} {n n' : Network}

/-! ### Changes of one post -/

theorem getElem?_posts_set {posts : Array Post} {id : PropId} {p : Post} (hp : posts[id.index]? = some p)
    (p' : Post) (j : PropId) :
    (posts.setIfInBounds id.index p')[j.index]? = if j = id then some p' else posts[j.index]? := by
  rw [Array.getElem?_setIfInBounds]
  by_cases hj : j = id
  · subst hj
    rw [if_pos rfl, if_pos rfl, if_pos (Array.getElem?_eq_some_iff.mp hp).1]
  · rw [if_neg hj, if_neg]
    intro heq
    apply hj
    cases j
    cases id
    cases heq
    rfl

/-- One post and the agenda change so that they still fit together. -/
theorem Wired.update (h : n.Wired r) {id : PropId} {p : Post} (hp : n.posts[id.index]? = some p) (p' : Post)
    {agenda : Agenda} {failed : Bool} (hprop : p'.propagator = p.propagator) (hactive : p'.active = p.active)
    (hremoved : p'.state = .removed ↔ p.state = .removed) (hfull : p'.full = true → p'.state ≠ .idle)
    (hself : p'.state = .scheduled → id ∈ agenda.ids)
    (hkept : ∀ j ∈ n.agenda.ids, j ≠ id → j ∈ agenda.ids)
    (hnew : ∀ j ∈ agenda.ids, j ∈ n.agenda.ids ∨ (j = id ∧ p'.state ≠ .removed))
    (hcalm : failed = false → n.failed = false ∧ p'.state ≠ .failed) (model : Model) (started : Bool)
    (last : Option Contradiction) (executions : Nat) :
    (Network.mk model (n.posts.setIfInBounds id.index p') n.watchers agenda started failed last executions).Wired
      r := by
  have hget := getElem?_posts_set hp p'
  refine ⟨?_, ?_, h.watched, ?_, ?_, ?_, ?_⟩
  · intro j e he
    obtain ⟨q, hq, h1, h2, h3⟩ := h.member j e he
    by_cases hj : j = id
    · subst hj
      cases hp.symm.trans hq
      exact ⟨p', by rw [hget, if_pos rfl], hprop.trans h1, hactive.trans h2, fun hc => h3 (hremoved.mp hc)⟩
    · exact ⟨q, by rw [hget, if_neg hj, hq], h1, h2, h3⟩
  · intro j q hj hq
    simp only [hget] at hq
    split at hq
    · rename_i hj'
      subst hj'
      cases hq
      exact hremoved.mpr (h.removed _ p hj hp)
    · exact h.removed j q hj hq
  · rintro j ⟨q, hq, hs⟩
    simp only [hget] at hq
    split at hq
    · rename_i hj'
      subst hj'
      cases hq
      exact hself hs
    · rename_i hj'
      exact hkept j (h.queued j ⟨q, hq, hs⟩) hj'
  · intro j hj
    rcases hnew j hj with hj | ⟨rfl, hstate⟩
    · exact h.waiting j hj
    · exact fun hc => hstate (hremoved.mpr (h.removed _ p hc hp))
  · intro j q hq
    simp only [hget] at hq
    split at hq
    · cases hq
      exact hfull
    · exact h.owing j q hq
  · intro hf j q hq
    simp only [hget] at hq
    split at hq
    · cases hq
      exact (hcalm hf).2
    · exact h.calm (hcalm hf).1 j q hq

/-! ### Waking -/

/-- From the first network to the second some propagators were woken. -/
structure Rouses (r : Roster) (n n' : Network) : Prop where
  frame : n' = { n with posts := n'.posts, agenda := n'.agenda }
  wired : n'.Wired r
  scheduled : ∀ id, n.Scheduled id → n'.Scheduled id

namespace Rouses

theorem refl (h : n.Wired r) : Rouses r n n := ⟨rfl, h, fun _ h => h⟩

theorem trans {n'' : Network} (h1 : Rouses r n n') (h2 : Rouses r n' n'') : Rouses r n n'' := by
  refine ⟨?_, h2.wired, fun id h => h2.scheduled id (h1.scheduled id h)⟩
  rw [h2.frame, h1.frame]

theorem model_eq (h : Rouses r n n') : n'.model = n.model := by rw [h.frame]

theorem failed_eq (h : Rouses r n n') : n'.failed = n.failed := by rw [h.frame]

theorem started_eq (h : Rouses r n n') : n'.started = n.started := by rw [h.frame]

/-- Many steps, each of which wakes some. -/
theorem foldl {α : Type} {f : Network → α → Network} (hf : ∀ n x, n.Wired r → Rouses r n (f n x)) (l : List α)
    (h : n.Wired r) : Rouses r n (l.foldl f n) := by
  induction l generalizing n with
  | nil => exact refl h
  | cons x rest ih =>
    have h1 := hf n x h
    exact h1.trans (ih h1.wired)

/-- What one of many steps wakes is awake at the end. -/
theorem scheduled_foldl {α : Type} {f : Network → α → Network} (hf : ∀ n x, n.Wired r → Rouses r n (f n x))
    {l : List α} {x : α} (hx : x ∈ l) (h : n.Wired r) {id : PropId}
    (hs : ∀ n', Rouses r n n' → (f n' x).Scheduled id) : (l.foldl f n).Scheduled id := by
  obtain ⟨l1, l2, rfl⟩ := List.append_of_mem hx
  rw [List.foldl_append, List.foldl_cons]
  have h1 : Rouses r n (l1.foldl f n) := foldl hf l1 h
  exact (foldl hf l2 (hf _ x h1.wired).wired).scheduled id (hs _ h1)

end Rouses

theorem wake_rouses (h : n.Wired r) {id : PropId} {p p' : Post} (hp : n.posts[id.index]? = some p)
    (hprop : p'.propagator = p.propagator) (hactive : p'.active = p.active) (hstate : p'.state = p.state) :
    Rouses r n (n.wake id p') := by
  have hget := getElem?_posts_set hp
  rw [wake]
  by_cases hidle : p'.state = .idle
  · rw [if_pos hidle]
    refine ⟨rfl, ?_, ?_⟩
    · refine h.update hp { p' with state := .scheduled } hprop hactive ?_ (fun _ => by simp)
        (fun _ => Agenda.mem_ids_enqueue.mpr (.inl rfl))
        (fun j hj _ => Agenda.mem_ids_enqueue.mpr (.inr hj)) ?_ (fun hf => ⟨hf, by simp⟩) _ _ _ _
      · simp only [reduceCtorEq, false_iff]
        rw [← hstate, hidle]
        simp
      · intro j hj
        exact (Agenda.mem_ids_enqueue.mp hj).symm.imp_right fun hj => ⟨hj, by simp⟩
    · rintro j ⟨q, hq, hs⟩
      by_cases hj : j = id
      · exact ⟨{ p' with state := .scheduled }, by simp only [hget, if_pos hj], rfl⟩
      · exact ⟨q, by simp only [hget, if_neg hj, hq], hs⟩
  · rw [if_neg hidle]
    refine ⟨rfl, ?_, ?_⟩
    · refine h.update hp p' hprop hactive (by rw [hstate]) (fun _ => hidle) ?_ (fun j hj _ => hj) (fun j hj => .inl hj)
        (fun hf => ⟨hf, ?_⟩) _ _ _ _
      · exact fun hs => h.queued id ⟨p, hp, hstate ▸ hs⟩
      · rw [hstate]
        exact h.calm hf id p hp
    · rintro j ⟨q, hq, hs⟩
      by_cases hj : j = id
      · subst hj
        cases hp.symm.trans hq
        exact ⟨p', by simp only [hget, if_pos], hstate.trans hs⟩
      · exact ⟨q, by simp only [hget, if_neg hj, hq], hs⟩

/-- Unless it failed or was removed, what is woken is scheduled. -/
theorem scheduled_wake {id : PropId} {p p' : Post} (hp : n.posts[id.index]? = some p)
    (hfailed : p'.state ≠ .failed) (hremoved : p'.state ≠ .removed) : (n.wake id p').Scheduled id := by
  have hget := getElem?_posts_set hp
  rw [wake]
  by_cases hidle : p'.state = .idle
  · rw [if_pos hidle]
    exact ⟨{ p' with state := .scheduled }, by simp only [hget, if_pos], rfl⟩
  · rw [if_neg hidle]
    refine ⟨p', by simp only [hget, if_pos], ?_⟩
    cases hs : p'.state with
    | idle => exact absurd hs hidle
    | scheduled => rfl
    | failed => exact absurd hs hfailed
    | removed => exact absurd hs hremoved

theorem scheduleFull_rouses (h : n.Wired r) (id : PropId) : Rouses r n (n.scheduleFull id) := by
  rw [scheduleFull]
  split
  · exact .refl h
  · rename_i p hp
    split
    · exact .refl h
    · exact wake_rouses h hp rfl rfl rfl

/-- After a full schedule every propagator that did not fail is on the agenda. -/
theorem scheduled_scheduleFull (h : n.Wired r) (hf : n.failed = false) {id : PropId} {e : Member}
    (he : r id = some e) : (n.scheduleFull id).Scheduled id := by
  obtain ⟨p, hp, -, -, hremoved⟩ := h.member id e he
  simp only [scheduleFull, hp, if_neg hremoved]
  exact scheduled_wake hp (h.calm hf id p hp) hremoved

theorem scheduleAll_rouses (h : n.Wired r) : Rouses r n n.scheduleAll :=
  Rouses.foldl (fun _ i h => scheduleFull_rouses h ⟨i⟩) _ h

theorem scheduled_scheduleAll (h : n.Wired r) (hf : n.failed = false) {id : PropId} {e : Member}
    (he : r id = some e) : n.scheduleAll.Scheduled id := by
  obtain ⟨p, hp, -⟩ := h.member id e he
  refine Rouses.scheduled_foldl (fun _ i h => scheduleFull_rouses h ⟨i⟩) (x := id.index) ?_ h ?_
  · exact List.mem_range.mpr (Array.getElem?_eq_some_iff.mp hp).1
  · exact fun n' hn => scheduled_scheduleFull hn.wired (hn.failed_eq.trans hf) he

/-! ### Changes of domains -/

theorem notify_rouses (h : n.Wired r) (ev : Event) (w : Watcher) : Rouses r n (n.notify ev w) := by
  rw [notify]
  split
  · exact .refl h
  · split
    · exact .refl h
    · rename_i p hp
      split
      · exact wake_rouses h hp rfl rfl rfl
      · exact .refl h

theorem distribute_rouses (h : n.Wired r) (ev : Event) : Rouses r n (n.distribute ev) := by
  rw [distribute]
  split
  · rw [← Array.foldl_toList]
    exact Rouses.foldl (fun _ w h => notify_rouses h ev w) _ h
  · exact .refl h

/-- A variable of the scope was fixed by another. -/
structure Stirs (id : PropId) (c : Constraint) (ev : Event) : Prop where
  scope : ev.var ∈ c.propagator.scope
  kind : ev.kind = .instantiate
  cause : ev.cause ≠ .propagator id

theorem scheduled_distribute (h : n.Wired r) (hf : n.failed = false) {id : PropId} {e : Member}
    (he : r id = some e) {ev : Event} (hev : Stirs id e.constraint ev)
    (hflag : n.model.store.flag e.cell = true) : (n.distribute ev).Scheduled id := by
  obtain ⟨place, hplace⟩ := Array.getElem?_of_mem hev.scope
  obtain ⟨ws, hws, hw⟩ := h.watched id e place ev.var he hplace
  simp only [distribute, hws]
  rw [← Array.foldl_toList]
  refine Rouses.scheduled_foldl (fun _ w h => notify_rouses h ev w) (Array.mem_toList_iff.mpr hw) h ?_
  intro n' hn
  obtain ⟨p, hp, -, hactive, hremoved⟩ := hn.wired.member id e he
  have hwakes : (decide (ev.cause = .propagator id) ||
      !ev.kind.mask.intersects (e.constraint.propagator.condition place)) = false := by
    rw [hev.kind, Constraint.wakes_on_instantiation, decide_eq_false hev.cause]
    rfl
  have hflag' : n'.model.store.flag p.active = true := by rw [hn.model_eq, hactive, hflag]
  simp only [notify, hwakes, hp, hflag', if_true]
  exact scheduled_wake hp (hn.wired.calm (hn.failed_eq.trans hf) id p hp) hremoved

theorem absorb_rouses (h : n.Wired r) : Rouses r { n with model := n.model.clearEvents } n.absorb := by
  have h' : Wired r { n with model := n.model.clearEvents } :=
    ⟨h.member, h.removed, h.watched, h.queued, h.waiting, h.owing, h.calm⟩
  rw [absorb, ← Array.foldl_toList]
  exact Rouses.foldl (fun _ ev h => distribute_rouses h ev) _ h'

theorem scheduled_absorb (h : n.Wired r) (hf : n.failed = false) {id : PropId} {e : Member}
    (he : r id = some e) {ev : Event} (hmem : ev ∈ n.model.events) (hev : Stirs id e.constraint ev)
    (hflag : n.model.store.flag e.cell = true) : n.absorb.Scheduled id := by
  have h' : Wired r { n with model := n.model.clearEvents } :=
    ⟨h.member, h.removed, h.watched, h.queued, h.waiting, h.owing, h.calm⟩
  rw [absorb, ← Array.foldl_toList]
  refine Rouses.scheduled_foldl (fun _ ev h => distribute_rouses h ev) (Array.mem_toList_iff.mpr hmem) h' ?_
  intro n' hn
  exact scheduled_distribute hn.wired (hn.failed_eq.trans hf) he hev (by rw [hn.model_eq]; exact hflag)

/-! ### Posting -/

theorem Watches.push {watchers : Array (Array Watcher)} {x : VarId} {w : Watcher} (h : Watches watchers x w)
    (i : Nat) (v : Watcher) : Watches (watchers.modify i fun ws => ws.push v) x w := by
  obtain ⟨ws, hws, hw⟩ := h
  by_cases hi : i = x.index
  · subst hi
    exact ⟨ws.push v, by simp [Array.getElem?_modify, hws], Array.mem_push_of_mem v hw⟩
  · exact ⟨ws, by simp [Array.getElem?_modify, hi, hws], hw⟩

theorem watches_push {watchers : Array (Array Watcher)} {x : VarId} (h : x.index < watchers.size)
    (v : Watcher) : Watches (watchers.modify x.index fun ws => ws.push v) x v :=
  ⟨watchers[x.index].push v, by rw [Array.getElem?_modify, if_pos rfl, Array.getElem?_eq_getElem h]; rfl,
    Array.mem_push_self⟩

/-- Whoever watched before still does, and the new propagator watches its scope. -/
theorem watch_spec (p : Propagator) (id : PropId) (watchers : Array (Array Watcher)) :
    (∀ x w, Watches watchers x w → Watches (watch watchers p id) x w) ∧
      ∀ (place : Nat) (x : VarId), p.scope[place]? = some x → x.index < watchers.size →
        Watches (watch watchers p id) x ⟨id, place, p.condition place⟩ := by
  have haux : ∀ (l : List (VarId × Nat)) (watchers : Array (Array Watcher)),
      (∀ x w, Watches watchers x w → Watches (l.foldl
        (fun watchers e => watchers.modify e.1.index fun ws => ws.push ⟨id, e.2, p.condition e.2⟩) watchers) x w) ∧
      ∀ e ∈ l, e.1.index < watchers.size → Watches (l.foldl
        (fun watchers e => watchers.modify e.1.index fun ws => ws.push ⟨id, e.2, p.condition e.2⟩) watchers)
          e.1 ⟨id, e.2, p.condition e.2⟩ := by
    intro l
    induction l with
    | nil => exact fun watchers => ⟨fun x w h => h, fun e he => by cases he⟩
    | cons e rest ih =>
      intro watchers
      obtain ⟨ih1, ih2⟩ := ih (watchers.modify e.1.index fun ws => ws.push ⟨id, e.2, p.condition e.2⟩)
      refine ⟨fun x w h => ih1 x w (h.push _ _), fun f hf hlt => ?_⟩
      rcases List.mem_cons.mp hf with rfl | hf
      · exact ih1 _ _ (watches_push hlt _)
      · exact ih2 f hf (by rw [Array.size_modify]; exact hlt)
  rw [watch, ← Array.foldl_toList]
  obtain ⟨h1, h2⟩ := haux p.scope.zipIdx.toList watchers
  refine ⟨h1, fun place x hx hlt => h2 (x, place) ?_ hlt⟩
  rw [Array.mem_toList_iff, Array.mk_mem_zipIdx_iff_getElem?]
  exact hx

/-- What became of a network by posting a constraint. -/
structure Posted (r : Roster) (c : Constraint) (n : Network) (id : PropId) (n' : Network) : Prop where
  id_eq : id = ⟨n.posts.size⟩
  model_eq : n'.model = { n.model with store := n.model.store.grow [.bool true] }
  scope : ∀ x ∈ c.propagator.scope, n.model.owns x = true
  wired : n'.Wired (r.insert id ⟨c, n.model.store.slots.size⟩)
  failed_eq : n'.failed = n.failed
  started_eq : n'.started = n.started
  executions_eq : n'.executions = n.executions
  scheduled : ∀ j, n.Scheduled j → n'.Scheduled j
  owed : n.started = true → n'.Owed id
  due : n.started = true → n.failed = false → n'.Scheduled id

theorem owed_scheduleFull {id : PropId} {p : Post} (hp : n.posts[id.index]? = some p) (hr : p.state ≠ .removed) :
    (n.scheduleFull id).Owed id := by
  have hget := getElem?_posts_set hp
  simp only [scheduleFull, hp, if_neg hr, wake]
  split
  · exact ⟨{ p with full := true, state := .scheduled }, by simp only [hget, if_pos], rfl, by simp⟩
  · exact ⟨{ p with full := true }, by simp only [hget, if_pos], rfl, hr⟩

theorem getElem?_posts_push {posts : Array Post} {p q : Post} {id : PropId}
    (h : (posts.push p)[id.index]? = some q) : (id = ⟨posts.size⟩ ∧ q = p) ∨ posts[id.index]? = some q := by
  rw [Array.getElem?_push] at h
  split at h
  · rename_i heq
    cases h
    exact .inl ⟨congrArg PropId.mk heq, rfl⟩
  · exact .inr h

theorem getElem?_posts_push_of_some {posts : Array Post} {q : Post} {id : PropId} (h : posts[id.index]? = some q)
    (p : Post) : (posts.push p)[id.index]? = some q := by
  obtain ⟨hlt, rfl⟩ := Array.getElem?_eq_some_iff.mp h
  exact Array.getElem?_push_lt hlt

/-- The network right after a propagator was entered. -/
theorem Wired.enter (h : n.Wired r) {c : Constraint} (hscope : ∀ x ∈ c.propagator.scope, n.model.owns x = true)
    (post : Post) (hp : post.propagator = c.propagator) (hs : post.state = .idle) (hfull : post.full = false)
    (model : Model) :
    Wired (r.insert ⟨n.posts.size⟩ ⟨c, post.active⟩) { n with
      model := model
      posts := n.posts.push post
      watchers := watch (n.watchers ++ Array.replicate (n.model.varCount - n.watchers.size) #[]) c.propagator
        ⟨n.posts.size⟩ } := by
  have hlt : ∀ (j : PropId) p, n.posts[j.index]? = some p → j ≠ ⟨n.posts.size⟩ := by
    intro j p hj heq
    have hlt := (Array.getElem?_eq_some_iff.mp hj).1
    rw [heq] at hlt
    exact Nat.lt_irrefl _ hlt
  obtain ⟨hwatch1, hwatch2⟩ := watch_spec c.propagator ⟨n.posts.size⟩
    (n.watchers ++ Array.replicate (n.model.varCount - n.watchers.size) #[])
  refine ⟨?_, ?_, ?_, ?_, ?_, ?_, ?_⟩
  · intro j e he
    rcases Roster.insert_cases he with ⟨rfl, rfl⟩ | ⟨-, he⟩
    · exact ⟨post, Array.getElem?_push_size, hp, rfl, by rw [hs]; simp⟩
    · obtain ⟨p, hj, h1, h2, h3⟩ := h.member j e he
      exact ⟨p, getElem?_posts_push_of_some hj _, h1, h2, h3⟩
  · intro j p hj hget
    rcases getElem?_posts_push hget with ⟨rfl, -⟩ | hget
    · rw [Roster.insert_self] at hj
      cases hj
    · rw [Roster.insert_of_ne r _ (hlt j p hget)] at hj
      exact h.removed j p hj hget
  · intro j e place x he hplace
    rcases Roster.insert_cases he with ⟨rfl, rfl⟩ | ⟨-, he⟩
    · refine hwatch2 place x hplace ?_
      have hx : n.model.owns x = true := hscope x (Array.mem_of_getElem? hplace)
      have hx : x.index < n.model.varCount := of_decide_eq_true hx
      rw [Array.size_append, Array.size_replicate]
      omega
    · obtain ⟨ws, hws, hw⟩ := h.watched j e place x he hplace
      refine hwatch1 x _ ⟨ws, ?_, hw⟩
      rw [Array.getElem?_append_left (Array.getElem?_eq_some_iff.mp hws).1, hws]
  · rintro j ⟨p, hget, hsch⟩
    rcases getElem?_posts_push hget with ⟨-, rfl⟩ | hget
    · rw [hs] at hsch
      cases hsch
    · exact h.queued j ⟨p, hget, hsch⟩
  · intro j hj hn
    obtain ⟨e, he⟩ := Option.ne_none_iff_exists'.mp (h.waiting j hj)
    obtain ⟨p, hget, -⟩ := h.member j e he
    rw [Roster.insert_of_ne r _ (hlt j p hget)] at hn
    exact h.waiting j hj hn
  · intro j p hget hf
    rcases getElem?_posts_push hget with ⟨-, rfl⟩ | hget
    · rw [hfull] at hf
      cases hf
    · exact h.owing j p hget hf
  · intro hf j p hget
    rcases getElem?_posts_push hget with ⟨-, rfl⟩ | hget
    · rw [hs]
      simp
    · exact h.calm hf j p hget

/-- A propagator is posted only over variables of the model. -/
theorem owns_of_post {p : Propagator} {before after : Array Notice} {s : PropId × Network}
    (h : n.post p before = .ok s after) : ∀ x ∈ p.scope, n.model.owns x = true := by
  intro x hx
  cases hfind : p.scope.find? fun x => !n.model.owns x with
  | none => simpa using Array.find?_eq_none.mp hfind x hx
  | some y =>
    simp only [post, hfind] at h
    cases h

theorem post_spec [Tolerance] (h : n.Wired r) {c : Constraint}
    (hscope : ∀ x ∈ c.propagator.scope, n.model.owns x = true) :
    (n.post c.propagator).Quiet fun s => Posted r c n s.1 s.2 := by
  rw [post]
  split
  · rename_i x hfind
    have hx := Array.find?_some hfind
    rw [hscope x (Array.mem_of_find?_eq_some hfind)] at hx
    cases hx
  · refine .bind (.report rfl) fun _ _ => ?_
    rw [Store.make_eq_grow]
    have hw := h.enter hscope
      { propagator := c.propagator
        active := n.model.store.slots.size
        pending := Array.replicate c.propagator.scope.size .void } rfl rfl rfl
      { n.model with store := n.model.store.grow [.bool true] }
    generalize hn' : ({ n with
      model := { n.model with store := n.model.store.grow [.bool true] }
      posts := n.posts.push
        { propagator := c.propagator
          active := n.model.store.slots.size
          pending := Array.replicate c.propagator.scope.size .void }
      watchers := watch (n.watchers ++ Array.replicate (n.model.varCount - n.watchers.size) #[]) c.propagator
        ⟨n.posts.size⟩ } : Network) = n' at hw
    have hpost : n'.posts[n.posts.size]? = some
        { propagator := c.propagator
          active := n.model.store.slots.size
          pending := Array.replicate c.propagator.scope.size .void } := by
      rw [← hn']
      exact Array.getElem?_push_size
    have hsch : ∀ j, n.Scheduled j → n'.Scheduled j := by
      rintro j ⟨p, hj, hs⟩
      exact ⟨p, hn' ▸ getElem?_posts_push_of_some hj _, hs⟩
    have hr := scheduleFull_rouses hw ⟨n.posts.size⟩
    refine .pure ?_
    subst hn'
    dsimp only
    split
    · rename_i hst
      exact ⟨rfl, hr.model_eq, hscope, hr.wired, hr.failed_eq, hr.started_eq, by rw [hr.frame],
        fun j hj => hr.scheduled j (hsch j hj), fun _ => owed_scheduleFull hpost (by simp),
        fun _ hf => scheduled_scheduleFull hw hf (Roster.insert_self r _ _)⟩
    · rename_i hst
      exact ⟨rfl, rfl, hscope, hw, rfl, rfl, rfl, hsch, fun hc => absurd hc hst, fun hc => absurd hc hst⟩

/-- What was posted was posted as it should be. -/
theorem Wired.posted (h : n.Wired r) {c : Constraint} {id : PropId} {before after : Array Notice}
    (hp : n.post c.propagator before = .ok (id, n') after) : Posted r c n id n' := by
  let := Tolerance.lax
  have hposted := post_spec h (owns_of_post hp) before
  rw [hp] at hposted
  obtain ⟨-, -, -, hposted⟩ := hposted
  exact hposted

/-- What became of a network by removing a constraint. -/
structure Unposted (r : Roster) (n : Network) (id : PropId) (n' : Network) : Prop where
  model_eq : n'.model = n.model
  wired : n'.Wired (r.erase id)
  failed_eq : n'.failed = n.failed
  started_eq : n'.started = n.started
  executions_eq : n'.executions = n.executions

/-- Only what is posted is removed. -/
theorem posted_of_unpost (h : n.Wired r) {i : PropId} {before after : Array Notice}
    (hu : n.unpost i before = .ok n' after) : r i ≠ none := by
  intro hi
  cases hp : n.posts[i.index]? with
  | none =>
    simp only [unpost, hp] at hu
    cases hu
  | some p =>
    simp only [unpost, hp, if_pos (h.removed i p hi hp)] at hu
    cases hu

theorem unpost_spec [Tolerance] (h : n.Wired r) {i : PropId} (hi : r i ≠ none) :
    (n.unpost i).Quiet fun n' => Unposted r n i n' := by
  obtain ⟨e, he⟩ := Option.ne_none_iff_exists'.mp hi
  obtain ⟨p, hp, -, -, hr⟩ := h.member i e he
  rw [unpost]
  split
  · rename_i hnone
    rw [hp] at hnone
    cases hnone
  · rename_i p' hp'
    cases hp.symm.trans hp'
    split
    · contradiction
    · refine .bind (.report rfl) fun _ _ => .pure ?_
      have hget := getElem?_posts_set hp
      have hne : ∀ j e, r.erase i j = some e → j ≠ i ∧ r j = some e := fun j e he => Roster.erase_cases he
      refine ⟨rfl, ⟨?_, ?_, ?_, ?_, ?_, ?_, ?_⟩, rfl, rfl, rfl⟩
      · intro j e he
        obtain ⟨hj, he⟩ := hne j e he
        obtain ⟨q, hq, hrest⟩ := h.member j e he
        exact ⟨q, by simp only [hget, if_neg hj, hq], hrest⟩
      · intro j q hj hq
        simp only [hget] at hq
        split at hq
        · cases hq
          rfl
        · rename_i hne
          exact h.removed j q (by rw [Roster.erase, if_neg hne] at hj; exact hj) hq
      · intro j e place x he hplace
        obtain ⟨hj, he⟩ := hne j e he
        obtain ⟨ws, hws, hw⟩ := h.watched j e place x he hplace
        refine ⟨ws.filter fun w => w.id ≠ i, ?_, Array.mem_filter.mpr ⟨hw, decide_eq_true hj⟩⟩
        rw [Array.getElem?_map, hws]
        rfl
      · rintro j ⟨q, hq, hs⟩
        simp only [hget] at hq
        split at hq
        · cases hq
          cases hs
        · rename_i hne
          exact Agenda.mem_ids_erase.mpr ⟨hne, h.queued j ⟨q, hq, hs⟩⟩
      · intro j hj
        obtain ⟨hne, hj⟩ := Agenda.mem_ids_erase.mp hj
        rw [Roster.erase, if_neg hne]
        exact h.waiting j hj
      · intro j q hq hf
        simp only [hget] at hq
        split at hq
        · cases hq
          cases hf
        · exact h.owing j q hq hf
      · intro hf j q hq
        simp only [hget] at hq
        split at hq
        · cases hq
          simp
        · exact h.calm hf j q hq

/-! ### Letting go -/

/-- What letting go makes of a post. -/
def letGo (p : Post) : Post :=
  if p.state = .removed then p
  else { p.clearPending with state := if p.full then .scheduled else .idle }

theorem state_letGo (p : Post) :
    (letGo p).state = if p.state = .removed then .removed else if p.full then .scheduled else .idle := by
  rw [letGo]
  split
  · assumption
  · rfl

theorem letGo_same (p : Post) : (letGo p).propagator = p.propagator ∧ (letGo p).executions = p.executions ∧
    (letGo p).full = p.full ∧ (letGo p).pending.size = p.pending.size := by
  rw [letGo]
  split
  · exact ⟨rfl, rfl, rfl, rfl⟩
  · exact ⟨rfl, rfl, rfl, Array.size_map ..⟩

theorem active_letGo (p : Post) : (letGo p).active = p.active := by
  rw [letGo]
  split <;> rfl

theorem state_letGo_ne_failed (p : Post) : (letGo p).state ≠ .failed := by
  rw [state_letGo]
  split
  · simp
  · split <;> simp

theorem posts_flush (n : Network) : n.flush.posts = n.posts.map letGo := rfl

theorem getElem?_posts_flush {id : PropId} {p : Post} (hp : n.posts[id.index]? = some p) :
    n.flush.posts[id.index]? = some (letGo p) := by
  rw [posts_flush, Array.getElem?_map, hp]
  rfl

theorem exists_of_flush {id : PropId} {q : Post} (hq : n.flush.posts[id.index]? = some q) :
    ∃ p, n.posts[id.index]? = some p ∧ q = letGo p := by
  rw [posts_flush, Array.getElem?_map] at hq
  obtain ⟨p, hp, rfl⟩ := Option.map_eq_some_iff.mp hq
  exact ⟨p, hp, rfl⟩

/-- What is put on an agenda with the posts of a list are those that are scheduled. -/
theorem mem_ids_foldl_enqueue (l : List (Post × Nat)) {a : Agenda} {i : PropId} :
    i ∈ (l.foldl (fun (a : Agenda) e =>
      if e.1.state = .scheduled then a.enqueue e.1.propagator.priority ⟨e.2⟩ else a) a).ids ↔
      i ∈ a.ids ∨ ∃ e ∈ l, e.1.state = .scheduled ∧ i = ⟨e.2⟩ := by
  induction l generalizing a with
  | nil => simp
  | cons e rest ih =>
    rw [List.foldl_cons, ih]
    by_cases hs : e.1.state = .scheduled
    · rw [if_pos hs, Agenda.mem_ids_enqueue]
      simp only [List.mem_cons, exists_eq_or_imp, hs, true_and]
      exact or_assoc.trans or_left_comm
    · rw [if_neg hs]
      simp only [List.mem_cons, exists_eq_or_imp, hs, false_and, false_or]

theorem mem_ids_flush {i : PropId} : i ∈ n.flush.agenda.ids ↔ n.flush.Scheduled i := by
  have hagenda : n.flush.agenda = n.flush.posts.zipIdx.toList.foldl (fun (a : Agenda) e =>
      if e.1.state = .scheduled then a.enqueue e.1.propagator.priority ⟨e.2⟩ else a) {} := by
    rw [flush, ← Array.foldl_toList]
  rw [hagenda, mem_ids_foldl_enqueue]
  constructor
  · rintro (hn | ⟨e, he, hs, rfl⟩)
    · cases hn
    · rw [Array.mem_toList_iff, Array.mem_zipIdx_iff_getElem?] at he
      exact ⟨e.1, he, hs⟩
  · rintro ⟨p, hp, hs⟩
    refine .inr ⟨(p, i.index), ?_, hs, rfl⟩
    rw [Array.mem_toList_iff, Array.mk_mem_zipIdx_iff_getElem?]
    exact hp

/-- A pass that was due is due again, on the agenda. -/
theorem Owed.flush {i : PropId} (h : n.Owed i) : n.flush.Scheduled i ∧ n.flush.Owed i := by
  obtain ⟨p, hp, hfull, hr⟩ := h
  have hs : (letGo p).state = .scheduled := by rw [state_letGo, if_neg hr, if_pos hfull]
  have hp' := getElem?_posts_flush hp
  exact ⟨⟨letGo p, hp', hs⟩, letGo p, hp', (letGo_same p).2.2.1.trans hfull, by simp [hs]⟩

/-- What became of a network when all that was pending was let go. -/
structure Flushed (r : Roster) (n n' : Network) : Prop where
  model_eq : n'.model = n.model.clearEvents
  wired : n'.Wired r
  failed_eq : n'.failed = false
  started_eq : n'.started = n.started
  executions_eq : n'.executions = n.executions
  scheduled : ∀ id, n.Owed id → n'.Scheduled id
  owed : ∀ id, n.Owed id → n'.Owed id

theorem flush_spec (h : n.Wired r) : Flushed r n n.flush := by
  refine ⟨rfl, ⟨?_, ?_, h.watched, fun i hi => mem_ids_flush.mpr hi, ?_, ?_, ?_⟩, rfl, rfl, rfl,
    fun i hi => hi.flush.1, fun i hi => hi.flush.2⟩
  · intro i e he
    obtain ⟨p, hp, h1, h2, h3⟩ := h.member i e he
    refine ⟨letGo p, getElem?_posts_flush hp, (letGo_same p).1.trans h1, (active_letGo p).trans h2, ?_⟩
    rw [state_letGo, if_neg h3]
    split <;> simp
  · intro i q hi hq
    obtain ⟨p, hp, rfl⟩ := exists_of_flush hq
    rw [state_letGo, if_pos (h.removed i p hi hp)]
  · intro i hi hn
    obtain ⟨q, hq, hs⟩ := mem_ids_flush.mp hi
    obtain ⟨p, hp, rfl⟩ := exists_of_flush hq
    rw [state_letGo, if_pos (h.removed i p hn hp)] at hs
    cases hs
  · intro i q hq hfull
    obtain ⟨p, hp, rfl⟩ := exists_of_flush hq
    rw [(letGo_same p).2.2.1] at hfull
    rw [state_letGo]
    split
    · simp
    · simp
  · intro _ i q hq
    obtain ⟨p, hp, rfl⟩ := exists_of_flush hq
    exact state_letGo_ne_failed p

end Network

/-! ### Worlds -/

section Worlds

variable {n : Network} {m m' : Model} {t : Store Datum}

theorem Network.mapModel_eq_ok {f : Model → Except Fault Model} (h : f n.model = .ok m') :
    n.mapModel f = .ok { n with model := m' } := by
  rw [Network.mapModel, h]
  rfl

theorem Model.popWorld_eq_ok (h : m.store.pop = .ok t) : m.popWorld = .ok { m with store := t } := by
  rw [Model.popWorld, h]
  rfl

theorem Model.popUntil_eq_ok {target : Nat} (h : m.store.popUntil target = .ok t) :
    m.popUntil target = .ok { m with store := t } := by
  rw [Model.popUntil, h]
  rfl

theorem Model.commitWorld_eq_ok (h : m.store.commit = .ok t) : m.commitWorld = .ok { m with store := t } := by
  rw [Model.commitWorld, h]
  rfl

end Worlds

end FiniteDomain
