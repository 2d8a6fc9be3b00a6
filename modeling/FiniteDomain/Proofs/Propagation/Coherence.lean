import FiniteDomain.Proofs.Propagation.Agenda
import FiniteDomain.Proofs.Propagation.Wiring

/-!
# Coherent networks

Whether a propagator waits is written down five times: in its state, in the queue of its class, in what is
pending for it, in the full pass that is due, and with those who watch the variables of its scope. In a
*coherent* network these agree.

* `Queues.update`, `Sound.update`: one post changes, with the three ways in which it moves between the queues;
* `Coherent.wake`, and from it that looking at changes keeps a network coherent (`Coherent.absorb`).
-/

namespace FiniteDomain

namespace Post

/-- How a post enters itself with those who watch a variable: once for each place of its scope at which the
variable stands, unless it was removed. -/
def entries (p : Post) (id : PropId) (x : VarId) : List Watcher :=
  if p.state = .removed then []
  else (p.propagator.scope.toList.zipIdx.filter fun e => e.1 = x).map fun e => ⟨id, e.2, p.propagator.condition e.2⟩

/-- An entry bears the number of its post, a place at which the variable stands and what is waited for there. -/
theorem mem_entries {p : Post} {id : PropId} {x : VarId} {w : Watcher} : w ∈ p.entries id x ↔
    w.id = id ∧ p.state ≠ .removed ∧ p.propagator.scope[w.place]? = some x ∧
      w.condition = p.propagator.condition w.place := by
  obtain ⟨i, place, condition⟩ := w
  rw [entries]
  by_cases hlive : p.state = .removed
  · simp [hlive]
  · rw [if_neg hlive, List.mem_map]
    constructor
    · rintro ⟨⟨y, j⟩, hf, heq⟩
      obtain ⟨hy, hx⟩ := List.mem_filter.mp hf
      cases heq
      cases of_decide_eq_true hx
      rw [List.mk_mem_zipIdx_iff_getElem?, Array.getElem?_toList] at hy
      exact ⟨rfl, hlive, hy, rfl⟩
    · rintro ⟨rfl, -, hx, hcondition⟩
      dsimp only at hx hcondition
      subst hcondition
      refine ⟨(x, place), List.mem_filter.mpr ⟨?_, decide_eq_true rfl⟩, rfl⟩
      rw [List.mk_mem_zipIdx_iff_getElem?, Array.getElem?_toList, hx]

/-- What is written down about a post agrees with its state. -/
structure Fits (p : Post) (failed : Bool) : Prop where
  places : p.pending.size = p.propagator.scope.size
  pending : ∀ mask ∈ p.pending, mask ≠ .void → p.state = .scheduled
  full : p.full = true → p.state = .scheduled ∨ p.state = .failed
  failed : p.state = .failed → failed = true

end Post

namespace Network

/-- All entries of the posts for a variable, in the order of posting. -/
def entriesOf (posts : Array Post) (x : VarId) : List Watcher :=
  posts.toList.zipIdx.flatMap fun e => e.1.entries ⟨e.2⟩ x

/-- Those who watch a variable. -/
def watchersOf (watchers : Array (Array Watcher)) (x : VarId) : List Watcher :=
  (watchers[x.index]?.getD #[]).toList

/-- The queues hold the scheduled posts, each once and in the queue of its class. -/
structure Queues (posts : Array Post) (agenda : Agenda) : Prop where
  ordered : agenda.Ordered
  mem_iff : ∀ π (id : PropId), id ∈ agenda.queue π ↔
    ∃ p, posts[id.index]? = some p ∧ p.state = .scheduled ∧ p.propagator.priority = π
  nodup : ∀ π, (agenda.queue π).Nodup

/-- Each post fits its state, and at most one failed. -/
structure Sound (posts : Array Post) (failed : Bool) : Prop where
  fits : ∀ (id : PropId) p, posts[id.index]? = some p → p.Fits failed
  unique : ∀ (i j : PropId) p q, posts[i.index]? = some p → posts[j.index]? = some q → p.state = .failed →
    q.state = .failed → i = j

/-- All that is written down about the posts of a network agrees. -/
structure Coherent (n : Network) : Prop where
  queues : Queues n.posts n.agenda
  sound : Sound n.posts n.failed
  watched : ∀ x, watchersOf n.watchers x = entriesOf n.posts x
  counted : n.executions = (n.posts.toList.map Post.executions).sum

/-! ### Changes of one post -/

section Update

variable {posts : Array Post} {agenda agenda' : Agenda} {failed failed' : Bool} {id : PropId} {p p' : Post}

/-- A post moved between the queues, and the others stayed where they were. -/
theorem Queues.update (h : Queues posts agenda) (hp : posts[id.index]? = some p)
    (hpriority : p'.propagator.priority = p.propagator.priority) (hordered : agenda'.Ordered)
    (hself : ∀ π, id ∈ agenda'.queue π ↔ p'.state = .scheduled ∧ p.propagator.priority = π)
    (hother : ∀ π j, j ≠ id → (j ∈ agenda'.queue π ↔ j ∈ agenda.queue π)) (hnodup : ∀ π, (agenda'.queue π).Nodup) :
    Queues (posts.setIfInBounds id.index p') agenda' := by
  have hget := getElem?_posts_set hp p'
  refine ⟨hordered, fun π j => ?_, hnodup⟩
  rw [hget]
  by_cases hj : j = id
  · subst hj
    rw [if_pos rfl, hself, ← hpriority]
    simp
  · rw [if_neg hj, hother π j hj, h.mem_iff]

theorem Queues.keep (h : Queues posts agenda) (hp : posts[id.index]? = some p)
    (hpriority : p'.propagator.priority = p.propagator.priority)
    (hstate : p'.state = .scheduled ↔ p.state = .scheduled) : Queues (posts.setIfInBounds id.index p') agenda := by
  refine h.update hp hpriority h.ordered (fun π => ?_) (fun _ _ _ => Iff.rfl) h.nodup
  rw [h.mem_iff, hstate, hp]
  simp

theorem Queues.enqueue (h : Queues posts agenda) (hp : posts[id.index]? = some p)
    (hpriority : p'.propagator.priority = p.propagator.priority) (hbefore : p.state ≠ .scheduled)
    (hafter : p'.state = .scheduled) :
    Queues (posts.setIfInBounds id.index p') (agenda.enqueue p.propagator.priority id) := by
  have hout : ∀ π, id ∉ agenda.queue π := by
    intro π hmem
    obtain ⟨q, hq, hs, -⟩ := (h.mem_iff π id).mp hmem
    cases hp.symm.trans hq
    exact hbefore hs
  refine h.update hp hpriority (h.ordered.enqueue _ _) (fun π => ?_) (fun π j hj => ?_) (fun π => ?_)
  · rw [Agenda.queue_enqueue h.ordered]
    by_cases hπ : π = p.propagator.priority
    · simp [hπ, hafter]
    · simp [hπ, hout π, Ne.symm hπ]
  · rw [Agenda.queue_enqueue h.ordered]
    split <;> simp [hj]
  · rw [Agenda.queue_enqueue h.ordered]
    split
    · refine List.nodup_append.mpr ⟨h.nodup π, by simp, ?_⟩
      rintro i hi j hj rfl
      rw [List.mem_singleton.mp hj] at hi
      exact hout π hi
    · exact h.nodup π

theorem Queues.drop (h : Queues posts agenda) (hp : posts[id.index]? = some p)
    (hpriority : p'.propagator.priority = p.propagator.priority) (hordered : agenda'.Ordered)
    (hqueue : ∀ π, agenda'.queue π = (agenda.queue π).filter fun i => i ≠ id) (hafter : p'.state ≠ .scheduled) :
    Queues (posts.setIfInBounds id.index p') agenda' := by
  refine h.update hp hpriority hordered (fun π => ?_) (fun π j hj => ?_) (fun π => ?_)
  · simp [hqueue, hafter]
  · simp [hqueue, hj]
  · rw [hqueue]
    exact (h.nodup π).filter _

/-- The next to run is posted and scheduled. -/
theorem Queues.exists_next? (h : Queues posts agenda) (hn : agenda.next? = some (id, agenda')) :
    ∃ p, posts[id.index]? = some p ∧ p.state = .scheduled := by
  obtain ⟨-, π, hfirst, -⟩ := Agenda.next?_spec h.ordered hn
  obtain ⟨p, hp, hs, -⟩ := (h.mem_iff π id).mp (hfirst ▸ List.mem_cons_self)
  exact ⟨p, hp, hs⟩

theorem Queues.scheduled_next? (h : Queues posts agenda) (hn : agenda.next? = some (id, agenda'))
    (hp : posts[id.index]? = some p) : p.state = .scheduled := by
  obtain ⟨q, hq, hs⟩ := h.exists_next? hn
  cases hp.symm.trans hq
  exact hs

/-- Taking out the next to run leaves the others where they are. -/
theorem Queues.queue_next? (h : Queues posts agenda) (hn : agenda.next? = some (id, agenda')) :
    ∀ π, agenda'.queue π = (agenda.queue π).filter fun i => i ≠ id := by
  obtain ⟨-, σ, hfirst, hrest, -⟩ := Agenda.next?_spec h.ordered hn
  have hmem : id ∈ agenda.queue σ := hfirst ▸ List.mem_cons_self
  obtain ⟨p, hp, -, hpriority⟩ := (h.mem_iff σ id).mp hmem
  intro π
  by_cases hπ : π = σ
  · subst hπ
    have hnodup := h.nodup π
    rw [hfirst, List.nodup_cons] at hnodup
    rw [hfirst, List.filter_cons_of_neg (by simp)]
    refine (List.filter_eq_self.mpr fun i hi => decide_eq_true ?_).symm
    rintro rfl
    exact hnodup.1 hi
  · rw [hrest π hπ]
    refine (List.filter_eq_self.mpr fun i hi => decide_eq_true ?_).symm
    rintro rfl
    rw [← hrest π hπ] at hi
    obtain ⟨q, hq, -, hpriority'⟩ := (h.mem_iff π i).mp hi
    cases hp.symm.trans hq
    exact hπ (hpriority'.symm.trans hpriority)

theorem Sound.update (h : Sound posts failed) (hp : posts[id.index]? = some p) (hfits : p'.Fits failed')
    (hflag : failed = true → failed' = true)
    (hstate : p'.state = .failed → p.state = .failed ∨ failed = false) :
    Sound (posts.setIfInBounds id.index p') failed' := by
  have hget := getElem?_posts_set hp p'
  -- the post that failed is the only one, since before it either failed already or nobody did
  have halone : p'.state = .failed → ∀ (j : PropId) q, posts[j.index]? = some q → q.state = .failed → j = id := by
    intro hp' j q hq hs
    rcases hstate hp' with hold | hnone
    · exact h.unique j id q p hq hp hs hold
    · have := (h.fits j q hq).failed hs
      rw [hnone] at this
      cases this
  refine ⟨fun j q hq => ?_, fun i j q q' hq hq' hs hs' => ?_⟩
  · rw [hget] at hq
    split at hq
    · cases hq
      exact hfits
    · obtain ⟨h1, h2, h3, h4⟩ := h.fits j q hq
      exact ⟨h1, h2, h3, fun hs => hflag (h4 hs)⟩
  · rw [hget] at hq hq'
    split at hq <;> split at hq'
    · rename_i hi hj
      rw [hi, hj]
    · rename_i hi hj
      cases hq
      rw [hi]
      exact (halone hs j q' hq' hs').symm
    · rename_i hi hj
      cases hq'
      rw [hj]
      exact halone hs' i q hq hs
    · exact h.unique i j q q' hq hq' hs hs'

/-- What is made of each post with its number, after one of them changed. -/
theorem map_zipIdx_set {β : Type} (hp : posts[id.index]? = some p) {f g : Post × Nat → β}
    (hself : g (p', id.index) = f (p, id.index)) (hother : ∀ q j, j ≠ id.index → g (q, j) = f (q, j)) :
    (posts.setIfInBounds id.index p').toList.zipIdx.map g = posts.toList.zipIdx.map f := by
  refine List.ext_getElem? fun j => ?_
  rw [List.getElem?_map, List.getElem?_map, List.getElem?_zipIdx, List.getElem?_zipIdx, Array.getElem?_toList,
    Array.getElem?_toList, Nat.zero_add]
  have hget := getElem?_posts_set hp p' ⟨j⟩
  dsimp only at hget
  rw [hget]
  by_cases hj : (⟨j⟩ : PropId) = id
  · subst hj
    rw [if_pos rfl, hp]
    exact congrArg some hself
  · rw [if_neg hj]
    cases posts[j]? with
    | none => rfl
    | some q => exact congrArg some (hother q j fun heq => hj (congrArg PropId.mk heq))

theorem entriesOf_set (hp : posts[id.index]? = some p) (x : VarId) (h : p'.entries id x = p.entries id x) :
    entriesOf (posts.setIfInBounds id.index p') x = entriesOf posts x := by
  rw [entriesOf, entriesOf, List.flatMap_def, List.flatMap_def, map_zipIdx_set hp h fun _ _ _ => rfl]

/-- The entries of a removed post go, and no others. -/
theorem entriesOf_remove (hp : posts[id.index]? = some p) (x : VarId) (hremoved : p'.state = .removed) :
    entriesOf (posts.setIfInBounds id.index p') x = (entriesOf posts x).filter fun w => w.id ≠ id := by
  rw [entriesOf, entriesOf, List.filter_flatMap, List.flatMap_def, List.flatMap_def]
  congr 1
  refine map_zipIdx_set hp ?_ fun q j hj => ?_
  · rw [Post.entries, if_pos hremoved]
    refine (List.filter_eq_nil_iff.mpr fun w hw => ?_).symm
    rw [(Post.mem_entries.mp hw).1]
    simp
  · refine (List.filter_eq_self.mpr fun w hw => ?_).symm
    rw [(Post.mem_entries.mp hw).1]
    refine decide_eq_true fun heq => hj ?_
    rw [← heq]

theorem sum_executions_set (hp : posts[id.index]? = some p) (p' : Post) (k : Nat) (h : p'.executions = p.executions + k) :
    ((posts.setIfInBounds id.index p').toList.map Post.executions).sum =
      (posts.toList.map Post.executions).sum + k := by
  obtain ⟨hlt, rfl⟩ := Array.getElem?_eq_some_iff.mp hp
  have hsplit := List.take_append_drop id.index posts.toList
  have hlt' : id.index < posts.toList.length := hlt
  rw [Array.toList_setIfInBounds, List.set_eq_take_append_cons_drop, if_pos hlt']
  conv_rhs => rw [← hsplit, ← List.getElem_cons_drop hlt']
  simp only [List.map_append, List.map_cons, List.sum_append, List.sum_cons, h, Array.getElem_toList]
  omega

end Update


theorem mem_entriesOf {posts : Array Post} {x : VarId} {w : Watcher} :
    w ∈ entriesOf posts x ↔ ∃ p, posts[w.id.index]? = some p ∧ p.state ≠ .removed ∧
      p.propagator.scope[w.place]? = some x ∧ w.condition = p.propagator.condition w.place := by
  rw [entriesOf, List.mem_flatMap]
  constructor
  · rintro ⟨⟨p, i⟩, he, hw⟩
    obtain ⟨hid, hw⟩ := Post.mem_entries.mp hw
    rw [List.mk_mem_zipIdx_iff_getElem?, Array.getElem?_toList] at he
    exact ⟨p, by rw [hid, he], hw⟩
  · rintro ⟨p, hp, hw⟩
    refine ⟨(p, w.id.index), List.mk_mem_zipIdx_iff_getElem?.mpr ?_, Post.mem_entries.mpr ⟨rfl, hw⟩⟩
    rw [Array.getElem?_toList, hp]

/-! ### Waking -/

variable {n n' : Network}

/-- Only posts and the agenda differ. -/
def Reschedules (n n' : Network) : Prop := n' = { n with posts := n'.posts, agenda := n'.agenda }

theorem Reschedules.refl (n : Network) : Reschedules n n := rfl

theorem Reschedules.trans {n'' : Network} (h1 : Reschedules n n') (h2 : Reschedules n' n'') : Reschedules n n'' := by
  rw [Reschedules, h2, h1]

theorem wake_reschedules (n : Network) (id : PropId) (p : Post) : Reschedules n (n.wake id p) := by
  rw [wake]
  split <;> rfl

theorem scheduleFull_reschedules (n : Network) (id : PropId) : Reschedules n (n.scheduleFull id) := by
  rw [scheduleFull]
  split
  · rfl
  · split
    · rfl
    · exact wake_reschedules _ _ _

theorem notify_reschedules (n : Network) (e : Event) (w : Watcher) : Reschedules n (n.notify e w) := by
  rw [notify]
  split
  · rfl
  · split
    · rfl
    · split
      · exact wake_reschedules _ _ _
      · rfl

theorem reschedules_foldl {α : Type} {f : Network → α → Network} (hf : ∀ n x, Reschedules n (f n x)) (l : List α)
    (n : Network) : Reschedules n (l.foldl f n) := by
  induction l generalizing n with
  | nil => rfl
  | cons x rest ih => exact (hf n x).trans (ih (f n x))

theorem scheduleAll_reschedules (n : Network) : Reschedules n n.scheduleAll :=
  reschedules_foldl (fun n i => scheduleFull_reschedules n ⟨i⟩) _ n

theorem distribute_reschedules (n : Network) (e : Event) : Reschedules n (n.distribute e) := by
  rw [distribute]
  split
  · rw [← Array.foldl_toList]
    exact reschedules_foldl (fun n w => notify_reschedules n e w) _ n
  · rfl

theorem absorb_reschedules (n : Network) : Reschedules { n with model := n.model.clearEvents } n.absorb := by
  rw [absorb, ← Array.foldl_toList]
  exact reschedules_foldl distribute_reschedules _ _

/-- More is noted about a post that was not removed, and it is woken. -/
theorem Coherent.wake (h : n.Coherent) {id : PropId} {p : Post} (hp : n.posts[id.index]? = some p)
    (hlive : p.state ≠ .removed) (full : Bool) {pending : Array EventMask}
    (hplaces : pending.size = p.pending.size) (hpending : pending = p.pending ∨ p.state ≠ .failed) :
    (n.wake id { p with full, pending }).Coherent := by
  have hfits := h.sound.fits id p hp
  have hplaces' : pending.size = p.propagator.scope.size := hplaces.trans hfits.places
  rw [Network.wake]
  by_cases hidle : p.state = .idle
  · rw [if_pos hidle]
    have hbefore : p.state ≠ .scheduled := by
      rw [hidle]
      simp
    have hqueues : Queues (n.posts.setIfInBounds id.index { p with full, pending, state := .scheduled })
        (n.agenda.enqueue p.propagator.priority id) := h.queues.enqueue hp rfl hbefore rfl
    refine ⟨hqueues, ?_, fun x => ?_, ?_⟩
    · exact h.sound.update hp ⟨hplaces', fun _ _ _ => rfl, fun _ => .inl rfl, by simp⟩ (fun hf => hf) (by simp)
    · rw [h.watched, entriesOf_set hp]
      simp only [Post.entries, hlive, reduceCtorEq, if_false]
    · exact h.counted.trans (sum_executions_set hp _ 0 (by rfl)).symm
  · rw [if_neg hidle]
    refine ⟨h.queues.keep hp rfl Iff.rfl, ?_, fun x => ?_, ?_⟩
    · refine h.sound.update hp ⟨hplaces', fun mask hmask hne => ?_, fun _ => ?_, hfits.failed⟩ (fun hf => hf) .inl
      · rcases hpending with rfl | hfailed
        · exact hfits.pending mask hmask hne
        · cases hs : p.state with
          | idle => exact absurd hs hidle
          | scheduled => rfl
          | failed => exact absurd hs hfailed
          | removed => exact absurd hs hlive
      · cases hs : p.state with
        | idle => exact absurd hs hidle
        | scheduled => exact .inl rfl
        | failed => exact .inr rfl
        | removed => exact absurd hs hlive
    · rw [h.watched, entriesOf_set hp]
      rfl
    · exact h.counted.trans (sum_executions_set hp _ 0 (by rfl)).symm

theorem Coherent.scheduleFull (h : n.Coherent) (id : PropId) : (n.scheduleFull id).Coherent := by
  rw [Network.scheduleFull]
  split
  · exact h
  · rename_i p hp
    split
    · exact h
    · rename_i hlive
      exact h.wake hp hlive true rfl (.inl rfl)

theorem Coherent.scheduleAll (h : n.Coherent) : n.scheduleAll.Coherent :=
  List.foldlRecOn _ _ h fun _ h i _ => h.scheduleFull ⟨i⟩

theorem Coherent.start (h : n.Coherent) : n.start.Coherent := by
  rw [Network.start]
  split
  · exact h
  · exact Coherent.scheduleAll ⟨h.queues, h.sound, h.watched, h.counted⟩

/-- Nobody who watches was removed, and unless the network failed nobody failed. -/
theorem Coherent.exists_of_watcher (h : n.Coherent) {x : VarId} {w : Watcher} (hw : w ∈ watchersOf n.watchers x) :
    ∃ p, n.posts[w.id.index]? = some p ∧ p.state ≠ .removed ∧ p.propagator.scope[w.place]? = some x ∧
      w.condition = p.propagator.condition w.place := by
  rw [h.watched] at hw
  exact mem_entriesOf.mp hw

theorem Coherent.ne_failed (h : n.Coherent) (hf : n.failed = false) {id : PropId} {p : Post}
    (hp : n.posts[id.index]? = some p) : p.state ≠ .failed := by
  intro hs
  have := (h.sound.fits id p hp).failed hs
  rw [hf] at this
  cases this

theorem Coherent.notify (h : n.Coherent) (hf : n.failed = false) {e : Event} {w : Watcher}
    (hw : w ∈ watchersOf n.watchers e.var) : (n.notify e w).Coherent := by
  obtain ⟨p, hp, hlive, -⟩ := h.exists_of_watcher hw
  rw [Network.notify]
  split
  · exact h
  · simp only [hp]
    split
    · exact h.wake hp hlive p.full (Array.size_modify ..) (.inr (h.ne_failed hf hp))
    · exact h

theorem Coherent.distribute (h : n.Coherent) (hf : n.failed = false) (e : Event) : (n.distribute e).Coherent := by
  rw [Network.distribute]
  split
  · rename_i ws hws
    have hmem : ∀ w ∈ ws.toList, w ∈ watchersOf n.watchers e.var := by
      intro w hw
      rwa [watchersOf, hws]
    rw [← Array.foldl_toList]
    refine (List.foldlRecOn (motive := fun n' => Reschedules n n' ∧ n'.Coherent) _ _ ⟨.refl n, h⟩ ?_).2
    rintro n' ⟨hn', h'⟩ w hw
    refine ⟨hn'.trans (notify_reschedules n' e w), h'.notify ?_ ?_⟩
    · rw [hn', hf]
    · rw [hn']
      exact hmem w hw
  · exact h

theorem Coherent.absorb (h : n.Coherent) (hf : n.failed = false) : n.absorb.Coherent := by
  rw [Network.absorb, ← Array.foldl_toList]
  refine (List.foldlRecOn (motive := fun n' => Reschedules { n with model := n.model.clearEvents } n' ∧
    n'.Coherent) _ _ ⟨.refl _, h.queues, h.sound, h.watched, h.counted⟩ ?_).2
  rintro n' ⟨hn', h'⟩ e -
  refine ⟨hn'.trans (distribute_reschedules n' e), h'.distribute ?_ e⟩
  rw [hn', hf]

end Network

end FiniteDomain
