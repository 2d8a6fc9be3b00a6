import FiniteDomain.Proofs.Propagation.Calls

/-!
# Waking of propagators

No call is lost and nobody is called without a reason: a network *follows* what its past calls for. What is due and
pending for each post is what the past says, and each queue is the line of its class.

* `Follows.notify`, `Follows.distribute`, `Follows.absorb`: looking at changes;
* `Follows.execute`: the next of the lines is executed, with the passes that it is called for;
* `Reachable.propagate_unfolds`: a whole propagation.
-/

namespace FiniteDomain

open Activity

namespace Network

/-! ### The state that follows from the past -/

/-- In a network that came from `n₀` while it propagated, so much is due and pending for each post, and those wait in
each class. -/
structure Follows (n₀ : Network) (owes : PropId → Bool) (heard : PropId → Nat → EventMask)
    (line : Priority → List PropId) (n : Network) : Prop where
  coherent : n.Coherent
  failed : n.failed = false
  watchers : n.watchers = n₀.watchers
  post : ∀ (id : PropId) p₀, n₀.posts[id.index]? = some p₀ → p₀.state ≠ .removed → ∃ p, n.posts[id.index]? = some p ∧
    p.propagator = p₀.propagator ∧ p.active = p₀.active ∧ p.state ≠ .removed ∧ p.full = owes id ∧
    ∀ place mask, p.pending[place]? = some mask → mask = heard id place
  queue : ∀ π, n.agenda.queue π = line π

variable {n₀ n n' : Network} {owes : PropId → Bool} {heard : PropId → Nat → EventMask}
  {line : Priority → List PropId} {e : Event} {w : Watcher} {id : PropId}

/-- What is pending once a watcher was told of a change. -/
def told (n₀ : Network) (e : Event) (m : Model) (w : Watcher) (heard : PropId → Nat → EventMask) (id : PropId)
    (place : Nat) : EventMask :=
  if w.id = id ∧ w.place = place ∧ n₀.hears id place e m = true then heard id place ||| e.kind.mask
  else heard id place

/-- Who waits once a watcher was told of a change. -/
def lined (n₀ : Network) (e : Event) (m : Model) (w : Watcher) (line : Priority → List PropId) (π : Priority) :
    List PropId :=
  if n₀.InClass w.id π ∧ n₀.hears w.id w.place e m = true then queueUp (line π) w.id else line π

/-- What a change has to be to concern one who watches its variable. -/
theorem hears_of_entry (hw : w ∈ entriesOf n₀.posts e.var) {p₀ : Post} (hp₀ : n₀.posts[w.id.index]? = some p₀)
    {m : Model} : n₀.hears w.id w.place e m = true ↔
      e.cause ≠ .propagator w.id ∧ e.kind.mask.intersects w.condition = true ∧ m.store.flag p₀.active = true := by
  obtain ⟨p, hp, hlive, hscope, hcondition⟩ := mem_entriesOf.mp hw
  cases hp₀.symm.trans hp
  rw [hears_iff, hp₀, hcondition]
  constructor
  · rintro ⟨p, hp, -, -, hmask, hcause, hflag⟩
    cases hp
    exact ⟨hcause, hmask, hflag⟩
  · rintro ⟨hcause, hmask, hflag⟩
    exact ⟨p₀, rfl, hlive, hscope, hmask, hcause, hflag⟩

/-- One who hears of a change has it noted and is woken. -/
theorem notify_of_hears (hw : w ∈ entriesOf n₀.posts e.var) {p₀ p : Post} (hp₀ : n₀.posts[w.id.index]? = some p₀)
    (hp : n.posts[w.id.index]? = some p) (hactive : p.active = p₀.active)
    (hhears : n₀.hears w.id w.place e n.model = true) :
    n.notify e w =
      n.wake w.id { p with pending := p.pending.modify w.place fun mask => mask ||| e.kind.mask } := by
  obtain ⟨hcause, hmask, hflag⟩ := (hears_of_entry hw hp₀).mp hhears
  rw [← hactive] at hflag
  simp [Network.notify, hcause, hmask, hp, hflag]

/-- One who does not hear of it is passed over. -/
theorem notify_of_not_hears (hw : w ∈ entriesOf n₀.posts e.var) {p₀ p : Post} (hp₀ : n₀.posts[w.id.index]? = some p₀)
    (hp : n.posts[w.id.index]? = some p) (hactive : p.active = p₀.active)
    (hhears : ¬n₀.hears w.id w.place e n.model = true) : n.notify e w = n := by
  rw [hears_of_entry hw hp₀, ← hactive] at hhears
  rw [Network.notify]
  split
  · rfl
  · rename_i hcond
    simp only [Bool.or_eq_true, decide_eq_true_eq, Bool.not_eq_true', not_or, Bool.not_eq_false] at hcond
    simp only [hp]
    rw [if_neg fun hflag => hhears ⟨hcond.1, hcond.2, hflag⟩]

theorem told_of_not_hears {m : Model} (hhears : ¬n₀.hears w.id w.place e m = true) : told n₀ e m w heard = heard := by
  funext id place
  rw [told, if_neg]
  rintro ⟨rfl, rfl, hc⟩
  exact hhears hc

theorem lined_of_not_hears {m : Model} (hhears : ¬n₀.hears w.id w.place e m = true) : lined n₀ e m w line = line := by
  funext π
  rw [lined, if_neg fun hc => hhears hc.2]

/-- What is woken is scheduled. -/
theorem posts_wake (n : Network) (id : PropId) (p : Post) (hs : p.state = .idle ∨ p.state = .scheduled) :
    (n.wake id p).posts = n.posts.setIfInBounds id.index { p with state := .scheduled } := by
  rw [wake]
  rcases hs with hs | hs
  · rw [if_pos hs]
  · rw [if_neg (by simp [hs]), ← hs]

/-- What is woken queues up. -/
theorem queue_wake (h : n.Coherent) {p : Post} (hp : n.posts[id.index]? = some p) (p' : Post)
    (hpropagator : p'.propagator = p.propagator) (hstate : p'.state = p.state)
    (hs : p.state = .idle ∨ p.state = .scheduled) (π : Priority) :
    (n.wake id p').agenda.queue π =
      if p.propagator.priority = π then queueUp (n.agenda.queue π) id else n.agenda.queue π := by
  have hmem : id ∈ n.agenda.queue p.propagator.priority ↔ p.state = .scheduled := by
    rw [h.queues.mem_iff, hp]
    simp
  rw [wake, hstate, hpropagator]
  rcases hs with hs | hs
  · rw [if_pos hs, Agenda.queue_enqueue h.queues.ordered]
    by_cases hπ : π = p.propagator.priority
    · rw [if_pos hπ, if_pos hπ.symm, queueUp, if_neg]
      rw [hπ, hmem, hs]
      simp
    · rw [if_neg hπ, if_neg (Ne.symm hπ)]
  · rw [if_neg (by simp [hs])]
    split
    · rename_i hπ
      rw [queueUp, if_pos (hπ ▸ hmem.mpr hs)]
    · rfl

variable (h₀ : n₀.Coherent)

include h₀

/-- One who watches the variable of a change is told of it. -/
theorem Follows.notify (h : Follows n₀ owes heard line n) (hw : w ∈ entriesOf n₀.posts e.var) :
    Follows n₀ owes (told n₀ e n.model w heard) (lined n₀ e n.model w line) (n.notify e w) := by
  obtain ⟨p₀, hp₀, hlive₀, -⟩ := mem_entriesOf.mp hw
  obtain ⟨p, hp, hpropagator, hactive, hlive, hfull, hpending⟩ := h.post w.id p₀ hp₀ hlive₀
  have hcoherent := h.coherent.notify h.failed (by rw [h.watchers, h₀.watched]; exact hw)
  have hframe := notify_reschedules n e w
  have hfailed : (n.notify e w).failed = false := by rw [hframe, h.failed]
  have hwatchers : (n.notify e w).watchers = n₀.watchers := by rw [hframe, h.watchers]
  have hclass : ∀ π, n₀.InClass w.id π ↔ p.propagator.priority = π := by
    intro π
    rw [InClass, hp₀, hpropagator]
    simp
  by_cases hhears : n₀.hears w.id w.place e n.model = true
  · have hstate : p.state = .idle ∨ p.state = .scheduled := by
      cases hs : p.state with
      | idle => exact .inl rfl
      | scheduled => exact .inr rfl
      | failed => exact absurd hs (h.coherent.ne_failed h.failed hp)
      | removed => exact absurd hs hlive
    have hwake := notify_of_hears hw hp₀ hp hactive hhears
    generalize hnew : p.pending.modify w.place (fun mask => mask ||| e.kind.mask) = pending at hwake
    refine ⟨hcoherent, hfailed, hwatchers, fun id q₀ hq₀ hlive₀' => ?_, fun π => ?_⟩
    · rw [hwake, posts_wake n w.id { p with pending } hstate, getElem?_posts_set hp]
      by_cases hid : id = w.id
      · subst hid
        cases hp₀.symm.trans hq₀
        refine ⟨_, if_pos rfl, hpropagator, hactive, by simp, hfull, fun place mask hmask => ?_⟩
        rw [← hnew, Array.getElem?_modify] at hmask
        rw [told]
        by_cases hplace : w.place = place
        · subst hplace
          rw [if_pos rfl] at hmask
          obtain ⟨old, hold, rfl⟩ := Option.map_eq_some_iff.mp hmask
          rw [if_pos ⟨rfl, rfl, hhears⟩, hpending _ _ hold]
        · rw [if_neg hplace] at hmask
          rw [if_neg (fun hc => hplace hc.2.1), hpending _ _ hmask]
      · obtain ⟨q, hq, h1, h2, h3, h4, h5⟩ := h.post id q₀ hq₀ hlive₀'
        refine ⟨q, by rw [if_neg hid, hq], h1, h2, h3, h4, fun place mask hmask => ?_⟩
        rw [told, if_neg (fun hc => hid hc.1.symm)]
        exact h5 place mask hmask
    · rw [hwake, queue_wake h.coherent hp { p with pending } rfl rfl hstate, h.queue, lined]
      simp only [hclass, hhears, and_true]
  · rw [notify_of_not_hears hw hp₀ hp hactive hhears, told_of_not_hears hhears, lined_of_not_hears hhears]
    exact h

/-- Those of a list who watch the variable of a change are told of it one after the other. -/
theorem Follows.foldl_notify {l : List Watcher} (hl : ∀ w ∈ l, w ∈ entriesOf n₀.posts e.var)
    (h : Follows n₀ owes heard line n) :
    Follows n₀ owes (l.foldl (fun heard w => told n₀ e n.model w heard) heard)
      (l.foldl (fun line w => lined n₀ e n.model w line) line) (l.foldl (fun n w => n.notify e w) n) := by
  induction l generalizing n heard line with
  | nil => exact h
  | cons w rest ih =>
    have hmodel : (n.notify e w).model = n.model := by rw [notify_reschedules]
    have := ih (fun v hv => hl v (List.mem_cons_of_mem w hv)) (h.notify h₀ (hl w List.mem_cons_self))
    rw [hmodel] at this
    exact this

omit h₀

/-- A step that changes nothing when it is taken again is taken once, if at all. -/
theorem foldl_if {α β : Type} {f : β → β} (hf : ∀ b, f (f b) = f b) (P : α → Prop) [DecidablePred P] (l : List α)
    (b : β) : l.foldl (fun b a => if P a then f b else b) b = if ∃ a ∈ l, P a then f b else b := by
  induction l generalizing b with
  | nil => simp
  | cons a rest ih =>
    rw [List.foldl_cons, ih]
    by_cases ha : P a
    · simp [ha, hf]
    · simp [ha]

theorem union_union_self (a b : EventMask) : a ||| b ||| b = a ||| b := by
  obtain ⟨a⟩ := a
  obtain ⟨b⟩ := b
  show EventMask.mk (a ||| b ||| b) = EventMask.mk (a ||| b)
  rw [Nat.or_assoc, Nat.or_self]

theorem queueUp_queueUp (line : List PropId) (id : PropId) : queueUp (queueUp line id) id = queueUp line id := by
  have hmem : id ∈ queueUp line id := by
    rw [queueUp]
    split
    · assumption
    · simp
  rw [queueUp, if_pos hmem]

/-- After all who watch its variable were told of a change, it is pending at the places where it concerns them. -/
theorem foldl_told (n₀ : Network) (e : Event) (m : Model) (heard : PropId → Nat → EventMask) (id : PropId)
    (place : Nat) : (entriesOf n₀.posts e.var).foldl (fun heard w => told n₀ e m w heard) heard id place =
      if n₀.hears id place e m = true then heard id place ||| e.kind.mask else heard id place := by
  have happ : ∀ (l : List Watcher) heard, l.foldl (fun heard w => told n₀ e m w heard) heard id place =
      l.foldl (fun mask w => if w.id = id ∧ w.place = place ∧ n₀.hears id place e m = true then mask ||| e.kind.mask
        else mask) (heard id place) := by
    intro l
    induction l with
    | nil => exact fun _ => rfl
    | cons w rest ih => exact fun heard => ih _
  rw [happ, foldl_if (fun mask => union_union_self mask e.kind.mask)]
  refine if_congr ?_ rfl rfl
  constructor
  · rintro ⟨w, -, -, -, h⟩
    exact h
  · intro h
    obtain ⟨p, hp, hlive, hscope, -⟩ := hears_iff.mp h
    exact ⟨⟨id, place, p.propagator.condition place⟩, mem_entriesOf.mpr ⟨p, hp, hlive, hscope, rfl⟩, rfl, rfl, h⟩

/-- After all who watch its variable were told of a change, those whom it concerns have queued up. -/
theorem foldl_lined (n₀ : Network) (e : Event) (m : Model) (line : Priority → List PropId) (π : Priority) :
    (entriesOf n₀.posts e.var).foldl (fun line w => lined n₀ e m w line) line π =
      (n₀.hearers π e m).foldl queueUp (line π) := by
  have happ : ∀ (l : List Watcher) line, l.foldl (fun line w => lined n₀ e m w line) line π =
      l.foldl (fun line w => if n₀.InClass w.id π ∧ n₀.hears w.id w.place e m = true then queueUp line w.id
        else line) (line π) := by
    intro l
    induction l with
    | nil => exact fun _ => rfl
    | cons w rest ih => exact fun line => ih _
  rw [happ, entriesOf, List.foldl_flatMap, hearers, List.foldl_map, List.foldl_filter]
  refine List.foldl_ext _ _ _ fun line q hq => ?_
  obtain ⟨p, i⟩ := q
  rw [List.mk_mem_zipIdx_iff_getElem?, Array.getElem?_toList] at hq
  -- all entries of one post bear its number
  have hsame : (p.entries ⟨i⟩ e.var).foldl (fun line w =>
      if n₀.InClass w.id π ∧ n₀.hears w.id w.place e m = true then queueUp line w.id else line) line =
      (p.entries ⟨i⟩ e.var).foldl (fun line w =>
        if n₀.InClass ⟨i⟩ π ∧ n₀.hears ⟨i⟩ w.place e m = true then queueUp line ⟨i⟩ else line) line :=
    List.foldl_ext _ _ _ fun line w hw => by rw [(Post.mem_entries.mp hw).1]
  rw [hsame, foldl_if (fun line => queueUp_queueUp line ⟨i⟩)]
  refine if_congr ?_ rfl rfl
  rw [decide_eq_true_iff]
  constructor
  · rintro ⟨w, -, ⟨q, hq', hπ⟩, h⟩
    cases hq.symm.trans hq'
    exact ⟨hπ, w.place, lt_of_hears hq h, h⟩
  · rintro ⟨hπ, place, -, h⟩
    obtain ⟨q, hq', hlive, hscope, -⟩ := hears_iff.mp h
    cases hq.symm.trans hq'
    exact ⟨⟨⟨i⟩, place, p.propagator.condition place⟩, Post.mem_entries.mpr ⟨rfl, hlive, hscope, rfl⟩,
      ⟨p, hq, hπ⟩, h⟩

/-- The state of the network is the one that its past calls for. -/
def Tracks (n₀ : Network) (past : Past) (n : Network) : Prop :=
  Follows n₀ (fun id => n₀.owes id past) (fun id place => n₀.heard id place past) (fun π => n₀.line π past) n

variable {past : Past}

/-- A network that rests has no past. -/
theorem Rested.tracks (h : n.Rested) : Tracks n [] n := by
  refine ⟨h.coherent, h.failed, rfl, fun id p hp hlive => ⟨p, hp, rfl, rfl, hlive, ?_, ?_⟩, fun π => rfl⟩
  · show p.full = n.posts[id.index]?.any Post.full
    rw [hp]
    rfl
  · intro place mask hmask
    exact (h.rests p (Array.mem_of_getElem? hp)).pending mask (Array.mem_of_getElem? hmask)

theorem distribute_eq (n : Network) (e : Event) :
    n.distribute e = (watchersOf n.watchers e.var).foldl (fun n w => n.notify e w) n := by
  rw [distribute, watchersOf]
  cases n.watchers[e.var.index]? with
  | none => rfl
  | some ws => exact (Array.foldl_toList _).symm

/-- All changes of a model are noted, the oldest first. -/
def noteAll (m : Model) (past : Past) : Past :=
  m.events.toList.foldl (fun past e => .noted e m.clearEvents :: past) past

section Tracks

variable (h₀ : n₀.Coherent)

include h₀

theorem Tracks.distribute (h : Tracks n₀ past n) (e : Event) :
    Tracks n₀ (.noted e n.model :: past) (n.distribute e) := by
  have hfold := Follows.foldl_notify (e := e) h₀ (fun _ hw => hw) h
  have htold : (entriesOf n₀.posts e.var).foldl (fun heard w => told n₀ e n.model w heard)
      (fun id place => n₀.heard id place past) = fun id place => n₀.heard id place (.noted e n.model :: past) := by
    funext id place
    exact foldl_told n₀ e n.model _ id place
  have hlined : (entriesOf n₀.posts e.var).foldl (fun line w => lined n₀ e n.model w line)
      (fun π => n₀.line π past) = fun π => n₀.line π (.noted e n.model :: past) := by
    funext π
    exact foldl_lined n₀ e n.model _ π
  rw [htold, hlined] at hfold
  rw [distribute_eq, h.watchers, h₀.watched]
  exact hfold

theorem Tracks.absorb (h : Tracks n₀ past n) : Tracks n₀ (noteAll n.model past) n.absorb := by
  have hfold : ∀ (l : List Event) (past : Past) (n : Network), Tracks n₀ past n →
      Tracks n₀ (l.foldl (fun past e => .noted e n.model :: past) past) (l.foldl Network.distribute n) := by
    intro l
    induction l with
    | nil => exact fun _ _ h => h
    | cons e rest ih =>
      intro past n h
      have := ih _ _ (h.distribute h₀ e)
      rw [show (n.distribute e).model = n.model by rw [distribute_reschedules]] at this
      exact this
  have hclear : Tracks n₀ past { n with model := n.model.clearEvents } :=
    ⟨⟨h.coherent.queues, h.coherent.sound, h.coherent.watched, h.coherent.counted⟩, h.failed, h.watchers, h.post,
      h.queue⟩
  rw [Network.absorb, ← Array.foldl_toList]
  exact hfold _ _ _ hclear

end Tracks

/-! ### One execution -/

/-- Passes for some places, one after the other up to the first contradiction. -/
inductive Visits (p : Propagator) : List (Nat × EventMask) → Scene → Array Notice → Except Contradiction Unit →
    Scene → Array Notice → Prop
  | done (s : Scene) (notices : Array Notice) : Visits p [] s notices (.ok ()) s notices
  | next {place : Nat} {mask : EventMask} {calls : List (Nat × EventMask)} {s s' s'' : Scene}
      {before middle after : Array Notice} {outcome : Except Contradiction Unit}
      (hrun : (p.runOn place mask).run s before = .ok (.ok (), s') middle)
      (hrest : Visits p calls s' middle outcome s'' after) :
      Visits p ((place, mask) :: calls) s before outcome s'' after
  | stop {place : Nat} {mask : EventMask} {calls : List (Nat × EventMask)} {s s' : Scene}
      {before after : Array Notice} {c : Contradiction}
      (hrun : (p.runOn place mask).run s before = .ok (.error c, s') after) :
      Visits p ((place, mask) :: calls) s before (.error c) s' after

/-- The passes of one execution: a full one, made once, if one is due or if the propagator is not told places, and
else one for each place at which it was called. -/
inductive Works (p : Propagator) (full : Bool) (calls : List (Nat × EventMask)) (s : Scene) (before : Array Notice)
    (outcome : Except Contradiction Unit) (s' : Scene) (after : Array Notice) : Prop
  | whole (h : full = true ∨ p.reacts = false) (hrun : p.run.run s before = .ok (outcome, s') after)
  | places (hfull : full = false) (hreacts : p.reacts = true) (hrun : Visits p calls s before outcome s' after)

/-- An execution of a propagator on a model. If it asked for it and did not fail, it is not woken again. -/
inductive Performs (p : Post) (id : PropId) (full : Bool) (calls : List (Nat × EventMask)) (m : Model)
    (before : Array Notice) : Except Contradiction Unit → Model → Array Notice → Prop
  | kept {s : Scene} {after : Array Notice}
      (hworks : Works p.propagator full calls { self := id, model := m }
        (before.push (.executing p.propagator.name id full)) (.ok ()) s after) (hawake : s.passive = false) :
      Performs p id full calls m before (.ok ()) s.model after
  | slept {s : Scene} {after : Array Notice}
      (hworks : Works p.propagator full calls { self := id, model := m }
        (before.push (.executing p.propagator.name id full)) (.ok ()) s after) (hasleep : s.passive = true) :
      Performs p id full calls m before (.ok ()) (s.model.setCell p.active (.bool false))
        (after.push (.passivated p.propagator.name id))
  | failed {s : Scene} {after : Array Notice} {c : Contradiction}
      (hworks : Works p.propagator full calls { self := id, model := m }
        (before.push (.executing p.propagator.name id full)) (.error c) s after) :
      Performs p id full calls m before (.error c) s.model (after.push (.failed p.propagator.name id c))

theorem visits_of_forM {p : Propagator} {calls : List (Nat × EventMask)} {s s' : Scene}
    {before after : Array Notice} {outcome : Except Contradiction Unit}
    (h : (calls.forM fun e => p.runOn e.1 e.2 : Filter Unit).run s before = .ok (outcome, s') after) :
    Visits p calls s before outcome s' after := by
  induction calls generalizing s before with
  | nil =>
    cases h
    exact .done _ _
  | cons e rest ih =>
    obtain ⟨⟨r, s1⟩, middle, hrun, hrest⟩ := run_bind_eq_ok.mp h
    cases r with
    | ok u => exact .next hrun (ih hrest)
    | error c =>
      cases hrest
      exact .stop hrun

theorem performs_of_runPasses {p : Post} {id : PropId} {full : Bool} {calls : List (Nat × EventMask)}
    {m m' : Model} {before after : Array Notice} {outcome : Except Contradiction Unit}
    (h : runPasses p.propagator p.active id full calls m before = .ok (outcome, m') after) :
    Performs p id full calls m before outcome m' after := by
  rw [runPasses] at h
  obtain ⟨-, notices, ⟨⟩, h⟩ := run_bind_eq_ok.mp h
  obtain ⟨⟨r, ⟨id', m1, passive⟩⟩, middle, hrun, h⟩ := run_bind_eq_ok.mp h
  have hworks : Works p.propagator full calls { self := id, model := m }
      (before.push (.executing p.propagator.name id full)) r ⟨id', m1, passive⟩ middle := by
    rw [passes] at hrun
    split at hrun
    · rename_i hwhole
      refine .whole ?_ hrun
      simpa using hwhole
    · rename_i hplaces
      simp only [Bool.or_eq_true, Bool.not_eq_true', not_or, Bool.not_eq_true, Bool.not_eq_false] at hplaces
      exact .places hplaces.1 hplaces.2 (visits_of_forM hrun)
  cases r with
  | ok u =>
    cases passive with
    | false =>
      cases h
      exact .kept hworks rfl
    | true =>
      obtain ⟨-, -, ⟨⟩, h⟩ := run_bind_eq_ok.mp h
      cases h
      exact .slept hworks rfl
  | error c =>
    obtain ⟨-, -, ⟨⟩, h⟩ := run_bind_eq_ok.mp h
    cases h
    exact .failed hworks

theorem onModel_eq_ok {α : Type} {f : Model → Activity (α × Model)} {x : α} {before after : Array Notice}
    (h : n.onModel f before = .ok (x, n') after) :
    ∃ m, f n.model before = .ok (x, m) after ∧ n' = { n with model := m } := by
  obtain ⟨⟨y, m⟩, middle, hrun, h⟩ := run_bind_eq_ok.mp h
  cases h
  exact ⟨m, hrun, rfl⟩

/-- What is pending for a post are the places at which it was called. -/
theorem Tracks.pendingList_eq (h : Tracks n₀ past n) {p₀ p : Post} (hp₀ : n₀.posts[id.index]? = some p₀)
    (hp : n.posts[id.index]? = some p) (hpropagator : p.propagator = p₀.propagator)
    (hpending : ∀ place mask, p.pending[place]? = some mask → mask = n₀.heard id place past) :
    p.pendingList = n₀.calls id past := by
  have hsize : p.pending.size = p₀.propagator.scope.size := by
    rw [(h.coherent.sound.fits id p hp).places, hpropagator]
  simp only [Post.pendingList, calls, hp₀]
  congr 1
  refine List.ext_getElem? fun place => ?_
  rw [List.getElem?_map, List.getElem?_zipIdx, Array.getElem?_toList, List.getElem?_map, Nat.zero_add, ← hsize]
  by_cases hlt : place < p.pending.size
  · have hget : p.pending[place]? = some p.pending[place] := Array.getElem?_eq_getElem hlt
    have hheard := hpending place _ hget
    rw [List.getElem?_range hlt, hget, hheard]
    rfl
  · rw [Array.getElem?_eq_none (Nat.le_of_not_lt hlt), List.getElem?_eq_none (by simpa using hlt)]
    rfl

/-- The next to be executed: it is called for, it is the first of its class, and nobody waits in a class that runs
earlier. -/
structure Next (n : Network) (past : Past) (id : PropId) (p : Post) : Prop where
  post : n.posts[id.index]? = some p
  live : p.state ≠ .removed
  called : n.Called id past
  first : (n.line p.propagator.priority past).head? = some id
  lowest : ∀ σ, σ.rank < p.propagator.priority.rank → n.line σ past = []

/-- Who is executed next is called for, and is executed with the passes that it is called for. -/
theorem Tracks.execute (h₀ : n₀.Rested) (h : Tracks n₀ past n) {agenda : Agenda}
    (hnext : n.agenda.next? = some (id, agenda)) {before after : Array Notice} {outcome : Except Contradiction Unit}
    (hrun : Network.execute { n with agenda } id before = .ok (outcome, n') after) :
    ∃ p₀, n₀.Next past id p₀ ∧
      Performs p₀ id (n₀.owes id past) (n₀.calls id past) n.model before outcome n'.model after ∧
      (∀ π, n'.agenda.queue π = n₀.line π (.executed id :: past)) ∧
      (outcome = .ok () → Tracks n₀ (.executed id :: past) n') := by
  obtain ⟨-, π, hfirst, -, hlowest⟩ := Agenda.next?_spec h.coherent.queues.ordered hnext
  have hline : n₀.line π past = id :: agenda.queue π := (h.queue π).symm.trans hfirst
  obtain ⟨⟨p₀, hp₀, hπ⟩, hcalled⟩ := ((h₀.line_spec π past).2 id).mp (hline ▸ List.mem_cons_self)
  have hlive₀ : p₀.state ≠ .removed := by
    obtain ⟨q₀, hq₀, hlive⟩ := h₀.coherent.exists_of_called hcalled
    cases hp₀.symm.trans hq₀
    exact hlive
  obtain ⟨p, hp, hpropagator, hactive, hlive, hfull, hpending⟩ := h.post id p₀ hp₀ hlive₀
  have hplaces := h.pendingList_eq hp₀ hp hpropagator hpending
  refine ⟨p₀, ⟨hp₀, hlive₀, hcalled, ?_, fun σ hσ => ?_⟩, ?_⟩
  · rw [hπ, hline]
    rfl
  · rw [← h.queue σ]
    exact hlowest σ (hπ ▸ hσ)
  simp only [Network.execute, hp] at hrun
  obtain ⟨⟨r, n1⟩, middle, hmodel, hrun⟩ := run_bind_eq_ok.mp hrun
  obtain ⟨m, hpasses, rfl⟩ := onModel_eq_ok hmodel
  rw [hpropagator, hactive, hfull, hplaces] at hpasses
  have hperforms := performs_of_runPasses hpasses
  have hqueue : ∀ σ, agenda.queue σ = n₀.line σ (.executed id :: past) := by
    intro σ
    rw [h.coherent.queues.queue_next? hnext, h.queue]
    rfl
  cases r with
  | error c =>
    cases hrun
    exact ⟨hperforms, hqueue, by simp⟩
  | ok u =>
    cases hrun
    refine ⟨hperforms, hqueue, fun _ => ⟨h.coherent.ran h.failed hnext hp (.inl rfl) m n.last, h.failed, h.watchers,
      fun j q₀ hq₀ hlive' => ?_, hqueue⟩⟩
    rw [getElem?_posts_set hp]
    by_cases hj : j = id
    · subst hj
      obtain rfl : p₀ = q₀ := Option.some.inj (hp₀.symm.trans hq₀)
      refine ⟨_, if_pos rfl, hpropagator, hactive, by simp, ?_, fun place mask hmask => ?_⟩
      · simp [Network.owes]
      · obtain ⟨-, -, rfl⟩ := Array.mem_map.mp (Array.mem_of_getElem? hmask)
        simp [Network.heard]
    · obtain ⟨q, hq, h1, h2, h3, h4, h5⟩ := h.post j q₀ hq₀ hlive'
      have hne : ¬id = j := fun heq => hj heq.symm
      refine ⟨q, by rw [if_neg hj, hq], h1, h2, h3, ?_, ?_⟩
      · simpa [Network.owes, hne] using h4
      · simpa [Network.heard, hne] using h5

/-! ### A whole propagation -/

/-- How a propagation unfolds that began with the network `n`: all changes of the model are noted, then the next to
be executed is executed without a contradiction, and so on. -/
inductive Unfolds (n : Network) (before : Array Notice) : Past → Model → Array Notice → Prop
  | begin : Unfolds n before (noteAll n.model []) n.model.clearEvents before
  | run {past : Past} {m m' : Model} {middle after : Array Notice} {id : PropId} {p : Post}
      (h : Unfolds n before past m middle) (hnext : n.Next past id p)
      (hperforms : Performs p id (n.owes id past) (n.calls id past) m middle (.ok ()) m' after) :
      Unfolds n before (noteAll m' (.executed id :: past)) m'.clearEvents after

/-- How a propagation ends: nobody is called for any more and no change is left to look at, or the next to be
executed ends in a contradiction. -/
inductive Closes (n : Network) (before : Array Notice) : Past → Except Contradiction Unit → Model → Array Notice → Prop
  | settled {past : Past} {m : Model} {after : Array Notice} (h : Unfolds n before past m after)
      (hevents : m.events = #[]) (hnone : ∀ id, ¬n.Called id past) : Closes n before past (.ok ()) m after
  | failed {past : Past} {m m' : Model} {middle after : Array Notice} {id : PropId} {p : Post} {c : Contradiction}
      (h : Unfolds n before past m middle) (hnext : n.Next past id p)
      (hperforms : Performs p id (n.owes id past) (n.calls id past) m middle (.error c) m' after) :
      Closes n before (.executed id :: past) (.error c) m' after

theorem Tracks.not_called (h₀ : n₀.Rested) (h : Tracks n₀ past n) (hempty : n.agenda.isEmpty = true) (id : PropId) :
    ¬n₀.Called id past := by
  intro hcalled
  obtain ⟨p, hp, -⟩ := h₀.coherent.exists_of_called hcalled
  have hmem := ((h₀.line_spec p.propagator.priority past).2 id).mpr ⟨⟨p, hp, rfl⟩, hcalled⟩
  rw [← h.queue] at hmem
  exact Agenda.isEmpty_iff.mp hempty _ _ hmem

theorem Tracks.drain (h₀ : n₀.Rested) (h : Tracks n₀ past n) (hev : n.model.events = #[])
    {before middle after : Array Notice} (hu : Unfolds n₀ before past n.model middle) {fuel : Nat}
    {outcome : Except Contradiction Unit} (hrun : n.drain fuel middle = .ok (outcome, n') after) :
    ∃ past', Closes n₀ before past' outcome n'.model after ∧ ∀ π, n'.agenda.queue π = n₀.line π past' := by
  induction fuel generalizing n past middle with
  | zero =>
    rw [Network.drain] at hrun
    split at hrun
    · rename_i hempty
      cases hrun
      exact ⟨past, .settled hu hev (h.not_called h₀ hempty), h.queue⟩
    · cases hrun
  | succ fuel ih =>
    cases hnext : n.agenda.next? with
    | none =>
      simp only [Network.drain, hnext] at hrun
      cases hrun
      exact ⟨past, .settled hu hev (h.not_called h₀ (Agenda.next?_eq_none.mp hnext)), h.queue⟩
    | some next =>
      obtain ⟨id, agenda⟩ := next
      simp only [Network.drain, hnext] at hrun
      obtain ⟨⟨r, n1⟩, notices, hexec, hrun⟩ := run_bind_eq_ok.mp hrun
      obtain ⟨p, hfirst, hperforms, hqueue, htracks⟩ := h.execute h₀ hnext hexec
      cases r with
      | error c =>
        cases hrun
        exact ⟨_, .failed hu hfirst hperforms, hqueue⟩
      | ok u =>
        have htracks := htracks rfl
        refine ih (htracks.absorb h₀.coherent) (events_absorb n1) ?_ hrun
        have hmodel : n1.absorb.model = n1.model.clearEvents := by rw [absorb_reschedules]
        rw [hmodel]
        exact .run hu hfirst hperforms

/-- A propagation unfolds from the network with which it began and closes. -/
theorem Rested.closes (h : n.Rested) {before after : Array Notice} {outcome : Except Contradiction Unit}
    (hrun : n.propagate before = .ok (outcome, n') after) :
    ∃ past, Closes n.start before past outcome n'.model after ∧ ∀ π, n'.agenda.queue π = n.start.line π past := by
  simp only [Network.propagate, h.failed, Bool.false_eq_true, if_false] at hrun
  have h₀ := h.start
  have hmodel : n.start.absorb.model = n.start.model.clearEvents := by rw [absorb_reschedules]
  have hbegin : Unfolds n.start before (noteAll n.start.model []) n.start.absorb.model before := hmodel ▸ .begin
  exact (h₀.tracks.absorb h₀.coherent).drain h₀ (events_absorb _) hbegin hrun

/-- A propagation that was not refused began with a network that rests. -/
theorem Reachable.rested_of_propagate (h : n.Reachable) {before after : Array Notice}
    {outcome : Except Contradiction Unit} (hrun : n.propagate before = .ok (outcome, n') after) : n.Rested := by
  refine h.rested (Bool.eq_false_iff.mpr fun hf => ?_)
  simp only [Network.propagate, hf, if_true] at hrun
  obtain ⟨_, _, hc, _⟩ := run_bind_eq_ok.mp hrun
  cases hc

/-- Whoever was executed was called for. -/
def Justified (n : Network) (past : Past) : Prop :=
  ∀ later earlier id, past = later ++ .executed id :: earlier → n.Called id earlier

theorem Justified.noted (h : n.Justified past) (e : Event) (m : Model) : n.Justified (.noted e m :: past) := by
  intro later earlier id heq
  cases later with
  | nil => cases heq
  | cons first later =>
    obtain ⟨-, heq⟩ := List.cons.inj heq
    exact h later earlier id heq

theorem Justified.noteAll (h : n.Justified past) (m : Model) : n.Justified (noteAll m past) :=
  List.foldlRecOn _ _ h fun _ h e _ => h.noted e m.clearEvents

theorem Justified.executed (h : n.Justified past) (hc : n.Called id past) : n.Justified (.executed id :: past) := by
  intro later earlier i heq
  cases later with
  | nil =>
    cases heq
    exact hc
  | cons first later =>
    obtain ⟨-, heq⟩ := List.cons.inj heq
    exact h later earlier i heq

theorem Unfolds.justified {before after : Array Notice} {m : Model} (h : Unfolds n before past m after) :
    n.Justified past := by
  induction h with
  | begin =>
    refine Justified.noteAll ?_ _
    intro later earlier id heq
    simp at heq
  | run _ hnext _ ih => exact (ih.executed hnext.called).noteAll _

theorem Closes.justified {before after : Array Notice} {outcome : Except Contradiction Unit} {m : Model}
    (h : Closes n before past outcome m after) : n.Justified past := by
  cases h with
  | settled h => exact h.justified
  | failed h hnext => exact h.justified.executed hnext.called

/-- Who is called for stays so until it is executed. -/
theorem Called.append {earlier : Past} (h : n.Called id earlier) (later : Past) (hout : .executed id ∉ later) :
    n.Called id (later ++ earlier) := by
  induction later with
  | nil => exact h
  | cons happening later ih =>
    have ih := ih fun hmem => hout (List.mem_cons_of_mem _ hmem)
    cases happening with
    | noted e m => exact called_noted.mpr (.inl ih)
    | executed i =>
      refine called_executed.mpr ⟨?_, ih⟩
      rintro rfl
      exact hout List.mem_cons_self

/-- **No call is lost and nobody is called without a reason.** Nothing is left from before the propagation but full
passes. It unfolds so that the next to be executed is called for, was the first to come in its class, and nobody
waits in a class that runs earlier; those who wait are those called for, each once, up to the end; and who is executed
makes a full pass, or one pass for each place at which it was called. Unless there is a contradiction, whoever was
called for at any time was executed afterwards, and no change is left to look at. -/
theorem Reachable.propagate_unfolds (h : n.Reachable) {before after : Array Notice}
    {outcome : Except Contradiction Unit} (hrun : n.propagate before = .ok (outcome, n') after) :
    n.Rested ∧
      (∀ π past, (n.start.line π past).Nodup ∧
        ∀ id, id ∈ n.start.line π past ↔ n.start.InClass id π ∧ n.start.Called id past) ∧
      ∃ past, Closes n.start before past outcome n'.model after ∧ n.start.Justified past ∧
        (∀ π, n'.agenda.queue π = n.start.line π past) ∧
        (outcome = .ok () → n'.model.events = #[] ∧
          ∀ later earlier id, past = later ++ earlier → n.start.Called id earlier → .executed id ∈ later) := by
  have hrested := h.rested_of_propagate hrun
  have h₀ := hrested.start
  obtain ⟨past, hcloses, hqueue⟩ := hrested.closes hrun
  refine ⟨hrested, h₀.line_spec, past, hcloses, hcloses.justified, hqueue, ?_⟩
  rintro rfl
  cases hcloses with
  | settled _ hevents hnone =>
    refine ⟨hevents, fun later earlier id heq hc => Classical.byContradiction fun hout => ?_⟩
    exact hnone id (heq ▸ hc.append later hout)

/-- A propagator that watches the first variable at both of its places and is told which one called it. -/
def listener : Propagator where
  name := "listener"
  scope := #[⟨0⟩, ⟨0⟩]
  priority := .binary
  reacts := true
  run := pure ()
  runOn := fun _ _ => pure ()
  entailed := fun _ => .ok .undecided

/-- The listener has made its first pass, and then the variable changes. -/
def stirred (m : Model) : Activity Network := do
  let (_, n) ← post { model := m } listener
  let (_, n) ← n.propagate
  let (_, n) ← n.narrow ⟨0⟩ (.atLeast 1) .decision
  return n

theorem reachable_stirred (m : Model) : (stirred m).Yields Reachable := by
  have hpost : (post { model := m } listener).Yields fun s => s.2.Reachable := fun _ _ _ hp => .post (.new m) hp
  refine .bind hpost fun s h => .bind (R := fun s => s.2.Reachable) (fun _ _ _ hp => h.propagate hp) fun s h => ?_
  refine .bind (onModel_yields _ _) ?_
  rintro s ⟨m', hs⟩
  refine .pure ?_
  rw [hs]
  exact h.change m'

/-- A change of the variable calls the listener at both places, and it is executed once. -/
theorem propagate_unfolds_of_stirred : ∃ (n n' : Network) (after : Array Notice) (past : Past), n.Reachable ∧
    n.propagate #[] = .ok (.ok (), n') after ∧
    n.start.calls ⟨0⟩ (noteAll n.start.model []) = [(0, EventKind.incLow.mask), (1, EventKind.incLow.mask)] ∧
    n.executions = 1 ∧ n'.executions = 2 ∧ Closes n.start #[] past (.ok ()) n'.model after ∧
    n'.model.events = #[] := by
  let d := Domain.bounded {} 0 5
  have heval : ((stirred (Model.append { name := "listener" } "x" d.1 d.2).2).outcome?.map fun n =>
      (n.start.calls ⟨0⟩ (noteAll n.start.model []), n.executions, n.propagate.outcome?.map fun s =>
        (s.1.toBool, s.2.executions))) =
      some ([(0, EventKind.incLow.mask), (1, EventKind.incLow.mask)], 1, some (true, 2)) := by decide +kernel
  have hreach := reachable_stirred (Model.append { name := "listener" } "x" d.1 d.2).2
  generalize stirred (Model.append { name := "listener" } "x" d.1 d.2).2 = a at heval hreach
  obtain ⟨n, hn, heval⟩ := Option.map_eq_some_iff.mp heval
  simp only [Prod.mk.injEq, Option.map_eq_some_iff] at heval
  obtain ⟨hcalls, hbefore, ⟨outcome, n'⟩, hn', houtcome, hafter⟩ := heval
  obtain ⟨middle, hn⟩ := outcome?_eq_some hn
  obtain ⟨after, hn'⟩ := outcome?_eq_some hn'
  cases outcome with
  | error c => cases houtcome
  | ok u =>
    have hreach : n.Reachable := hreach _ _ _ hn
    obtain ⟨-, -, past, hcloses, -, -, hsettled⟩ := hreach.propagate_unfolds hn'
    exact ⟨n, n', after, past, hreach, hn', hcalls, hbefore, hafter, hcloses, (hsettled rfl).1⟩

end Network

end FiniteDomain
