import FiniteDomain.Proofs.Constraint.Passes
import FiniteDomain.Proofs.Model.Echo
import FiniteDomain.Proofs.Propagation.Roll
import FiniteDomain.Proofs.Propagation.Waking

/-!
# Networks with a residue

A network *echoes* another if it is the same but for a residue: its model echoes the other model, and besides the posts
of the other network it has only posts that were removed. Counters of executions, the last contradiction, and what is
pending for constraints, which make a full pass in any case, do not matter.

* `Concludes.echoes`: a filter does the same on models that echo each other;
* `Network.Echoes`, with a lemma per operation;
* `Echoes.propagate`: propagation has the same outcome.
-/

namespace FiniteDomain

variable {k : Residue}

/-! ### Filters -/

/-- The second scene is the same but for the residue. -/
structure Scene.Echoes (k : Residue) (s s' : Scene) : Prop where
  self : s'.self = s.self.across k.ids
  model : s.model.Echoes k s'.model
  passive : s'.passive = s.passive

/-- Two runs end in the same way. -/
def Scene.EndsAlike {α : Type} (k : Residue) (r r' : Except Contradiction α × Scene) : Prop :=
  r'.1 = outcomeAcross k.ids r.1 ∧ r.2.Echoes k r'.2

namespace Filter

variable {α : Type} {l : List VarId} {s s' : Scene}

/-- **A filter that is built over some variables does the same on models that echo each other.** -/
theorem Built.echoes {f : Filter α} (h : Built (Model.Alike l) l f) (hs : s.Echoes k s') :
    Activity.Matches (Scene.EndsAlike k) (f.run s) (f.run s') := by
  induction h generalizing s s' with
  | pure x => exact .pure ⟨rfl, hs⟩
  | ask hq =>
    refine .bind (R := Eq) (.quietly (.of_eq (hq _ _ (hs.model.alike l)))) ?_
    rintro x _ rfl
    exact .pure ⟨rfl, hs⟩
  | @narrow x _ μ =>
    have hnarrow := hs.model.narrow x μ (.propagator s.self)
    have hcause : (Cause.propagator s.self).across k.ids = .propagator s'.self := by rw [hs.self]; rfl
    rw [hcause] at hnarrow
    refine .bind hnarrow ?_
    rintro ⟨r, m⟩ ⟨r', m'⟩ ⟨rfl, hm⟩
    exact .pure ⟨rfl, hs.self, hm, hs.passive⟩
  | fail conflict =>
    refine .pure ⟨?_, hs⟩
    rw [hs.self]
    rfl
  | abort _ => exact .throw
  | sequel _ _ ihf ihg =>
    intro before z after hrun before'
    obtain ⟨⟨r, t⟩, middle, hfirst, hrest⟩ := Activity.run_bind_eq_ok.mp hrun
    obtain ⟨⟨r', t'⟩, middle', hfirst', heq, ht⟩ := ihf hs before _ middle hfirst before'
    obtain rfl : r' = outcomeAcross k.ids r := heq
    cases r with
    | error c =>
      cases hrest
      exact ⟨_, middle', Activity.run_bind_eq_ok.mpr ⟨_, middle', hfirst', rfl⟩, rfl, ht⟩
    | ok x =>
      obtain ⟨z', after', hrest', hz⟩ := ihg x ⟨s, t, before, middle, hfirst⟩ ht middle z after hrest middle'
      exact ⟨z', after', Activity.run_bind_eq_ok.mpr ⟨_, middle', hfirst', hrest'⟩, hz⟩

theorem Concludes.echoes {f : Filter Unit} (h : Concludes (Model.Alike l) l f) (hs : s.Echoes k s') :
    Activity.Matches (Scene.EndsAlike k) (f.run s) (f.run s') := by
  induction h generalizing s s' with
  | built hf => exact hf.echoes hs
  | setPassive => exact .pure ⟨rfl, hs.self, hs.model, rfl⟩
  | sequel hf _ ihg =>
    intro before z after hrun before'
    obtain ⟨⟨r, t⟩, middle, hfirst, hrest⟩ := Activity.run_bind_eq_ok.mp hrun
    obtain ⟨⟨r', t'⟩, middle', hfirst', heq, ht⟩ := hf.echoes hs before _ middle hfirst before'
    obtain rfl : r' = outcomeAcross k.ids r := heq
    cases r with
    | error c =>
      cases hrest
      exact ⟨_, middle', Activity.run_bind_eq_ok.mpr ⟨_, middle', hfirst', rfl⟩, rfl, ht⟩
    | ok x =>
      obtain ⟨z', after', hrest', hz⟩ := ihg x ⟨s, t, before, middle, hfirst⟩ ht middle z after hrest middle'
      exact ⟨z', after', Activity.run_bind_eq_ok.mpr ⟨_, middle', hfirst', hrest'⟩, hz⟩

end Filter

def Watcher.across (l : Leap) (w : Watcher) : Watcher := { w with id := w.id.across l }

def Agenda.across (l : Leap) (a : Agenda) : Agenda := ⟨a.entries.map fun e => (e.1, e.2.across l)⟩

namespace Network

/-- The passes of a constraint come to the same, whatever is pending. -/
theorem runPasses_echoes (c : Constraint) {m m' : Model} (h : m.Echoes k m') (active : Nat) (id : PropId)
    (full full' : Bool) (pending pending' : List (Nat × EventMask)) :
    Activity.Matches (fun r r' => r'.1 = outcomeAcross k.ids r.1 ∧ r.2.Echoes k r'.2)
      (runPasses c.propagator active id full pending m)
      (runPasses c.propagator (k.cells.across active) (id.across k.ids) full' pending' m') := by
  have hpasses : ∀ full pending, passes c.propagator full pending = c.propagator.run := by
    intro full pending
    have hreacts : c.propagator.reacts = false := by cases c <;> rfl
    rw [passes, hreacts, Bool.not_false, Bool.or_true, if_pos rfl]
  rw [runPasses, runPasses, hpasses, hpasses]
  refine .bind (.report _ _) fun _ _ _ => .bind (c.run_concludes.echoes ⟨rfl, h, rfl⟩) ?_
  rintro ⟨r, self, n, passive⟩ ⟨r', self', n', passive'⟩ ⟨heq, -, hn, hpassive⟩
  obtain rfl : r' = outcomeAcross k.ids r := heq
  obtain rfl : passive' = passive := hpassive
  cases r with
  | error e => exact .bind (.report _ _) fun _ _ _ => .pure ⟨rfl, hn⟩
  | ok u =>
    dsimp only [outcomeAcross, Except.mapError]
    split
    · exact .bind (.report _ _) fun _ _ _ => .pure ⟨rfl, hn.setCell _ _⟩
    · exact .pure ⟨rfl, hn⟩

/-! ### Agendas -/

theorem enqueue_across (l : Leap) (a : Agenda) (π : Priority) (id : PropId) :
    (a.enqueue π id).across l = (a.across l).enqueue π (id.across l) := by
  obtain ⟨entries⟩ := a
  rw [Agenda.across, Agenda.enqueue, Agenda.across, Agenda.enqueue, Agenda.mk.injEq]
  induction entries with
  | nil => rfl
  | cons e rest ih =>
    rw [Agenda.insertEntry, List.map_cons, Agenda.insertEntry]
    split
    · rw [List.map_cons, ih]
    · rfl

theorem queue_across (l : Leap) (a : Agenda) (π : Priority) :
    (a.across l).queue π = (a.queue π).map (·.across l) := by
  rw [Agenda.queue, Agenda.queue, Agenda.across, List.filter_map, List.map_map, List.map_map]
  rfl

theorem ordered_across {l : Leap} {a : Agenda} (h : a.Ordered) : (a.across l).Ordered :=
  List.pairwise_map.mpr h

theorem inLine_across {l : Leap} {a : Agenda} (h : a.InLine) : (a.across l).InLine := by
  intro π
  rw [queue_across]
  exact List.pairwise_map.mpr ((h π).imp fun hij => Leap.across_lt_across.mpr hij)

theorem next?_across (l : Leap) (a : Agenda) :
    (a.across l).next? = a.next?.map fun e => (e.1.across l, e.2.across l) := by
  obtain ⟨entries⟩ := a
  cases entries <;> rfl

theorem erase_across (l : Leap) (a : Agenda) (id : PropId) : (a.across l).erase (id.across l) = (a.erase id).across l := by
  rw [Agenda.erase, Agenda.erase, Agenda.across, Agenda.across, List.filter_map]
  simp [Function.comp_def]

/-! ### Posts -/

/-- A post as the second network has it. -/
structure PostEchoes (k : Residue) (p p' : Post) : Prop where
  propagator : p'.propagator = p.propagator
  active : p'.active = k.cells.across p.active
  state : p'.state = p.state
  full : p'.full = p.full

/-- The second network has the posts of the first, and others that were removed. -/
structure PostsEcho (k : Residue) (posts posts' : Array Post) : Prop where
  reaches : k.ids.base ≤ posts.size
  size_eq : posts'.size = posts.size + k.ids.gap
  get : ∀ (id : PropId) p, posts[id.index]? = some p →
    ∃ p', posts'[(id.across k.ids).index]? = some p' ∧ PostEchoes k p p'
  removed : ∀ (id : PropId) p', k.ids.base ≤ id.index → id.index < k.ids.base + k.ids.gap →
    posts'[id.index]? = some p' → p'.state = .removed
  shipped : ∀ p ∈ posts, ∃ c : Constraint, p.propagator = c.propagator
  covers : k.spent ≤ posts.size
  spent : ∀ (id : PropId) p, posts[id.index]? = some p → id.index < k.spent → p.full = false

namespace PostsEcho

variable {posts posts' : Array Post} (h : PostsEcho k posts posts')

include h

theorem get_none {id : PropId} (hid : posts[id.index]? = none) : posts'[(id.across k.ids).index]? = none := by
  rw [Array.getElem?_eq_none_iff] at hid ⊢
  have hreaches := h.reaches
  have hsize := h.size_eq
  show posts'.size ≤ k.ids.across id.index
  rw [Leap.across_of_le (by omega)]
  omega

/-- What stands behind the gap or before it was there in the first network. -/
theorem exists_of_get {id : PropId} {p' : Post} (hp : posts'[id.index]? = some p')
    (hlive : p'.state ≠ .removed) : ∃ (j : PropId) (p : Post), id = j.across k.ids ∧
      posts[j.index]? = some p ∧ PostEchoes k p p' := by
  obtain ⟨i, hi⟩ : ∃ i, k.ids.across i = id.index :=
    Leap.exists_of_not_mem_gap fun hgap => hlive (h.removed id p' hgap.1 hgap.2 hp)
  have hid : id = PropId.across k.ids ⟨i⟩ := by
    rw [PropId.across, hi]
  cases hget : posts[i]? with
  | none =>
    have hnone : posts'[(PropId.across k.ids ⟨i⟩).index]? = none := h.get_none hget
    rw [← hid, hp] at hnone
    cases hnone
  | some p =>
    obtain ⟨q, hq, hpq⟩ := h.get ⟨i⟩ p hget
    rw [← hid, hp] at hq
    cases hq
    exact ⟨⟨i⟩, p, hid, hget, hpq⟩

theorem set {id : PropId} {p q s : Post} (hp : posts[id.index]? = some p) (hq : PostEchoes k q s)
    (hpropagator : q.propagator = p.propagator) (hspent : id.index < k.spent → q.full = false) :
    PostsEcho k (posts.setIfInBounds id.index q) (posts'.setIfInBounds (id.across k.ids).index s) := by
  obtain ⟨p', hp', -⟩ := h.get id p hp
  have hget := getElem?_posts_set hp q
  have hget' := getElem?_posts_set hp' s
  refine ⟨?_, ?_, ?_, ?_, ?_, ?_, ?_⟩
  · rw [Array.size_setIfInBounds]
    exact h.reaches
  · rw [Array.size_setIfInBounds, Array.size_setIfInBounds]
    exact h.size_eq
  · intro j r hr
    rw [hget] at hr
    rw [hget']
    by_cases hj : j = id
    · rw [if_pos hj] at hr
      cases hr
      exact ⟨s, if_pos (hj ▸ rfl), hq⟩
    · rw [if_neg hj] at hr
      rw [if_neg (hj ∘ PropId.across_inj.mp)]
      exact h.get j r hr
  · intro j r' hlow hhigh hr'
    rw [hget'] at hr'
    split at hr'
    · rename_i heq
      have hindex : j.index = k.ids.across id.index := by rw [heq]; rfl
      unfold Leap.across at hindex
      split at hindex <;> omega
    · exact h.removed j r' hlow hhigh hr'
  · intro r hr
    rcases Array.mem_or_eq_of_mem_setIfInBounds hr with hr | rfl
    · exact h.shipped r hr
    · rw [hpropagator]
      exact h.shipped p (Array.mem_of_getElem? hp)
  · rw [Array.size_setIfInBounds]
    exact h.covers
  · intro j r hr hj
    rw [hget] at hr
    split at hr
    · rename_i heq
      cases hr
      exact hspent (heq ▸ hj)
    · exact h.spent j r hr hj

theorem push {p p' : Post} (hp : PostEchoes k p p') (hshipped : ∃ c : Constraint, p.propagator = c.propagator) :
    PostsEcho k (posts.push p) (posts'.push p') := by
  have hreaches := h.reaches
  have hsize := h.size_eq
  have hcovers := h.covers
  refine ⟨?_, ?_, ?_, ?_, ?_, ?_, ?_⟩
  · rw [Array.size_push]
    omega
  · rw [Array.size_push, Array.size_push]
    omega
  · intro id q hq
    rcases getElem?_posts_push hq with ⟨rfl, rfl⟩ | hq
    · refine ⟨p', ?_, hp⟩
      rw [PropId.across, Leap.across_of_le hreaches, ← hsize]
      exact Array.getElem?_push_size
    · obtain ⟨q', hq', hecho⟩ := h.get id q hq
      exact ⟨q', getElem?_posts_push_of_some hq' p', hecho⟩
  · intro id q' hlow hhigh hq'
    rcases getElem?_posts_push hq' with ⟨rfl, -⟩ | hq'
    · dsimp only at hhigh
      omega
    · exact h.removed id q' hlow hhigh hq'
  · intro q hq
    rcases Array.mem_push.mp hq with hq | rfl
    · exact h.shipped q hq
    · exact hshipped
  · rw [Array.size_push]
    omega
  · intro id q hq hid
    rcases getElem?_posts_push hq with ⟨rfl, -⟩ | hq
    · dsimp only at hid
      omega
    · exact h.spent id q hq hid

/-- All posts are changed in the same way. -/
theorem map {f : Post → Post} (hf : ∀ {p p' : Post}, PostEchoes k p p' → PostEchoes k (f p) (f p'))
    (hpropagator : ∀ p, (f p).propagator = p.propagator) (hremoved : ∀ p, p.state = .removed → (f p).state = .removed)
    (hfull : ∀ p, (f p).full = p.full) : PostsEcho k (posts.map f) (posts'.map f) := by
  refine ⟨?_, ?_, ?_, ?_, ?_, ?_, ?_⟩
  · rw [Array.size_map]
    exact h.reaches
  · rw [Array.size_map, Array.size_map]
    exact h.size_eq
  · intro id q hq
    rw [Array.getElem?_map] at hq ⊢
    obtain ⟨p, hp, rfl⟩ := Option.map_eq_some_iff.mp hq
    obtain ⟨p', hp', hecho⟩ := h.get id p hp
    exact ⟨f p', by rw [hp']; rfl, hf hecho⟩
  · intro id q' hlow hhigh hq'
    rw [Array.getElem?_map] at hq'
    obtain ⟨p', hp', rfl⟩ := Option.map_eq_some_iff.mp hq'
    exact hremoved p' (h.removed id p' hlow hhigh hp')
  · intro q hq
    obtain ⟨p, hp, rfl⟩ := Array.mem_map.mp hq
    rw [hpropagator]
    exact h.shipped p hp
  · rw [Array.size_map]
    exact h.covers
  · intro id q hq hid
    rw [Array.getElem?_map] at hq
    obtain ⟨p, hp, rfl⟩ := Option.map_eq_some_iff.mp hq
    rw [hfull]
    exact h.spent id p hp hid

/-- **Where the scheduled posts wait in their order** the agendas correspond. -/
theorem agenda_eq {a a' : Agenda} (hq : Queues posts a) (hq' : Queues posts' a') (hl : a.InLine) (hl' : a'.InLine) :
    a' = a.across k.ids := by
  refine hq'.ordered.eq_of_inLine (ordered_across hq.ordered) hl' (inLine_across hl) fun π id => ?_
  rw [hq'.mem_iff, queue_across, List.mem_map]
  constructor
  · rintro ⟨p', hp', hs, hpriority⟩
    obtain ⟨j, p, rfl, hp, hecho⟩ := h.exists_of_get hp' (by rw [hs]; nofun)
    refine ⟨j, (hq.mem_iff π j).mpr ⟨p, hp, hecho.state ▸ hs, ?_⟩, rfl⟩
    rw [← hecho.propagator]
    exact hpriority
  · rintro ⟨j, hj, rfl⟩
    obtain ⟨p, hp, hs, hpriority⟩ := (hq.mem_iff π j).mp hj
    obtain ⟨p', hp', hecho⟩ := h.get j p hp
    exact ⟨p', hp', hecho.state.trans hs, by rw [hecho.propagator]; exact hpriority⟩

end PostsEcho

/-! ### Networks -/

/-- The second network is the same but for the residue. Propagation was begun in both. -/
structure Echoes (k : Residue) (n n' : Network) : Prop where
  model : n.model.Echoes k n'.model
  posts : PostsEcho k n.posts n'.posts
  watchers : ∀ x, watchersOf n'.watchers x = (watchersOf n.watchers x).map (Watcher.across k.ids)
  agenda : n'.agenda = n.agenda.across k.ids
  started : n.started = true
  started' : n'.started = true
  failed : n'.failed = n.failed
  executions : (n'.executions : Int) = n.executions + k.executions

/-- **Networks of one roll**, the same but for posts that were removed, echo each other as soon as the posts are in the
same states and wait in their order. -/
theorem echoes_of_roll {n n' : Network} (hc : n.Coherent) (hc' : n'.Coherent) (hmodel : n.model.Echoes k n'.model)
    (hids : k.ids = ⟨n.posts.size, n'.posts.size - n.posts.size⟩) (hspent : k.spent = 0)
    (hsize : n.posts.size ≤ n'.posts.size) (hroll : ∀ i < n.posts.size, n'.roll[i]? = n.roll[i]?)
    (hremoved : ∀ i e, n.posts.size ≤ i → n'.roll[i]? = some e → e.removed = true)
    (hhoused : ∀ e ∈ n.roll, e.active < k.cells.base)
    (hshipped : n.Shipped)
    (hstates : ∀ (id : PropId) p p', n.posts[id.index]? = some p → n'.posts[id.index]? = some p' →
      p'.state = p.state ∧ p'.full = p.full)
    (hstarted : n.started = true) (hstarted' : n'.started = true) (hfailed : n'.failed = n.failed)
    (hline : n.agenda.InLine) (hline' : n'.agenda.InLine) (hexecutions : (n'.executions : Int) = n.executions + k.executions) :
    n.Echoes k n' := by
  have hover : ∀ id : PropId, id.index < n.posts.size → id.across k.ids = id := by
    intro id hid
    rw [PropId.across, hids, Leap.across_of_lt hid]
  have hposts : PostsEcho k n.posts n'.posts := by
    refine ⟨?_, ?_, fun id p hp => ?_, fun id p' hlow _ hp' => ?_, hshipped, ?_, ?_⟩
    · rw [hids]
    · rw [hids]
      dsimp only
      omega
    · have hlt := (Array.getElem?_eq_some_iff.mp hp).1
      obtain ⟨p', hp', heq⟩ := exists_of_roll (hroll id.index hlt) hp
      obtain ⟨hpropagator, hactive, -⟩ := Enrolment.mk.inj heq
      obtain ⟨hstate, hfull⟩ := hstates id p p' hp hp'
      have hbelow : p.active < k.cells.base := hhoused p.enrolment (Array.mem_map_of_mem (Array.mem_of_getElem? hp))
      exact ⟨p', by rw [hover id hlt, hp'], hpropagator, by rw [hactive, Leap.across_of_lt hbelow], hstate, hfull⟩
    · rw [hids] at hlow
      exact of_decide_eq_true (hremoved id.index p'.enrolment hlow (getElem?_roll_of hp'))
    · rw [hspent]
      exact Nat.zero_le _
    · intro id p _ hid
      rw [hspent] at hid
      exact absurd hid (Nat.not_lt_zero _)
  refine ⟨hmodel, hposts, fun x => ?_, hposts.agenda_eq hc.queues hc'.queues hline hline', hstarted, hstarted', hfailed,
    hexecutions⟩
  rw [hc'.watched, hc.watched, entriesOf_eq_of_roll hroll hremoved, List.map_congr_left (g := id), List.map_id]
  intro w hw
  obtain ⟨p, hp, -⟩ := mem_entriesOf.mp hw
  rw [Watcher.across, hover w.id (Array.getElem?_eq_some_iff.mp hp).1]
  rfl

namespace Echoes

variable {n n' : Network} (h : n.Echoes k n')

include h

theorem withModel {m m' : Model} (hm : m.Echoes k m') : Echoes k { n with model := m } { n' with model := m' } :=
  ⟨hm, h.posts, h.watchers, h.agenda, h.started, h.started', h.failed, h.executions⟩

theorem onModel {α : Type} {f f' : Model → Activity (α × Model)} {R : α → α → Prop}
    (hf : Activity.Matches (fun r r' => R r.1 r'.1 ∧ r.2.Echoes k r'.2) (f n.model) (f' n'.model)) :
    Activity.Matches (fun r r' => R r.1 r'.1 ∧ r.2.Echoes k r'.2) (n.onModel f) (n'.onModel f') :=
  .bind hf fun _ _ hr => .pure ⟨hr.1, h.withModel hr.2⟩

theorem mapModel {f f' : Model → Except Fault Model} (hf : Matches (Model.Echoes k) (f n.model) (f' n'.model)) :
    Matches (Echoes k) (n.mapModel f) (n'.mapModel f') :=
  .bind hf fun _ _ hm => .ok (h.withModel hm)

theorem takeLast : n.takeLast.2.Echoes k n'.takeLast.2 :=
  ⟨h.model, h.posts, h.watchers, h.agenda, h.started, h.started', h.failed, h.executions⟩

/-! ### Scheduling -/

theorem wake {id : PropId} {p q q' : Post} (hp : n.posts[id.index]? = some p) (hq : PostEchoes k q q')
    (hpropagator : q.propagator = p.propagator) (hspent : id.index < k.spent → q.full = false) :
    (n.wake id q).Echoes k (n'.wake (id.across k.ids) q') := by
  rw [Network.wake, Network.wake, hq.state]
  split
  · have hposts := h.posts.set hp (q := { q with state := .scheduled }) (s := { q' with state := .scheduled })
      ⟨hq.propagator, hq.active, rfl, hq.full⟩ hpropagator hspent
    refine ⟨h.model, hposts, h.watchers, ?_, h.started, h.started', h.failed, h.executions⟩
    rw [hq.propagator, enqueue_across, ← h.agenda]
  · exact ⟨h.model, h.posts.set hp hq hpropagator hspent, h.watchers, h.agenda, h.started, h.started', h.failed,
      h.executions⟩

theorem scheduleFull {id : PropId} (hid : k.spent ≤ id.index) :
    (n.scheduleFull id).Echoes k (n'.scheduleFull (id.across k.ids)) := by
  rw [Network.scheduleFull, Network.scheduleFull]
  cases hp : n.posts[id.index]? with
  | none =>
    rw [h.posts.get_none hp]
    exact h
  | some p =>
    obtain ⟨p', hp', hecho⟩ := h.posts.get id p hp
    rw [hp']
    dsimp only
    rw [hecho.state]
    split
    · exact h
    · refine h.wake hp ⟨hecho.propagator, hecho.active, rfl, rfl⟩ rfl fun hlt => ?_
      exact absurd hlt (Nat.not_lt.mpr hid)

theorem notify (e : Event) (w : Watcher) : (n.notify e w).Echoes k (n'.notify (e.across k.ids) (w.across k.ids)) := by
  have hskips : (decide ((e.across k.ids).cause = .propagator (w.across k.ids).id) ||
      !(e.across k.ids).kind.mask.intersects (w.across k.ids).condition) =
        (decide (e.cause = .propagator w.id) || !e.kind.mask.intersects w.condition) :=
    congrArg (· || _) (decide_eq_decide.mpr Cause.across_eq_propagator)
  rw [Network.notify, Network.notify, hskips]
  split
  · exact h
  · cases hp : n.posts[w.id.index]? with
    | none =>
      rw [Watcher.across, h.posts.get_none hp]
      exact h
    | some p =>
      obtain ⟨p', hp', hecho⟩ := h.posts.get w.id p hp
      rw [Watcher.across, hp']
      dsimp only
      rw [hecho.active, h.model.store.flag_eq]
      split
      · exact h.wake hp ⟨hecho.propagator, rfl, hecho.state, hecho.full⟩ rfl fun hlt => h.posts.spent _ p hp hlt
      · exact h

omit h in
theorem foldl {α β : Type} {f : Network → α → Network} {f' : Network → β → Network} {g : α → β}
    (hf : ∀ n n' x, n.Echoes k n' → (f n x).Echoes k (f' n' (g x))) (l : List α) {n n' : Network} (h : n.Echoes k n') :
    (l.foldl f n).Echoes k ((l.map g).foldl f' n') := by
  induction l generalizing n n' with
  | nil => exact h
  | cons x rest ih => exact ih (hf n n' x h)

theorem distribute (e : Event) : (n.distribute e).Echoes k (n'.distribute (e.across k.ids)) := by
  rw [distribute_eq, distribute_eq]
  have hwatchers := h.watchers e.var
  rw [show (e.across k.ids).var = e.var from rfl, hwatchers]
  exact foldl (fun _ _ w h => h.notify e w) _ h

theorem absorb : n.absorb.Echoes k n'.absorb := by
  rw [Network.absorb, Network.absorb, ← Array.foldl_toList, ← Array.foldl_toList, h.model.events, Array.toList_map]
  exact foldl (fun _ _ e h => h.distribute e) _ (h.withModel h.model.clearEvents)

/-! ### Running -/

theorem execute (id : PropId) : Activity.Matches (fun r r' => r'.1 = outcomeAcross k.ids r.1 ∧ r.2.Echoes k r'.2)
    (n.execute id) (n'.execute (id.across k.ids)) := by
  rw [Network.execute, Network.execute]
  cases hp : n.posts[id.index]? with
  | none => exact .throw
  | some p =>
    obtain ⟨p', hp', hecho⟩ := h.posts.get id p hp
    obtain ⟨c, hc⟩ := h.posts.shipped p (Array.mem_of_getElem? hp)
    rw [hp']
    dsimp only
    rw [hecho.propagator, hc, hecho.active]
    have hmodel := runPasses_echoes c h.model p.active id p.full p'.full p.pendingList p'.pendingList
    refine .bind (R := fun r r' => r'.1 = outcomeAcross k.ids r.1 ∧ ∃ m m', r.2 = { n with model := m } ∧
      r'.2 = { n' with model := m' } ∧ m.Echoes k m') (.bind hmodel fun r r' hr => .pure ?_) ?_
    · exact ⟨hr.1, r.2, r'.2, rfl, rfl, hr.2⟩
    rintro ⟨r, -⟩ ⟨r', -⟩ ⟨heq, m, m', rfl, rfl, hm⟩
    obtain rfl : r' = outcomeAcross k.ids r := heq
    have hexecutions : ((n'.executions + 1 : Nat) : Int) = (n.executions + 1 : Nat) + k.executions := by
      have := h.executions
      omega
    cases r with
    | ok u =>
      have hposts := h.posts.set hp (q := { p.clearPending with state := .idle, full := false, executions := p.executions + 1 })
        (s := { p'.clearPending with state := .idle, full := false, executions := p'.executions + 1 })
        ⟨hecho.propagator, hecho.active, rfl, rfl⟩ rfl fun _ => rfl
      exact .pure ⟨rfl, hm, hposts, h.watchers, h.agenda, h.started, h.started', h.failed, hexecutions⟩
    | error e =>
      have hposts := h.posts.set hp (q := { p.clearPending with state := .failed, full := false, executions := p.executions + 1 })
        (s := { p'.clearPending with state := .failed, full := false, executions := p'.executions + 1 })
        ⟨hecho.propagator, hecho.active, rfl, rfl⟩ rfl fun _ => rfl
      exact .pure ⟨rfl, hm, hposts, h.watchers, h.agenda, h.started, h.started', rfl, hexecutions⟩

/-- Both propagations may run as many propagators. -/
theorem budget_eq : n'.budget = n.budget := by
  have hload : n'.agenda.entries.length = n.agenda.entries.length := by
    rw [h.agenda]
    exact List.length_map _
  have hplaces : ∀ i : Nat, (n'.watchers[i]?.getD #[]).size = (n.watchers[i]?.getD #[]).size := by
    intro i
    have hlength := congrArg List.length (h.watchers ⟨i⟩)
    rw [List.length_map] at hlength
    exact hlength
  rw [budget, budget, hload, h.model.vars]
  refine List.foldr_ext _ _ _ fun e he sum => ?_
  have hy : n.model.vars[e.2]? = some e.1 := by
    rw [← Array.getElem?_toList]
    exact List.mk_mem_zipIdx_iff_getElem?.mp he
  have hget := h.model.get_of hy
  rw [hplaces, width, width, Domain.lb_congr hget, Domain.ub_congr hget]

theorem drain (fuel : Nat) : Activity.Matches (fun r r' => r'.1 = outcomeAcross k.ids r.1 ∧ r.2.Echoes k r'.2)
    (n.drain fuel) (n'.drain fuel) := by
  induction fuel generalizing n n' with
  | zero =>
    have hempty : n'.agenda.isEmpty = n.agenda.isEmpty := by
      rw [h.agenda]
      exact List.isEmpty_map
    rw [Network.drain, Network.drain, hempty]
    split
    · exact .pure ⟨rfl, h⟩
    · exact .throw
  | succ fuel ih =>
    rw [Network.drain, Network.drain, h.agenda, next?_across]
    cases n.agenda.next? with
    | none => exact .pure ⟨rfl, h⟩
    | some e =>
      obtain ⟨id, agenda⟩ := e
      have hrest : Echoes k { n with agenda } { n' with agenda := agenda.across k.ids } :=
        ⟨h.model, h.posts, h.watchers, rfl, h.started, h.started', h.failed, h.executions⟩
      refine .bind (hrest.execute id) ?_
      rintro ⟨r, t⟩ ⟨r', t'⟩ ⟨heq, ht⟩
      obtain rfl : r' = outcomeAcross k.ids r := heq
      cases r with
      | error c => exact .pure ⟨rfl, ht⟩
      | ok u => exact ih ht.absorb

/-- **Propagation has the same outcome.** -/
theorem propagate : Activity.Matches (fun r r' => r'.1 = outcomeAcross k.ids r.1 ∧ r.2.Echoes k r'.2)
    n.propagate n'.propagate := by
  rw [Network.propagate, Network.propagate, h.failed]
  split
  · exact .bind (R := fun _ _ => False) .throw fun _ _ hc => hc.elim
  · rw [start, if_pos h.started, start, if_pos h.started']
    show Activity.Matches _ (n.absorb.drain n.absorb.budget) (n'.absorb.drain n'.absorb.budget)
    rw [h.absorb.budget_eq]
    exact h.absorb.drain _

/-! ### Letting go, posting and removing -/

theorem flush : n.flush.Echoes k n'.flush := by
  have hposts : PostsEcho k n.flush.posts n'.flush.posts := by
    refine h.posts.map (f := letGo) (fun {p p'} hecho => ?_) (fun p => (letGo_same p).1) (fun p hr => ?_)
      fun p => (letGo_same p).2.2.1
    · refine ⟨?_, ?_, ?_, ?_⟩
      · rw [(letGo_same p').1, (letGo_same p).1, hecho.propagator]
      · rw [active_letGo, active_letGo, hecho.active]
      · rw [state_letGo, state_letGo, hecho.state, hecho.full]
      · rw [(letGo_same p').2.2.1, (letGo_same p).2.2.1, hecho.full]
    · rw [state_letGo, if_pos hr]
  have hagenda := hposts.agenda_eq (queues_flush n).1 (queues_flush n').1 (queues_flush n).2 (queues_flush n').2
  exact ⟨h.model.clearEvents, hposts, h.watchers, hagenda, h.started, h.started', rfl, h.executions⟩

/-- What is posted gets a number that corresponds. -/
theorem post (c : Constraint) : Activity.Matches (fun r r' => r'.1 = r.1.across k.ids ∧ r.2.Echoes k r'.2)
    (n.post c.propagator) (n'.post c.propagator) := by
  have howns : (fun x => !n'.model.owns x) = fun x => !n.model.owns x := funext fun x => by rw [h.model.owns_eq]
  rw [Network.post, Network.post, howns]
  split
  · exact .throw
  · rename_i hfind
    have hscope : ∀ x ∈ c.propagator.scope, n.model.owns x = true := fun x hx => by
      simpa using Array.find?_eq_none.mp hfind x hx
    have hid : (⟨n'.posts.size⟩ : PropId) = PropId.across k.ids ⟨n.posts.size⟩ := by
      rw [PropId.across, Leap.across_of_le h.posts.reaches, h.posts.size_eq]
    have hcell : n'.model.store.slots.size = k.cells.across n.model.store.slots.size := by
      rw [Leap.across_of_le h.model.store.reaches, h.model.store.size_eq]
    refine .bind (.report _ _) fun _ _ _ => ?_
    rw [Store.make_eq_grow, Store.make_eq_grow]
    dsimp only
    rw [if_pos h.started, if_pos h.started']
    refine .pure ⟨hid, ?_⟩
    rw [hid]
    refine scheduleFull ?_ h.posts.covers
    refine ⟨h.model.withStore (h.model.store.grow _), ?_, fun x => ?_, h.agenda, h.started, h.started', h.failed,
      h.executions⟩
    · exact h.posts.push ⟨rfl, hcell, rfl, rfl⟩ ⟨c, rfl⟩
    · have hgrown : ∀ (n : Network), (∀ x ∈ c.propagator.scope, n.model.owns x = true) → ∀ x ∈ c.propagator.scope,
          x.index < (n.watchers ++ Array.replicate (n.model.varCount - n.watchers.size) #[]).size := by
        intro n hscope x hx
        have howns : x.index < n.model.varCount := of_decide_eq_true (hscope x hx)
        rw [Array.size_append, Array.size_replicate]
        omega
      rw [watchersOf_watch _ _ _ _ (hgrown n' fun x hx => by rw [h.model.owns_eq, hscope x hx]),
        watchersOf_watch _ _ _ _ (hgrown n hscope), watchersOf_append, watchersOf_append, h.watchers, List.map_append,
        List.map_map]
      rfl

theorem unpost (id : PropId) : Activity.Matches (Echoes k) (n.unpost id) (n'.unpost (id.across k.ids)) := by
  rw [Network.unpost, Network.unpost]
  cases hp : n.posts[id.index]? with
  | none => exact .throw
  | some p =>
    obtain ⟨p', hp', hecho⟩ := h.posts.get id p hp
    rw [hp']
    dsimp only
    rw [hecho.state]
    split
    · exact .bind (R := fun _ _ => False) .throw fun _ _ hc => hc.elim
    · refine .bind (.report _ _) fun _ _ _ => .pure ?_
      have hposts := h.posts.set hp (q := { p.clearPending with state := .removed, full := false })
        (s := { p'.clearPending with state := .removed, full := false }) ⟨hecho.propagator, hecho.active, rfl, rfl⟩ rfl
        fun _ => rfl
      refine ⟨h.model, hposts, fun x => ?_, ?_, h.started, h.started', h.failed, h.executions⟩
      · have hfilter : ∀ (ws : Array (Array Watcher)) (id : PropId),
            watchersOf (ws.map fun ws => ws.filter fun w => w.id ≠ id) x = (watchersOf ws x).filter fun w => w.id ≠ id := by
          intro ws id
          rw [watchersOf, watchersOf, Array.getElem?_map]
          cases ws[x.index]? <;> simp
        rw [hfilter, hfilter, h.watchers, List.filter_map]
        simp [Function.comp_def, Watcher.across]
      · rw [h.agenda, erase_across]

end Echoes

end Network

end FiniteDomain
