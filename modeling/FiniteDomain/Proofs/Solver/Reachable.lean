import FiniteDomain.Proofs.Model.Lifetime
import FiniteDomain.Proofs.Search.Run
import FiniteDomain.Solver

/-!
# Reachable solvers

Between its searches the model of a solver may be edited at will, constraints may be posted and removed, and the
configuration and the strategy may be changed. A search can begin at any time, provided the domains are then
well-formed.

* `Reachable`: the solvers that come about so, with the constraints that are posted;
* `Reachable.exists_ready`: what holds of all of them;
* `Network.Ready.begins`: a search can begin.
-/

namespace FiniteDomain

open Activity

/-- The constraints that are posted, by the numbers of their propagators. -/
abbrev Postings := PropId → Option Constraint

namespace Postings

/-- The assignment satisfies all that are posted. -/
def Holds (posted : Postings) (a : Assignment) : Prop := ∀ id c, posted id = some c → c.Holds a

def insert (posted : Postings) (id : PropId) (c : Constraint) : Postings := fun j => if j = id then some c else posted j

def erase (posted : Postings) (id : PropId) : Postings := fun j => if j = id then none else posted j

end Postings

/-- The constraints of a roster. -/
def Roster.postings (r : Roster) : Postings := fun id => (r id).map Member.constraint

namespace Roster

variable {r : Roster}

theorem postings_eq_some {id : PropId} {c : Constraint} :
    r.postings id = some c ↔ ∃ e, r id = some e ∧ e.constraint = c := Option.map_eq_some_iff

theorem postings_insert (r : Roster) (id : PropId) (e : Member) :
    (r.insert id e).postings = r.postings.insert id e.constraint := by
  funext j
  simp only [postings, insert, Postings.insert]
  split <;> rfl

theorem postings_erase (r : Roster) (id : PropId) : (r.erase id).postings = r.postings.erase id := by
  funext j
  simp only [postings, erase, Postings.erase]
  split <;> rfl

end Roster

/-! ### Networks between searches -/

namespace Network

/-- Between searches no propagator is asleep, in no open world, and each has a cell to itself. -/
structure Ready (n : Network) (r : Roster) : Prop where
  wired : n.Wired r
  calm : n.failed = false
  separate : n.model.Separate
  proper : ∀ id e, r id = some e → e.constraint.Proper
  scope : ∀ id e, r id = some e → ∀ x ∈ e.constraint.propagator.scope, n.model.owns x = true
  awake : ∀ id e, r id = some e → n.model.store.Throughout e.cell (.bool true)
  apart : ∀ id e, r id = some e → ¬n.model.Owns e.cell
  distinct : ∀ i j e f, r i = some e → r j = some f → e.cell = f.cell → i = j

variable {n n' : Network} {r : Roster}

/-- A network in which nothing is posted. -/
theorem ready_of_separate {m : Model} (h : m.Separate) : Ready { model := m } fun _ => none := by
  refine ⟨⟨?_, ?_, ?_, ?_, ?_, ?_, ?_⟩, rfl, h, ?_, ?_, ?_, ?_, ?_⟩
  · intro id e he
    cases he
  · intro id p _ hp
    simp at hp
  · intro id e place x he
    cases he
  · rintro id ⟨p, hp, -⟩
    simp at hp
  · intro id hid
    exact absurd hid List.not_mem_nil
  · intro id p hp
    simp at hp
  · intro _ id p hp
    simp at hp
  all_goals intros; contradiction

theorem ready_empty (name : String) : Ready { model := { name } } fun _ => none := by
  refine ready_of_separate ⟨Store.linked_empty, ?_, ?_⟩
  · rintro c ⟨i, y, hy, -⟩
    simp at hy
  · intro i j y z c hy
    simp at hy

namespace Ready

/-- The model is edited, and the network fits it as before. -/
theorem edited (h : n.Ready r) (hw : n'.Wired r) (hf : n'.failed = false) {P : Nat → Prop}
    (hP : ∀ id e, r id = some e → ¬P e.cell) (he : n.model.Edited P n'.model) : n'.Ready r := by
  have hlt : ∀ id e, r id = some e → e.cell < n.model.store.slots.size := fun id e he => (h.awake id e he).lt
  refine ⟨hw, hf, he.separate, h.proper, ?_, ?_, ?_, h.distinct⟩
  · intro id e hid x hx
    obtain ⟨y, hy⟩ := Model.owns_iff.mp (h.scope id e hid x hx)
    exact Model.owns_iff.mpr ⟨y, he.vars _ y hy⟩
  · intro id e hid
    refine he.steps.throughout h.separate.linked ?_ (h.awake id e hid)
    rintro (hc | hc | hc)
    · exact hP id e hid hc
    · exact h.apart id e hid hc
    · exact Nat.lt_irrefl _ (Nat.lt_of_lt_of_le (hlt id e hid) hc)
  · intro id e hid hc
    rcases he.owns _ hc with hc | hc
    · exact h.apart id e hid hc
    · exact Nat.lt_irrefl _ (Nat.lt_of_lt_of_le (hlt id e hid) hc)

/-- An edit that spares the cells of the propagators. -/
theorem edit (h : n.Ready r) {m : Model} (he : n.model.Edit (fun c => ∀ p ∈ n.posts, p.active ≠ c) m) :
    Ready { n with model := m } r := by
  refine h.edited (h.wired.withModel m) h.calm ?_ (he.spec h.separate)
  intro id e hid hall
  obtain ⟨p, hp, -, hactive, -⟩ := h.wired.member id e hid
  exact hall p (Array.mem_of_getElem? hp) hactive

theorem post (h : n.Ready r) {c : Constraint} (hc : c.Proper) {id : PropId} (hp : Posted r c n id n') :
    n'.Ready (r.insert id ⟨c, n.model.store.slots.size⟩) := by
  have hfresh : ∀ j e, r j = some e → e.cell ≠ n.model.store.slots.size := by
    intro j e he heq
    have hlt := (h.awake j e he).lt
    omega
  have howns : ∀ x, n'.model.owns x = n.model.owns x := by rw [hp.model_eq]; exact fun _ => rfl
  refine ⟨hp.wired, hp.failed_eq.trans h.calm, ?_, ?_, ?_, ?_, ?_, ?_⟩
  · rw [hp.model_eq]
    exact (h.separate.keep (P := fun _ => False) (.grow _ .refl) n.model.events n.model.generated).separate
  · intro j e he
    rcases Roster.insert_cases he with ⟨-, rfl⟩ | ⟨-, he⟩
    · exact hc
    · exact h.proper j e he
  · intro j e he x hx
    rw [howns]
    rcases Roster.insert_cases he with ⟨-, rfl⟩ | ⟨-, he⟩
    · exact hp.scope x hx
    · exact h.scope j e he x hx
  · intro j e he
    rw [hp.model_eq]
    rcases Roster.insert_cases he with ⟨-, rfl⟩ | ⟨-, he⟩
    · exact h.separate.linked.throughout_new (.bool true)
    · exact (h.awake j e he).grow h.separate.linked _
  · intro j e he
    rw [hp.model_eq]
    rcases Roster.insert_cases he with ⟨-, rfl⟩ | ⟨-, he⟩
    · exact fun hown => Nat.lt_irrefl _ (h.separate.housed _ hown)
    · exact h.apart j e he
  · intro i j e f he hf heq
    rcases Roster.insert_cases he with ⟨rfl, rfl⟩ | ⟨-, he'⟩ <;> rcases Roster.insert_cases hf with ⟨rfl, rfl⟩ | ⟨-, hf'⟩
    · rfl
    · exact absurd heq.symm (hfresh j f hf')
    · exact absurd heq (hfresh i e he')
    · exact h.distinct i j e f he' hf' heq

theorem unpost (h : n.Ready r) {id : PropId} (hu : Unposted r n id n') : n'.Ready (r.erase id) := by
  have hold : ∀ j e, r.erase id j = some e → r j = some e := fun j e he => (Roster.erase_cases he).2
  refine ⟨hu.wired, hu.failed_eq.trans h.calm, ?_, ?_, ?_, ?_, ?_, ?_⟩
  · rw [hu.model_eq]
    exact h.separate
  · exact fun j e he => h.proper j e (hold j e he)
  · rw [hu.model_eq]
    exact fun j e he => h.scope j e (hold j e he)
  · rw [hu.model_eq]
    exact fun j e he => h.awake j e (hold j e he)
  · rw [hu.model_eq]
    exact fun j e he => h.apart j e (hold j e he)
  · exact fun i j e f he hf => h.distinct i j e f (hold i e he) (hold j f hf)

/-- The network at the end of a search. -/
theorem ends (h : n.Ready r) {task : SearchTask} (he : Quest.Ends ⟨task, n.model, r⟩ n') : n'.Ready r := by
  obtain ⟨values, hm⟩ := he.model
  refine h.edited (P := fun _ => False) he.wired he.calm (fun _ _ _ => id) ?_
  rw [hm]
  exact h.separate.keep (.grow values .refl) #[] n.model.generated

/-- The constraints suit the model, if the domains are well-formed. -/
theorem suits [Tolerance] (h : n.Ready r)
    (hd : ∀ (i : Nat) (y : Variable), n.model.vars[i]? = some y → y.domain.WellFormed n.model.store)
    (hr : ∀ id c, r.postings id = some c → c.Mirrored n.model ∧ (Fault.overflow.Tolerated ∨ c.HasRoom n.model)) :
    r.Suits n.model := by
  refine ⟨h.separate.wellFormed hd, ?_, fun id e he => (h.awake id e he).lt, h.apart, h.distinct, ?_⟩
  · intro id e he
    obtain ⟨hmirrored, hroom⟩ := hr id _ (Roster.postings_eq_some.mpr ⟨e, he, rfl⟩)
    exact ⟨h.scope id e he, h.proper id e he, hmirrored, hroom⟩
  · intro id e he hflag
    rw [Store.flag, (h.awake id e he).get?_eq] at hflag
    cases hflag

/-- **A search can begin**, if the domains are well-formed. -/
theorem begins [Tolerance] (h : n.Ready r)
    (hd : ∀ (i : Nat) (y : Variable), n.model.vars[i]? = some y → y.domain.WellFormed n.model.store)
    (hr : ∀ id c, r.postings id = some c → c.Mirrored n.model ∧ (Fault.overflow.Tolerated ∨ c.HasRoom n.model))
    (task : SearchTask) : Quest.Begins ⟨task, n.model, r⟩ n := ⟨h.wired, h.calm, rfl, h.suits hd hr⟩

end Ready

end Network

/-! ### Requests -/

/-- What may be asked of a solver. -/
inductive Request where
  | solve
  | findAll
  | findBest (objective : Objective)

namespace Solver

/-- The answer of a solver to a request. -/
def answer {μ : Type} (s : Solver) (request : Request) (o : Observer μ) (fuel : Nat) (m : μ) :
    Except Fault (Except Refusal SearchResult × Solver) × μ :=
  match request with
  | .solve => s.solve o fuel m
  | .findAll => s.findAll o fuel m
  | .findBest objective => s.findBest objective o fuel m

/-- What a request makes a solver search for. -/
def taskOf (s : Solver) : Request → SearchTask
  | .solve => { config := { s.config with solutionLimit := some 1 } }
  | .findAll => { config := s.config }
  | .findBest objective => { config := s.config, objective }

/-- The solver can be searched: its domains are well-formed, its linear constraints keep to the range of sums, and
if a strategy was set for it, it is a heuristic. -/
structure Suits (s : Solver) (posted : Postings) : Prop where
  domains : ∀ (i : Nat) (y : Variable), s.network.model.vars[i]? = some y → y.domain.WellFormed s.network.model.store
  inRange : ∀ id c, posted id = some c → c.InRange s.network.model
  heuristic : ∀ b, s.brancher = some b → b.IsHeuristic

/-- The solvers that come about by use, each with the constraints that are then posted. -/
inductive Reachable : Solver → Postings → Prop
  | new (name : String) : Reachable (.ofModel { name }) fun _ => none
  | edit {s : Solver} {posted : Postings} {m : Model} : Reachable s posted →
      s.network.model.Edit (fun c => ∀ p ∈ s.network.posts, p.active ≠ c) m →
      Reachable { s with network := { s.network with model := m } } posted
  | configure {s : Solver} {posted : Postings} (config : SearchConfig) (brancher : Option Brancher) :
      Reachable s posted → Reachable { s with config, brancher } posted
  | post {s : Solver} {posted : Postings} {c : Constraint} {id : PropId} {n : Network} {before after : Array Notice} :
      Reachable s posted → c.Proper → (s.network.postConstraint c).run before = .ok (id, n) after →
      Reachable { s with network := n } (posted.insert id c)
  | unpost {s : Solver} {posted : Postings} {id : PropId} {n : Network} {before after : Array Notice} :
      Reachable s posted → (s.network.unpost id).run before = .ok n after →
      Reachable { s with network := n } (posted.erase id)
  | answer {s s' : Solver} {posted : Postings} {request : Request} {signals : Array Notice → Signals} {fuel : Nat}
      {result : Except Refusal SearchResult} {log : Array Notice} : Reachable s posted → s.Suits posted →
      s.answer request (.recording signals) fuel #[] = (.ok (result, s'), log) → Reachable s' posted

/-- A request was refused and nothing was shown, or it was searched to an end. -/
def Answers (q : Quest) (s : Solver) (e : Except Refusal SearchResult × Solver) (shown : List Moment) : Prop :=
  match e.1 with
  | .error _ => e.2 = s ∧ shown = []
  | .ok result => (∃ best, Concludes q shown result best) ∧ q.Ends e.2.network

variable {s : Solver} {posted : Postings} {r : Roster}

theorem defaultBrancher_suits [Tolerance] (s : Solver) : s.defaultBrancher.Suits s.network.model := fun _ hx =>
  .inr (Model.mem_allVars.mp (Array.mem_toList_iff.mp hx))

/-- The solver can be searched without a fault, but for those that are put up with. -/
structure Serves [Tolerance] (s : Solver) (posted : Postings) : Prop where
  domains : ∀ (i : Nat) (y : Variable), s.network.model.vars[i]? = some y → y.domain.WellFormed s.network.model.store
  mirrored : ∀ id c, posted id = some c → c.Mirrored s.network.model
  hasRoom : ∀ id c, posted id = some c → Fault.overflow.Tolerated ∨ c.HasRoom s.network.model
  knows : ∀ b, s.brancher = some b → b.Suits s.network.model

/-- Where faults are put up with, no more is asked of a solver. -/
theorem Suits.serves (hs : s.Suits r.postings) (hn : s.network.Ready r) : @Serves .lax s r.postings := by
  let := Tolerance.lax
  refine ⟨hs.domains, fun id c hc => ?_, fun _ _ _ => .inl id, fun b hb => ?_⟩
  · obtain ⟨e, he, rfl⟩ := Roster.postings_eq_some.mp hc
    exact (hs.inRange id _ hc).mirrored (hn.scope id e he) (hn.separate.wellFormed hs.domains)
  match b, hs.heuristic b hb with
  | .heuristic _, _ => exact fun _ _ => .inl id

namespace Serves

variable [Tolerance] (hs : s.Serves r.postings)

include hs

theorem begins (hn : s.network.Ready r) (task : SearchTask) : Quest.Begins ⟨task, s.network.model, r⟩ s.network :=
  hn.begins hs.domains (fun id c hc => ⟨hs.mirrored id c hc, hs.hasRoom id c hc⟩) task

/-- The strategy of a search, whether one was set or not. -/
theorem brancher_suits : (s.brancher.getD s.defaultBrancher).Suits s.network.model := by
  cases hb : s.brancher with
  | none => exact s.defaultBrancher_suits
  | some b => exact hs.knows b hb

end Serves

/-- What a request that is not refused makes of a solver. -/
theorem answer_eq_search (request : Request)
    (ho : ∀ o, (s.taskOf request).objective = some o → s.network.model.owns o.var = true) {μ : Type} (o : Observer μ)
    (fuel : Nat) (m : μ) : s.answer request o fuel m = s.search (s.taskOf request) o fuel m := by
  cases request with
  | solve | findAll => rfl
  | findBest objective => exact if_pos (ho objective rfl)

theorem search_spec [Tolerance] (hn : s.network.Ready r) (hs : s.Serves r.postings) {task : SearchTask}
    (ho : ∀ o, task.objective = some o → s.network.model.owns o.var = true) (signals : Array Notice → Signals)
    (fuel : Nat) :
    Records ⟨task, s.network.model, r⟩ (Answers ⟨task, s.network.model, r⟩ s)
      (s.search task (.recording signals) fuel #[]) := by
  rw [search]
  split
  · exact ⟨.nil, rfl, rfl⟩
  · have hb := hs.brancher_suits
    generalize s.brancher.getD s.defaultBrancher = b at hb
    have hrun : Records _ _ (SearchState.run task Brancher.strategy (.recording signals) fuel s.network b #[]) :=
      SearchState.run_spec (hs.begins hn task) hb (Brancher.strategy_splits _) ho fuel
    dsimp only
    generalize SearchState.run task Brancher.strategy (.recording signals) fuel s.network b #[] = e at hrun
    obtain ⟨result, log⟩ := e
    cases result with
    | error fault => exact hrun
    | ok e =>
      obtain ⟨hfits, hconcludes, hends, -⟩ := hrun
      exact ⟨hfits, hconcludes, hends⟩

/-- **What comes of a request**, however it ends. -/
theorem answer_spec [Tolerance] (hn : s.network.Ready r) (hs : s.Serves r.postings) (request : Request)
    (signals : Array Notice → Signals) (fuel : Nat) :
    Records ⟨s.taskOf request, s.network.model, r⟩ (Answers ⟨s.taskOf request, s.network.model, r⟩ s)
      (s.answer request (.recording signals) fuel #[]) := by
  have hnone : ∀ config o, (⟨config, none⟩ : SearchTask).objective = some o → s.network.model.owns o.var = true := by
    intro config o ho
    cases ho
  cases request with
  | solve => exact search_spec hn hs (hnone _) signals fuel
  | findAll => exact search_spec hn hs (hnone _) signals fuel
  | findBest objective =>
    rw [answer, findBest]
    split
    · rename_i howns
      refine search_spec hn hs ?_ signals fuel
      rintro o ⟨⟩
      exact howns
    · exact ⟨.nil, rfl, rfl⟩

/-- **Every reachable solver can begin a search** once its domains are well-formed. -/
theorem Reachable.exists_ready (h : s.Reachable posted) : ∃ r, s.network.Ready r ∧ r.postings = posted := by
  induction h with
  | new name => exact ⟨_, Network.ready_empty name, rfl⟩
  | edit _ he ih =>
    obtain ⟨r, hr, rfl⟩ := ih
    exact ⟨r, hr.edit he, rfl⟩
  | configure config brancher _ ih => exact ih
  | @post s _ c id n before after _ hc hp ih =>
    obtain ⟨r, hr, rfl⟩ := ih
    exact ⟨_, hr.post hc (hr.wired.posted hp), Roster.postings_insert r id _⟩
  | @unpost s _ id n before after _ hu ih =>
    obtain ⟨r, hr, rfl⟩ := ih
    have hu : s.network.unpost id before = .ok n after := hu
    let := Tolerance.lax
    have hunposted := Network.unpost_spec hr.wired (Network.posted_of_unpost hr.wired hu) before
    rw [hu] at hunposted
    obtain ⟨-, -, -, hunposted⟩ := hunposted
    exact ⟨_, hr.unpost hunposted, Roster.postings_erase r id⟩
  | @answer s s' _ request signals fuel result log _ hs ha ih =>
    obtain ⟨r, hr, rfl⟩ := ih
    let := Tolerance.lax
    have hanswer := answer_spec hr (hs.serves hr) request signals fuel
    rw [ha] at hanswer
    obtain ⟨-, hanswer⟩ := hanswer
    cases result with
    | error refusal =>
      have heq : s' = s := hanswer.1
      exact ⟨r, heq ▸ hr, rfl⟩
    | ok result => exact ⟨r, hr.ends hanswer.2, rfl⟩

/-! ### Solvers that can be searched -/

theorem suits_ofModel {births : List Birth} {m : Model} (h : Model.History births m)
    (hk : ∀ b ∈ births, b.kept = true) : (ofModel m).Suits fun _ => none :=
  ⟨(h.wellFormed hk).domains, fun _ _ hc => (by cases hc), fun _ hb => by cases hb⟩

/-- A constraint may be posted if its sums are in range. -/
theorem Suits.post (hs : s.Suits posted) (hr : s.Reachable posted) {c : Constraint}
    (hrange : c.InRange s.network.model) {id : PropId} {n : Network} {before after : Array Notice}
    (hp : (s.network.postConstraint c).run before = .ok (id, n) after) :
    Suits { s with network := n } (posted.insert id c) := by
  obtain ⟨r, hready, rfl⟩ := hr.exists_ready
  have hposted := hready.wired.posted hp
  have hwell := hready.separate.wellFormed hs.domains
  have hagrees := Model.Agrees.grow hwell [.bool true]
  rw [← hposted.model_eq] at hagrees
  have hkept : ∀ d : Constraint, (∀ x ∈ d.propagator.scope, s.network.model.owns x = true) →
      d.InRange s.network.model → d.InRange n.model := fun d hscope hin =>
    hin.of_narrower hscope hwell (hagrees.wellFormed hwell) (fun x hx => (hagrees.owns_eq x).trans hx)
      fun x v => (hagrees.has_iff x v).mp
  refine ⟨(hagrees.wellFormed hwell).domains, fun j d hd => ?_, hs.heuristic⟩
  simp only [Postings.insert] at hd
  split at hd
  · cases hd
    exact hkept c hposted.scope hrange
  · obtain ⟨e, he, rfl⟩ := Roster.postings_eq_some.mp hd
    exact hkept _ (hready.scope j e he) (hs.inRange j _ hd)

end Solver

end FiniteDomain
