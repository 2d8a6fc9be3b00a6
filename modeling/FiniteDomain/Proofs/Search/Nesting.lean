import FiniteDomain.Proofs.Search.Accounting
import FiniteDomain.Proofs.Search.Atop

/-!
# Decisions are nested

Between two restarts the calls with which decisions are taken and left for their refutations are nested as the tree is:
what is shown between the two calls of a decision is the exploration of what is below its first alternative, and at the
second call the model is the one that was shown at the first.

* `Explored`, `Exploring`, `Searching`: the calls of explorations that are over, of one with decisions still open, and
  of a search with its restarts;
* `Matched`: what comes before a call with which a decision is left for its refutation;
* `SearchState.Nests`: where a search is in its tree, kept by every turn;
* `SearchState.Takes`: the states at which the open decisions were taken;
* `Network.Attained.search_nests`.
-/

namespace FiniteDomain

open Activity

/-! ### Explorations -/

/-- The calls of an exploration that is over. A decision of which an alternative was tried before it was taken is left
without a call. -/
inductive Explored : List Moment → Prop
  | nil : Explored []
  | aside {c : Moment} (h : c.1.IsAside) : Explored [c]
  | append {a b : List Moment} (ha : Explored a) (hb : Explored b) : Explored (a ++ b)
  | both {d : Decision} {m m' : Model} {first second : List Moment} (fresh : d.tried = 0) (hfirst : Explored first)
      (restores : m.Restores m') (hsecond : Explored second) :
      Explored ((.down d, m) :: first ++ (.up { d with tried := 1 }, m') :: second)
  | once {d : Decision} {m : Model} {inside : List Moment} (tried : d.tried ≠ 0) (hinside : Explored inside) :
      Explored ((.down d, m) :: inside)

/-- The calls of an exploration that is under way below some decisions, the deepest first. Each goes with the model that
was shown when it was taken. -/
inductive Exploring : List (Decision × Model) → List Moment → Prop
  | root {l : List Moment} (h : Explored l) : Exploring [] l
  | first {frames : List (Decision × Model)} {above below : List Moment} {d : Decision} {m : Model}
      (habove : Exploring frames above) (hbelow : Explored below) :
      Exploring (({ d with tried := d.tried + 1 }, m) :: frames) (above ++ (.down d, m) :: below)
  | second {frames : List (Decision × Model)} {above first below : List Moment} {d : Decision} {m m' : Model}
      (habove : Exploring frames above) (fresh : d.tried = 0) (hfirst : Explored first) (restores : m.Restores m')
      (hbelow : Explored below) : Exploring (({ d with tried := 2 }, m) :: frames)
        (above ++ ((.down d, m) :: first ++ (.up { d with tried := 1 }, m') :: below))

/-- The calls of a search: explorations, each but the first after a restart, and the last one under way. -/
inductive Searching : List (Decision × Model) → List Moment → Prop
  | once {frames : List (Decision × Model)} {l : List Moment} (h : Exploring frames l) : Searching frames l
  | again {frames frames' : List (Decision × Model)} {earlier later : List Moment} {k : Nat} {m : Model}
      (hearlier : Searching frames' earlier) (hlater : Exploring frames later) :
      Searching frames (earlier ++ (.restarted k, m) :: later)

/-- A decision is left for its refutation after it was taken, with what is below its first alternative explored in
between, and the model is as it was shown then. -/
def Matched (before : List Moment) (c : Moment) : Prop :=
  ∀ d m', c = (.up d, m') → d.tried = 1 ∧ ∃ m earlier inside,
    before = earlier ++ (.down { d with tried := 0 }, m) :: inside ∧ Explored inside ∧ m.Restores m'

theorem Matched.of_aside {before : List Moment} {c : Moment} (h : c.1.IsAside) : Matched before c := by
  rintro d m' rfl
  exact h.elim

theorem Matched.prepend {before : List Moment} {c : Moment} (h : Matched before c) (earlier : List Moment) :
    Matched (earlier ++ before) c := by
  rintro d m' hc
  obtain ⟨htried, m, earlier', inside, rfl, hinside⟩ := h d m' hc
  exact ⟨htried, m, earlier ++ earlier', inside, by rw [List.append_assoc], hinside⟩

theorem Explored.asides {l : List Moment} (h : ∀ c ∈ l, c.1.IsAside) : Explored l := by
  induction l with
  | nil => exact .nil
  | cons c rest ih =>
    obtain ⟨hc, hrest⟩ := List.forall_mem_cons.mp h
    exact .append (.aside hc) (ih hrest)

namespace Exploring

variable {frames : List (Decision × Model)} {l below : List Moment} {d : Decision} {m m' : Model}

/-- What is explored below the deepest decision. -/
theorem append (h : Exploring frames l) (hbelow : Explored below) : Exploring frames (l ++ below) := by
  cases h with
  | root h => exact .root (h.append hbelow)
  | first habove h =>
    rw [List.append_assoc, List.cons_append]
    exact .first habove (h.append hbelow)
  | second habove fresh hfirst restores h =>
    rw [List.append_assoc, List.append_assoc, List.cons_append]
    exact .second habove fresh hfirst restores (h.append hbelow)

theorem down (h : Exploring frames l) (d : Decision) (m : Model) :
    Exploring (({ d with tried := d.tried + 1 }, m) :: frames) (l ++ [(.down d, m)]) := .first h .nil

/-- The deepest decision is left for its refutation. -/
theorem up (h : Exploring ((d, m) :: frames) l) (next : d.tried < 2) (restores : m.Restores m') :
    Exploring (({ d with tried := d.tried + 1 }, m) :: frames) (l ++ [(.up d, m')]) ∧ Matched l (.up d, m') := by
  generalize hf : (d, m) :: frames = framed at h
  cases h with
  | root => cases hf
  | @first _ above inside d₀ _ habove hinside =>
    cases hf
    have h0 : d₀.tried = 0 := Nat.lt_one_iff.mp (Nat.lt_of_succ_lt_succ next)
    obtain ⟨x, v, split, tried⟩ := d₀
    cases h0
    refine ⟨?_, ?_⟩
    · rw [List.append_assoc, List.cons_append]
      exact .second (d := ⟨x, v, split, 0⟩) habove rfl hinside restores .nil
    · rintro _ _ ⟨⟩
      exact ⟨rfl, m, above, inside, rfl, hinside, restores⟩
  | second =>
    cases hf
    exact absurd next (Nat.lt_irrefl 2)

/-- The deepest decision is done with. -/
theorem close (h : Exploring ((d, m) :: frames) l) (next : ¬d.tried < 2) : Exploring frames l := by
  generalize hf : (d, m) :: frames = framed at h
  cases h with
  | root => cases hf
  | @first _ _ _ d₀ _ habove hinside =>
    cases hf
    have htried : d₀.tried ≠ 0 := by
      dsimp only at next
      omega
    exact habove.append (.once htried hinside)
  | second habove fresh hfirst restores hbelow =>
    cases hf
    exact habove.append (.both fresh hfirst restores hbelow)

end Exploring

namespace Searching

variable {frames frames' : List (Decision × Model)} {l below : List Moment} {d : Decision} {m m' : Model}

/-- What goes on in the last exploration goes on in the search. -/
theorem extend (h : Searching frames l) (hlast : ∀ l, Exploring frames l → Exploring frames' (l ++ below)) :
    Searching frames' (l ++ below) := by
  cases h with
  | once h => exact .once (hlast _ h)
  | again hearlier h =>
    rw [List.append_assoc, List.cons_append]
    exact .again hearlier (hlast _ h)

theorem append (h : Searching frames l) (hbelow : Explored below) : Searching frames (l ++ below) :=
  h.extend fun _ he => he.append hbelow

theorem down (h : Searching frames l) (d : Decision) (m : Model) :
    Searching (({ d with tried := d.tried + 1 }, m) :: frames) (l ++ [(.down d, m)]) := h.extend fun _ he => he.down d m

theorem up (h : Searching ((d, m) :: frames) l) (next : d.tried < 2) (restores : m.Restores m') :
    Searching (({ d with tried := d.tried + 1 }, m) :: frames) (l ++ [(.up d, m')]) ∧ Matched l (.up d, m') := by
  refine ⟨h.extend fun _ he => (he.up next restores).1, ?_⟩
  cases h with
  | once h => exact (h.up next restores).2
  | @again _ _ earlier later k m _ h =>
    have hmatched := (h.up next restores).2.prepend (earlier ++ [(.restarted k, m)])
    rwa [List.append_assoc] at hmatched

theorem close (h : Searching ((d, m) :: frames) l) (next : ¬d.tried < 2) : Searching frames l := by
  cases h with
  | once h => exact .once (h.close next)
  | again hearlier h => exact .again hearlier (h.close next)

theorem restarted (h : Searching frames l) (k : Nat) (m : Model) : Searching [] (l ++ [(.restarted k, m)]) :=
  .again h (.root .nil)

end Searching

/-- The calls are nested, and each with which a decision is left for its refutation goes with that with which it was
taken. -/
def WellNested (shown : List Moment) : Prop := (∃ frames, Searching frames shown) ∧ Fits Matched shown

theorem WellNested.append {l new : List Moment} (h : WellNested l) (hasides : ∀ c ∈ new, c.1.IsAside) :
    WellNested (l ++ new) := by
  obtain ⟨⟨frames, hsearching⟩, hmatched⟩ := h
  refine ⟨⟨frames, hsearching.append (.asides hasides)⟩, hmatched.append fun before c after heq => ?_⟩
  exact .of_aside (hasides c (by simp [heq]))

/-! ### The path and the worlds -/

namespace Network

variable {n n' : Network} {j k : Nat} {frames : List (Decision × Network)} {d : Decision} {n₀ : Network}

/-- The network stands atop those at which some decisions were taken, the deepest first: so many worlds above the first
of these, and one world more above each of the others. -/
def Piled : Nat → List (Decision × Network) → Network → Prop
  | _, [], _ => True
  | k, (_, n₀) :: frames, n => (n₀.Housed ∧ n₀.Atop k n) ∧ Piled (k + 1) frames n

theorem Piled.lift (h : Piled j frames n) (hl : Lifts j k n n') : Piled k frames n' := by
  induction frames generalizing j k with
  | nil => trivial
  | cons e frames ih =>
    obtain ⟨⟨hhoused, hatop⟩, hframes⟩ := h
    have hhead := hl e.2 0
    rw [Nat.zero_add, Nat.zero_add] at hhead
    exact ⟨⟨hhoused, hhead hatop⟩, ih hframes hl.raise⟩

end Network

namespace SearchState

open Network

variable {σ : Type} {n₀ : Network} {task : SearchTask} {strategy : Strategy σ} {s s' : SearchState σ}
  {shown new : List Moment} {frames : List (Decision × Network)}

/-- The decisions on the path of which an alternative is being tried, the deepest first. -/
def entered (s : SearchState σ) : List Decision :=
  if s.turn = .down then s.path.fromDeepest.tail else s.path.fromDeepest

/-- The calls so far are those of a search that is below some decisions. These are the ones on the path, and the network
stands atop those at which they were taken. -/
structure Nests (s : SearchState σ) (shown : List Moment) (frames : List (Decision × Network)) : Prop where
  searching : Searching (frames.map fun e => (e.1, e.2.model)) shown
  entered : frames.map Prod.fst = s.entered
  piled : s.network.Piled 1 frames

/-- At the state a decision is taken, whatever was tried of it by then. -/
def Takes (s : SearchState σ) (e : Decision × Network) : Prop :=
  s.turn = .down ∧ s.network = e.2 ∧ ∃ tried, s.path.last? = some { e.1 with tried }

/-- Whatever is open after a turn was so before it, or was taken by it. -/
def Passes (s : SearchState σ) (frames frames' : List (Decision × Network)) : Prop :=
  ∀ e ∈ frames', s.Takes e ∨ ∃ tried, ({ e.1 with tried }, e.2) ∈ frames

theorem Passes.same : s.Passes frames frames := fun e he => .inr ⟨e.1.tried, he⟩

theorem Stays.housed (h : Stays n₀ s) (hn₀ : n₀.Founded) : s.network.Housed := by
  refine ⟨fun c hc => ?_, h.tethered.housed⟩
  have hvars : s.network.model.vars = n₀.model.vars := by rw [h.tethered.frame]
  obtain ⟨i, y, hy, hc⟩ := hc
  have hlt := hn₀.separate.housed c ⟨i, y, hvars ▸ hy, hc⟩
  obtain ⟨values, hreturns⟩ := h.tethered.store.returns
  have hsize := (h.tethered.store.linked.popMany_spec hreturns).2.2
  rw [Store.size_slots_grow] at hsize
  omega

theorem Arrives.asides {elsewhere : Turn} (h : Arrives s elsewhere s' new) : ∀ c ∈ new, c.1.IsAside := by
  cases h with
  | node => exact nofun
  | failure =>
    intro c hc
    cases List.mem_singleton.mp hc
    trivial

theorem Arrives.entered_eq {elsewhere : Turn} (h : Arrives s elsewhere s' new) (hne : elsewhere ≠ .down) :
    s'.entered = s.path.fromDeepest := by
  cases h with
  | node => rfl
  | failure => exact if_neg hne

/-- A turn that takes no alternative and stays where it is. -/
theorem Nests.stay (hn : s.Nests shown frames) (hasides : ∀ c ∈ new, c.1.IsAside) (hentered : s'.entered = s.entered)
    (hl : Lifts 1 1 s.network s'.network) : s'.Nests (shown ++ new) frames :=
  ⟨hn.searching.append (.asides hasides), hn.entered.trans hentered.symm, hn.piled.lift hl⟩

/-- On the way up the deepest decision is the one that is left. -/
theorem Nests.deepest (hn : s.Nests shown frames) (turn : s.turn = .up) {d : Decision} (last : s.path.last? = some d) :
    ∃ n rest, frames = (d, n) :: rest ∧ rest.map Prod.fst = s.path.parent.fromDeepest := by
  have hpath : frames.map Prod.fst = d :: s.path.parent.fromDeepest := by
    rw [hn.entered, ← DecisionPath.fromDeepest_eq_cons last]
    exact if_neg (by simp [turn])
  obtain ⟨⟨_, n⟩, rest, rfl, rfl, hrest⟩ := List.map_eq_cons_iff.mp hpath
  exact ⟨n, rest, rfl, hrest⟩

/-- There the network is as it was when the decision was taken. -/
theorem Nests.restores {n : Network} {d : Decision} (hn : s.Nests shown ((d, n) :: frames)) {m : Model}
    (pop : s.network.model.popWorld = .ok m) : n.Restores { s.network with model := m } := by
  obtain ⟨⟨hhoused, hatop⟩, -⟩ := hn.piled
  exact (hatop.popWorld pop).restores hhoused

/-- **A turn keeps to the nesting.** -/
theorem Nests.step (hn : s.Nests shown frames) (hstays : Stays n₀ s) (hn₀ : n₀.Founded) (hclimbs : s.Climbs s'.network)
    (h : Advances task strategy s s' new) : ∃ frames', s'.Nests (shown ++ new) frames' ∧ s.Passes frames frames' := by
  have hhere : s.turn ≠ .down → s.entered = s.path.fromDeepest := fun hne => if_neg hne
  have hnone : s.path.fromDeepest = [] → s.turn ≠ .down → frames = [] := by
    intro hpath hne
    rw [← List.map_eq_nil_iff, hn.entered, hhere hne, hpath]
  simp only [Climbs] at hclimbs
  cases h with
  | root turn | barren turn =>
    have hpath : s.path.fromDeepest = [] := by
      rw [hstays.path turn]
      rfl
    obtain rfl := hnone hpath (by simp [turn])
    exact ⟨[], ⟨hn.searching.append (.aside trivial), hpath.symm, trivial⟩, .same⟩
  | limited turn reason =>
    exact ⟨frames, hn.stay (List.forall_mem_nil _) (hhere (by simp [turn])).symm (.refl 1 _), .same⟩
  | due turn due =>
    exact ⟨frames, hn.stay (List.forall_mem_singleton.mpr trivial) (hhere (by simp [turn])).symm (.refl 1 _), .same⟩
  | @decide turn d _ chosen =>
    refine ⟨frames, hn.stay (List.forall_mem_singleton.mpr trivial) ?_ (.refl 1 _), .same⟩
    rw [hhere (by simp [turn])]
    show (s.path.push d).fromDeepest.tail = s.path.fromDeepest
    rw [DecisionPath.fromDeepest_push, List.tail_cons]
  | @find turn _ _ _ _ _ _ _ next after =>
    rw [turn] at hclimbs
    have hne : next ≠ .down := by
      rcases after with ⟨-, rfl⟩ | ⟨-, rfl⟩
      · decide
      · split <;> decide
    refine ⟨frames, hn.stay ?_ ((if_neg hne).trans (hhere (by simp [turn])).symm) (Lifts.raise hclimbs), .same⟩
    simp [Callback.IsAside]
  | @down turn d last _ _ _ _ arrives =>
    rw [turn] at hclimbs
    have hbelow := (hn.searching.down d s.network.model).append (.asides arrives.asides)
    rw [List.append_assoc] at hbelow
    refine ⟨({ d with tried := d.tried + 1 }, s.network) :: frames, ⟨hbelow, ?_, ?_⟩, ?_⟩
    · have htail : s.entered = s.path.fromDeepest.tail := if_pos turn
      rw [arrives.entered_eq (by decide)]
      simp [trying, hn.entered, htail]
    · have hhere : s.network.Housed ∧ s.network.Atop 0 s.network := ⟨hstays.housed hn₀, .refl hstays.tethered.store.linked⟩
      have hpiled : s.network.Piled 0 (({ d with tried := d.tried + 1 }, s.network) :: frames) := ⟨hhere, hn.piled⟩
      exact hpiled.lift hclimbs
    · refine List.forall_mem_cons.mpr ⟨.inl ⟨turn, rfl, d.tried, last⟩, fun e he => .inr ⟨e.1.tried, he⟩⟩
  | @up turn d last next m pop _ _ arrives =>
    rw [turn] at hclimbs
    have hclimbs := hclimbs d last
    rw [if_pos (show d.hasNext = true from decide_eq_true next)] at hclimbs
    obtain ⟨n, rest, rfl, hrest⟩ := hn.deepest turn last
    have hbelow := (hn.searching.up next (hn.restores pop).model).1.append (.asides arrives.asides)
    rw [List.append_assoc] at hbelow
    refine ⟨({ d with tried := d.tried + 1 }, n) :: rest, ⟨hbelow, ?_, ?_⟩, ?_⟩
    · rw [arrives.entered_eq (by decide)]
      simp [trying, hrest]
    · have hpiled : s.network.Piled 1 (({ d with tried := d.tried + 1 }, n) :: rest) := hn.piled
      exact hpiled.lift hclimbs
    · refine List.forall_mem_cons.mpr ⟨.inr ⟨d.tried, List.mem_cons_self⟩, fun e he => ?_⟩
      exact .inr ⟨e.1.tried, List.mem_cons_of_mem _ he⟩
  | @close turn d last next =>
    rw [turn] at hclimbs
    have hclimbs := hclimbs d last
    rw [if_neg fun h : d.hasNext = true => next (of_decide_eq_true h)] at hclimbs
    obtain ⟨n, rest, rfl, hrest⟩ := hn.deepest turn last
    obtain ⟨-, hpiled⟩ := hn.piled
    refine ⟨rest, ⟨?_, hrest.trans (if_neg (by simp [turn])).symm, hpiled.lift (Lifts.raise hclimbs)⟩, fun e he => ?_⟩
    · rw [List.append_nil]
      exact hn.searching.close next
    · exact .inr ⟨e.1.tried, List.mem_cons_of_mem _ he⟩
  | done turn last =>
    exact ⟨frames, hn.stay (List.forall_mem_nil _) (hhere (by simp [turn])).symm (.refl 1 _), .same⟩
  | restart turn m _ arrives =>
    have hbelow := (hn.searching.restarted (s.measures.restarts + 1) m).append (.asides arrives.asides)
    rw [List.append_assoc] at hbelow
    refine ⟨[], ⟨hbelow, ?_, trivial⟩, fun _ he => absurd he List.not_mem_nil⟩
    rw [arrives.entered_eq (by decide)]
    rfl

/-- So does a call with which a turn begins. -/
theorem Nests.opens (hn : s.Nests shown frames) {c : Moment} (h : s.Opens c) :
    (∃ frames', Searching frames' (shown ++ [c])) ∧ Matched shown c := by
  cases h with
  | @down _ d => exact ⟨⟨_, hn.searching.down d _⟩, nofun⟩
  | up turn last next pop =>
    obtain ⟨n, rest, rfl, -⟩ := hn.deepest turn last
    obtain ⟨hsearching, hmatched⟩ := hn.searching.up next (hn.restores pop).model
    exact ⟨⟨_, hsearching⟩, hmatched⟩
  | restart _ k m => exact ⟨⟨_, hn.searching.restarted k m⟩, nofun⟩

/-- **Whatever a turn makes of the calls that it may make, they are nested**, also if it faults. -/
theorem Nests.tells (hn : s.Nests shown frames) (h : Fits s.Tells new) :
    (∃ frames', Searching frames' (shown ++ new)) ∧ Fits (fun before c => Matched (shown ++ before) c) new := by
  cases new with
  | nil => exact ⟨⟨_, by rw [List.append_nil]; exact hn.searching⟩, .nil⟩
  | cons c rest =>
    have hasides : ∀ e ∈ rest, e.1.IsAside := by
      intro e he
      obtain ⟨before, after, rfl⟩ := List.append_of_mem he
      exact (h (c :: before) e after rfl).resolve_right fun hopens => by cases hopens.1
    have hfirst : (∃ frames', Searching frames' (shown ++ [c])) ∧ Matched shown c := by
      rcases h [] c rest rfl with haside | ⟨-, hopens⟩
      · exact ⟨⟨_, hn.searching.append (.aside haside)⟩, .of_aside haside⟩
      · exact hn.opens hopens
    obtain ⟨⟨frames', hsearching⟩, hmatched⟩ := hfirst
    refine ⟨⟨frames', ?_⟩, fun before e after heq => ?_⟩
    · have happended := hsearching.append (.asides hasides)
      rwa [List.append_assoc] at happended
    · cases before with
      | nil =>
        obtain ⟨rfl, -⟩ := List.cons.inj heq
        rw [List.append_nil]
        exact hmatched
      | cons _ before =>
        obtain ⟨-, rfl⟩ := List.cons.inj heq
        exact .of_aside (hasides e (by simp))

/-! ### Runs -/

section Runs

variable {signals : Array Notice → Signals} {log log' : Array Notice}

/-- A run keeps to the nesting, and whatever was taken during the run and is open at its end was taken at a state that
it came through. -/
theorem Reaches.nests (hr : Reaches task strategy (.recording signals) s log s' log') (hs : strategy.Lawful)
    (hn₀ : n₀.Founded) (hstays : Stays n₀ s) (hd : s.network.Discreet) (hn : s.Nests (moments log) frames)
    (hmatched : Fits Matched (moments log)) : s'.network.Discreet ∧ Fits Matched (moments log') ∧
      ∃ frames', s'.Nests (moments log') frames' ∧ ∀ e ∈ frames', (∃ tried, ({ e.1 with tried }, e.2) ∈ frames) ∨
        ∃ s₀ log₀, Reaches task strategy (.recording signals) s log s₀ log₀ ∧
          Reaches task strategy (.recording signals) s₀ log₀ s' log' ∧ s₀.Takes e := by
  induction hr generalizing frames with
  | refl => exact ⟨hd, hmatched, frames, hn, fun e he => .inl ⟨e.1.tried, he⟩⟩
  | turn hturn hattend hrest ih =>
    obtain ⟨new, hnew, hfits, hadvances⟩ := (step_advances task strategy hd hturn _).attended hattend
    obtain ⟨hd', hadvances⟩ := hadvances _ rfl
    obtain ⟨notices, hstep⟩ := Observer.of_attend_ok hattend
    have hstays' := @Gives.yields _ .worldly _ _ (step_gives hstays task hs _) _ _ _ hstep
    have hclimbs := step_climbs hstays.tethered.lawful task strategy _ _ _ _ hstep
    obtain ⟨frames₁, hn₁, hpasses⟩ := hn.step hstays hn₀ hclimbs hadvances
    rw [← hnew] at hn₁
    have hmatched₁ := hmatched.append (hn.tells hfits).2
    rw [← hnew] at hmatched₁
    obtain ⟨hd', hmatched', frames', hn', htaken⟩ := ih hstays' hd' hn₁ hmatched₁
    refine ⟨hd', hmatched', frames', hn', fun e he => ?_⟩
    rcases htaken e he with ⟨tried, he⟩ | ⟨s₀, log₀, hbefore, hafter, htakes⟩
    · rcases hpasses _ he with htakes | hearlier
      · exact .inr ⟨_, _, .refl _ _, .turn hturn hattend hrest, htakes⟩
      · exact .inl hearlier
    · exact .inr ⟨s₀, log₀, .turn hturn hattend hbefore, hafter, htakes⟩

/-- What an observer of some turns knows at their end, it knows from the states that were reached and from the turn that
may have faulted at the last of them. -/
theorem exists_of_turns {μ : Type} {o : Observer μ} {m m' : μ} {fuel : Nat} {r : Except Fault (SearchState σ)}
    (h : turns task strategy o s m fuel = (r, m')) : (∃ s', Reaches task strategy o s m s' m') ∨
      ∃ s' m'' fault, s'.turn ≠ .stop ∧ Reaches task strategy o s m s' m'' ∧
        o.attend m'' (s'.step task strategy (o.signals m'')) = (.error fault, m') := by
  induction fuel generalizing s m with
  | zero =>
    rw [turns] at h
    split at h <;> obtain ⟨-, rfl⟩ := Prod.mk.inj h <;> exact .inl ⟨s, .refl s _⟩
  | succ fuel ih =>
    rw [turns] at h
    split at h
    · obtain ⟨-, rfl⟩ := Prod.mk.inj h
      exact .inl ⟨s, .refl s _⟩
    · rename_i hturn
      split at h
      · rename_i hstep
        rcases ih h with ⟨s', hrest⟩ | ⟨s', m'', fault, hturn', hrest, hfault⟩
        · exact .inl ⟨s', .turn hturn hstep hrest⟩
        · exact .inr ⟨s', m'', fault, hturn', .turn hturn hstep hrest, hfault⟩
      · rename_i fault _ hstep
        obtain ⟨-, rfl⟩ := Prod.mk.inj h
        exact .inr ⟨s, m, fault, hturn, .refl s m, hstep⟩

/-- The calls of all turns together are nested, also if the last of them faults. -/
theorem turns_nests {r : Except Fault (SearchState σ)} {fuel : Nat}
    (h : turns task strategy (.recording signals) s log fuel = (r, log')) (hs : strategy.Lawful)
    (hn₀ : n₀.Founded) (hstays : Stays n₀ s) (hd : s.network.Discreet) (hn : s.Nests (moments log) frames)
    (hmatched : Fits Matched (moments log)) : WellNested (moments log') := by
  rcases exists_of_turns h with ⟨s', hreaches⟩ | ⟨s', log'', fault, hturn, hreaches, hfault⟩
  · obtain ⟨-, hmatched', frames', hn', -⟩ := hreaches.nests hs hn₀ hstays hd hn hmatched
    exact ⟨⟨_, hn'.searching⟩, hmatched'⟩
  · obtain ⟨hd', hmatched', frames', hn', -⟩ := hreaches.nests hs hn₀ hstays hd hn hmatched
    obtain ⟨new, hnew, hfits, -⟩ := (step_advances task strategy hd' hturn _).attended hfault
    obtain ⟨hsearching, hfits⟩ := hn'.tells hfits
    rw [hnew]
    exact ⟨hsearching, hmatched'.append hfits⟩

end Runs

/-- The state after so many turns, if the search gets so far. -/
def after {μ : Type} (task : SearchTask) (strategy : Strategy σ) (o : Observer μ) (s : SearchState σ) (m : μ) :
    Nat → Option (SearchState σ × μ)
  | 0 => some (s, m)
  | k + 1 =>
    if s.turn = .stop then none
    else
      match o.attend m (s.step task strategy (o.signals m)) with
      | (.ok s', m') => after task strategy o s' m' k
      | (.error _, _) => none

theorem reaches_of_after {μ : Type} {o : Observer μ} {m m' : μ} {k : Nat}
    (h : after task strategy o s m k = some (s', m')) : Reaches task strategy o s m s' m' := by
  induction k generalizing s m with
  | zero =>
    obtain ⟨⟩ := h
    exact .refl _ _
  | succ k ih =>
    rw [after] at h
    split at h
    · cases h
    · rename_i hturn
      split at h
      · rename_i hstep
        exact .turn hturn hstep (ih h)
      · cases h

theorem nests_begin (n : Network) (b : σ) : (begin n b).Nests [] [] := ⟨.once (.root .nil), rfl, trivial⟩

end SearchState

namespace Network

variable {σ : Type} {n : Network}

/-- **A refutation starts where its decision was taken.** However a run ends, its calls are nested between restarts, and
what is shown when a decision is left for its refutation is what was shown when it was taken. The open decisions are
those on the path at every turn, each taken at a state that the run came through; on the way up it is the deepest of
them that is left, and not only the model but also the propagators of that state are then as they were there. -/
theorem Attained.search_nests (h : n.Attained) (hd : n.Discreet) (task : SearchTask) {strategy : Strategy σ}
    (hs : strategy.Lawful) (signals : Array Notice → Signals) (fuel : Nat) (b : σ) :
    (∀ r log, SearchState.run task strategy (.recording signals) fuel n b #[] = (r, log) →
        WellNested (moments log)) ∧
      ∀ log₀ s log, moments log₀ = [] → SearchState.Reaches task strategy (.recording signals) (.begin n b) log₀ s log →
        ∃ frames : List (Decision × Network), Searching (frames.map fun e => (e.1, e.2.model)) (moments log) ∧
          frames.map Prod.fst = s.entered ∧
          (∀ e ∈ frames, ∃ s₁ log₁, SearchState.Reaches task strategy (.recording signals) (.begin n b) log₀ s₁ log₁ ∧
            SearchState.Reaches task strategy (.recording signals) s₁ log₁ s log ∧ s₁.Takes e) ∧
          (s.turn = .up → ∀ d, s.path.last? = some d → ∃ n' rest m, frames = (d, n') :: rest ∧
            s.network.model.popWorld = .ok m ∧ n'.Restores { s.network with model := m }) := by
  refine ⟨fun r log hrun => ?_, fun log₀ s log hlog₀ hreaches => ?_⟩
  · rw [SearchState.run] at hrun
    split at hrun
    · rename_i hannounce
      obtain ⟨_, hannounce⟩ := Observer.of_attend_error hannounce
      cases hannounce
    · rename_i log₀ hannounce
      have hlog₀ := SearchState.moments_of_announce hannounce
      have hturns : ∀ {r log}, SearchState.turns task strategy (.recording signals) (.begin n b) log₀ fuel = (r, log) →
          WellNested (moments log) := fun hturns =>
        SearchState.turns_nests hturns hs h.founded (h.founded.stays b) hd (hlog₀ ▸ SearchState.nests_begin n b)
          (hlog₀ ▸ .nil)
      split at hrun
      · rename_i hrun'
        obtain ⟨-, rfl⟩ := Prod.mk.inj hrun
        exact hturns hrun'
      · rename_i s log₁ hrun'
        obtain ⟨new, hnew, hcloses⟩ := SearchState.moments_of_conclude hrun
        rw [hnew]
        refine (hturns hrun').append fun c hc => ?_
        obtain ⟨measures, status, hclosed⟩ := hcloses c hc
        rw [hclosed]
        trivial
  · have hbegin : (SearchState.begin n b).Nests (moments log₀) [] := hlog₀ ▸ SearchState.nests_begin n b
    obtain ⟨-, -, frames, hn, htaken⟩ :=
      hreaches.nests hs h.founded (h.founded.stays b) hd hbegin (hlog₀ ▸ .nil)
    refine ⟨frames, hn.searching, hn.entered, fun e he => ?_, fun turn d last => ?_⟩
    · refine (htaken e he).resolve_left ?_
      rintro ⟨tried, hnone⟩
      exact List.not_mem_nil hnone
    · obtain ⟨n', rest, rfl, -⟩ := hn.deepest turn last
      have hat := (hreaches.stays hs (h.founded.stays b)).atNode (by simp [turn]) (by simp [turn])
      obtain ⟨t, ht, -⟩ := hat.tethered.store.exists_pop
      have hpop := Model.popWorld_eq_ok ht
      exact ⟨n', rest, _, rfl, hpop, hn.restores hpop⟩

set_option maxRecDepth 20000 in
/-- A search at the refutation of a decision that was taken in the refutation of another. -/
theorem search_nests_of_corner : ∃ (n n' : Network) (result : SearchResult) (s s₁ : SearchState Brancher)
    (log log' log₁ : Array Notice) (b b' : Brancher) (d : Decision),
    n.Attained ∧ n.Discreet ∧ Brancher.strategy.Lawful ∧
      SearchState.run ⟨{}, none⟩ Brancher.strategy (.recording fun _ => {}) 100 n b #[] = (.ok (result, n', b'), log) ∧
      result.measures.backtracks = 4 ∧ WellNested (moments log) ∧
      SearchState.Reaches ⟨{}, none⟩ Brancher.strategy (.recording fun _ => {}) (.begin n b) #[] s log' ∧
      s.turn = .up ∧ s.path.last? = some d ∧ d.tried = 1 ∧ s.path.depth = 2 ∧ (moments log').length = 10 ∧
      SearchState.Reaches ⟨{}, none⟩ Brancher.strategy (.recording fun _ => {}) s₁ log₁ s log' ∧
      s₁.Takes (d, s₁.network) ∧ ∃ (rest : List (Decision × Model)) (m : Model),
        Searching ((d, s₁.network.model) :: rest) (moments log') ∧ s.network.model.popWorld = .ok m ∧
          s₁.network.Restores { s.network with model := m } := by
  let b := Brancher.heuristic (.inputOrderMin [⟨0⟩, ⟨1⟩])
  have heval : corner?.bind (fun n =>
      (SearchState.run ⟨{}, none⟩ Brancher.strategy (.recording fun _ => {}) 100 n b #[]).1.toOption.bind fun r =>
        (SearchState.after ⟨{}, none⟩ Brancher.strategy (.recording fun _ => {}) (.begin n b) #[] 8).map fun e =>
          (r.1.measures.backtracks, e.1.turn, e.1.path.last?, e.1.path.depth, (moments e.2).length)) =
        some (4, .up, some ⟨⟨1⟩, 0, .assign, 1⟩, 2, 10) := by
    decide +kernel
  obtain ⟨n, hn, heval⟩ := Option.bind_eq_some_iff.mp heval
  obtain ⟨⟨result, n', b'⟩, hrun, heval⟩ := Option.bind_eq_some_iff.mp heval
  obtain ⟨⟨s, log'⟩, hafter, heval⟩ := Option.map_eq_some_iff.mp heval
  simp only [Prod.mk.injEq] at heval
  obtain ⟨hback, hturn, hlast, hdepth, hlength⟩ := heval
  have hrun : SearchState.run ⟨{}, none⟩ Brancher.strategy (.recording fun _ => {}) 100 n b #[] =
      (.ok (result, n', b'), _) := Prod.ext (toOption_eq_some.mp hrun) rfl
  have hd := corner_discreet hn
  have hn := corner_attained hn
  have hs := Brancher.strategy_lawful
  obtain ⟨hnested, hstates⟩ := hn.search_nests hd ⟨{}, none⟩ hs (fun _ => {}) 100 b
  have hreaches := SearchState.reaches_of_after hafter
  obtain ⟨_, hsearching, -, htaken, hup⟩ := hstates #[] s log' rfl hreaches
  obtain ⟨n₁, rest, m, rfl, hpop, hrestores⟩ := hup hturn _ hlast
  obtain ⟨s₁, log₁, -, hafter, htakes⟩ := htaken _ List.mem_cons_self
  obtain rfl : s₁.network = n₁ := htakes.2.1
  exact ⟨n, n', result, s, s₁, _, log', log₁, b, b', _, hn, hd, hs, hrun, hback, hnested _ _ hrun, hreaches, hturn,
    hlast, rfl, hdepth, hlength, hafter, htakes, _, m, hsearching, hpop, hrestores⟩

end Network

end FiniteDomain
