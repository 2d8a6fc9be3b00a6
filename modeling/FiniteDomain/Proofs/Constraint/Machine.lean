import FiniteDomain.Proofs.Constraint.Intervals
import FiniteDomain.Proofs.Constraint.Soundness

/-!
# Sums in 128 bits

Linear sums are reckoned in integers of 128 bits. Additions that might leave that range are tested, all other
operations are not, and one that leaves the range ends the session. Here the same filter is written down once more with
every operation as the machine has it, and it does what the filter over the integers does: a product of a coefficient
and a bound, and a quotient and its negation, are always in range. What remains is the room between the least sum and
the constant, which is too large if the sum is at the very edge of the range.

* `Machine.filter`: the filter as the machine has it;
* `run_exact`: it is the filter over the integers, and only the room can be out of range.
-/

namespace FiniteDomain

/-- The result of an operation of the machine, if it is in range. -/
def Sum.checked (s : Int) : Except Fault Int := if Fits s then .ok s else .error .overflow

theorem Sum.checked_eq {s : Int} (h : Fits s) : checked s = .ok s := if_pos h

namespace Filter

/-- Looks at the result of an operation of the machine. -/
def compute {α : Type} (result : Except Fault α) : Filter α := ask fun _ => result

section

variable {α β : Type}

theorem compute_bind (x : α) (g : α → Filter β) : compute (.ok x) >>= g = g x := rfl

/-- What follows a filter runs where it ended. -/
theorem run_bind_of_ok {f : Filter α} {s t : Scene} {x : α} {before middle : Array Notice}
    (h : f.run s before = .ok (.ok x, t) middle) (g : α → Filter β) :
    (f >>= g).run s before = (g x).run t middle := Activity.run_bind_of_ok h _

theorem run_ask_bind {q : Model → Except Fault α} {x : α} {s : Scene} (h : q s.model = .ok x)
    (g : α → Filter β) : (ask q >>= g).run s = (g x).run s := by
  funext before
  refine run_bind_of_ok ?_ g
  show EStateM.bind (Activity.quietly (q s.model)) _ before = _
  rw [h]
  rfl

/-- Filters that begin in the same way and do the same afterwards. -/
theorem run_bind_congr_at {f f' : Filter α} {g g' : α → Filter β} {s : Scene} {before : Array Notice}
    (hf : f'.run s before = f.run s before)
    (hg : ∀ x t middle, f.run s before = .ok (.ok x, t) middle → (g' x).run t middle = (g x).run t middle) :
    (f' >>= g').run s before = (f >>= g).run s before := by
  show EStateM.bind (f'.run s) _ before = EStateM.bind (f.run s) _ before
  rw [EStateM.bind, EStateM.bind, hf]
  cases hr : f.run s before with
  | error fault after => rfl
  | ok p after =>
    obtain ⟨r, t⟩ := p
    cases r with
    | error e => rfl
    | ok x => exact hg x t after hr

/-- So do filters that do the same wherever the first may lead. -/
theorem run_bind_congr {H : Assignment → Prop} {start s : Scene} {f f' : Filter α} {g g' : α → Filter β}
    {R : α → Scene → Prop} (hleads : @Leads .lenient _ H start f s R) (hf : f'.run s = f.run s)
    (hg : ∀ x s', Within H start s' → R x s' → (g' x).run s' = (g x).run s') :
    (f' >>= g').run s = (f >>= g).run s := by
  funext before
  refine run_bind_congr_at (congrFun hf before) fun x t middle hrun => ?_
  have hends := hleads before
  rw [hrun] at hends
  obtain ⟨-, -, -, hin, hR⟩ := hends
  exact congrFun (hg x t hin hR) middle

end

end Filter

open FiniteDomain.Filter

namespace Linear

/-! ### The filter as the machine has it -/

namespace Machine

/-- The least and the greatest value of a term over an interval. -/
def termRange (coefficient lb ub : Int) : Except Fault (Int × Int) := do
  let first ← Sum.checked (coefficient * lb)
  let second ← Sum.checked (coefficient * ub)
  return if 0 ≤ coefficient then (first, second) else (second, first)

/-- The range of a term over the domain of its variable. -/
def rangeIn (m : Model) (coefficient : Int) (x : VarId) : Except Fault (Int × Int) := do
  termRange coefficient (← m.lb x) (← m.ub x)

/-- The least and the greatest value of a sum behind the given ones, if they keep to the range of sums. -/
def boundsFrom (m : Model) (sign low high : Int) : List Term → Except Fault (Option (Int × Int))
  | [] => return some (low, high)
  | t :: rest => do
    let coefficient ← Sum.checked (sign * t.coefficient)
    let (least, greatest) ← rangeIn m coefficient t.var
    match Sum.ofInt? (low + least), Sum.ofInt? (high + greatest) with
    | some low, some high => boundsFrom m sign low high rest
    | _, _ => return none

/-- A quotient, rounded down. -/
def quotient (n d : Int) : Except Fault Int := if d = 0 then .error .overflow else Sum.checked (n / d)

/-- Moves a bound of one variable so that its term stays within the slack. -/
def filterTerm (coefficient : Int) (x : VarId) (slack : Int) : Filter Bool :=
  if 0 < coefficient then do
    let bound ← compute (quotient slack coefficient)
    Filter.narrow x (.atMost ((Value.ofInt? bound).getD Value.greatest))
  else do
    let divisor ← compute (Sum.checked (-coefficient))
    let least ← compute (quotient slack divisor)
    let bound ← compute (Sum.checked (-least))
    Filter.narrow x (.atLeast ((Value.ofInt? bound).getD Value.least))

/-- Moves the bounds of the variables of some terms. -/
def filterTerms (sign room : Int) (changed : Bool) : List Term → Filter Bool
  | [] => return changed
  | t :: rest => do
    let coefficient ← compute (Sum.checked (sign * t.coefficient))
    let (own, _) ← Filter.ask fun m => rangeIn m coefficient t.var
    match Sum.ofInt? (room + own) with
    | none => filterTerms sign room changed rest
    | some slack =>
      let moved ← filterTerm coefficient t.var slack
      filterTerms sign room (changed || moved) rest

/-- One pass over one side. -/
def filterSide (c : Linear) (side : Side) : Filter Bool := do
  let constant ← compute (Sum.checked (side.sign * c.constant))
  match ← Filter.ask fun m => boundsFrom m side.sign 0 0 c.terms with
  | none => return false
  | some (least, _) =>
    if constant < least then Filter.fail .linearBound
    else
      let room ← compute (Sum.checked (constant - least))
      filterTerms side.sign room false c.terms

/-- One pass over the sides that matter. -/
def pass (c : Linear) : Filter Bool :=
  match c.relation with
  | .le => filterSide c .upper
  | .ge => filterSide c .lower
  | .eq => do
    let first ← filterSide c .upper
    let second ← filterSide c .lower
    return first || second

/-- Repeats the pass until it changes nothing. -/
def settle (c : Linear) : Nat → Filter Unit
  | 0 => Filter.abort .outOfFuel
  | fuel + 1 => do
    if ← pass c then settle c fuel

def entailed (c : Linear) (m : Model) : Except Fault Entailment := do
  match ← boundsFrom m 1 0 0 c.terms with
  | none => return .undecided
  | some (least, greatest) =>
    let k := c.constant
    match c.relation with
    | .le => return if greatest ≤ k then .always else if k < least then .never else .undecided
    | .ge => return if k ≤ least then .always else if greatest < k then .never else .undecided
    | .eq =>
      return if least = k ∧ greatest = k then .always else if k < least ∨ greatest < k then .never else .undecided

def filter (c : Linear) : Filter Unit := do
  settle c ((← Filter.ask fun m => slackOf m c.terms) + 1)
  if (← Filter.ask (entailed c)) = .always then Filter.setPassive

end Machine

/-! ### What is in range -/

section Ranges

variable {m : Model} {terms : List Term} {c : Linear}

/-- A value in range of 64 bits keeps far from the ends of the range of sums, with either sign. -/
theorem fits_of_value {v : Int} (h : Value.Fits v) (side : Side) : Sum.Fits (side.sign * v) := by
  simp only [Value.Fits, Value.least, Value.greatest] at h
  cases side <;> simp only [Side.sign, Sum.Fits, Sum.least, Sum.greatest] <;> omega

/-- What is added to a bound of 64 bits, multiplied by a coefficient of 64 bits. -/
theorem product_bounds {k v : Int} (hk : k.natAbs ≤ 2 ^ 63) (hv : Value.Fits v) :
    -2 ^ 126 ≤ k * v ∧ k * v ≤ 2 ^ 126 := by
  have hvalue : v.natAbs ≤ 2 ^ 63 := by
    simp only [Value.Fits, Value.least, Value.greatest] at hv
    omega
  have hproduct : (k * v).natAbs ≤ 2 ^ 63 * 2 ^ 63 := by
    rw [Int.natAbs_mul]
    exact Nat.mul_le_mul hk hvalue
  omega

theorem natAbs_sign_mul {v : Int} (h : Value.Fits v) (side : Side) : (side.sign * v).natAbs ≤ 2 ^ 63 := by
  simp only [Value.Fits, Value.least, Value.greatest] at h
  cases side <;> simp only [Side.sign] <;> omega

/-- The range of a term is computed without leaving the range of sums. -/
theorem machine_rangeIn_eq (hw : m.WellFormed) {k : Int} (hk : k.natAbs ≤ 2 ^ 63) {x : VarId} (hx : m.owns x = true) :
    Machine.rangeIn m k x = rangeIn m k x := by
  obtain ⟨l, hl, hl', -⟩ := hw.lb_spec hx
  obtain ⟨u, hu, hu', -⟩ := hw.ub_spec hx
  have hfits : ∀ v, m.Has x v → Sum.Fits (k * v) := fun v hv => by
    have := product_bounds hk (hw.fits hv)
    simp only [Sum.Fits, Sum.least, Sum.greatest]
    omega
  simp only [Machine.rangeIn, rangeIn, hl, hu, ok_bind, Machine.termRange, Sum.checked_eq (hfits l hl'),
    Sum.checked_eq (hfits u hu'), termRange]

theorem machine_boundsFrom_eq (hw : m.WellFormed) (howns : ∀ t ∈ terms, m.owns t.var = true)
    (hfit : ∀ t ∈ terms, Value.Fits t.coefficient) (side : Side) (low high : Int) :
    Machine.boundsFrom m side.sign low high terms = boundsFrom m side.sign low high terms := by
  induction terms generalizing low high with
  | nil => rfl
  | cons t rest ih =>
    have ht := hfit t List.mem_cons_self
    have hrange := machine_rangeIn_eq hw (natAbs_sign_mul ht side) (howns t List.mem_cons_self)
    have ih := ih (fun t ht => howns t (List.mem_cons_of_mem _ ht)) fun t ht => hfit t (List.mem_cons_of_mem _ ht)
    simp only [Machine.boundsFrom, Sum.checked_eq (fits_of_value ht side), ok_bind, hrange, ih]
    rfl

/-- A quotient by a positive number is no farther from zero than what is divided. -/
theorem quotient_bounds {n d : Int} (hd : 0 < d) : min n 0 ≤ n / d ∧ n / d ≤ max n 0 := by
  rcases Int.le_total 0 n with hn | hn
  · have hlow := Int.ediv_nonneg hn (Int.le_of_lt hd)
    have hhigh := Int.ediv_le_self d hn
    omega
  · have hlow : n ≤ n / d := (Int.le_ediv_iff_mul_le hd).mpr (by
      have := Int.mul_le_mul_of_nonpos_left hn (show 1 ≤ d by omega)
      omega)
    have hhigh := Int.ediv_le_ediv hd hn
    rw [Int.zero_ediv] at hhigh
    omega

/-- The bound that a term sets is computed without leaving the range of sums, also after the change of sign. -/
theorem machine_filterTerm_eq {k slack : Int} (hk : k ≠ 0) (habs : k.natAbs ≤ 2 ^ 63) (hslack : Sum.Fits slack)
    (hlow : -2 ^ 126 ≤ slack) (x : VarId) : Machine.filterTerm k x slack = filterTerm k x slack := by
  have hquotient : ∀ d, 0 < d → Machine.quotient slack d = .ok (slack / d) ∧ Sum.Fits (-(slack / d)) := by
    intro d hd
    have := quotient_bounds (n := slack) hd
    simp only [Sum.Fits, Sum.least, Sum.greatest] at hslack
    rw [Machine.quotient, if_neg (by omega), Sum.checked_eq (by simp only [Sum.Fits, Sum.least, Sum.greatest]; omega)]
    exact ⟨rfl, by simp only [Sum.Fits, Sum.least, Sum.greatest]; omega⟩
  rw [Machine.filterTerm, filterTerm]
  by_cases hpos : 0 < k
  · rw [if_pos hpos, if_pos hpos, (hquotient k hpos).1, compute_bind]
  · have hneg : 0 < -k := by omega
    obtain ⟨hq, hfits⟩ := hquotient (-k) hneg
    have hdivisor : Sum.Fits (-k) := by
      simp only [Sum.Fits, Sum.least, Sum.greatest]
      omega
    rw [if_neg hpos, if_neg hpos, Sum.checked_eq hdivisor, compute_bind, hq, compute_bind, Sum.checked_eq hfits,
      compute_bind]

end Ranges

/-! ### The filter over the integers -/

/-- Coefficients and constant are values of 64 bits, and no coefficient is zero. -/
structure Given (c : Linear) : Prop where
  nonzero : ∀ t ∈ c.terms, t.coefficient ≠ 0
  coefficients : ∀ t ∈ c.terms, Value.Fits t.coefficient
  constant : Value.Fits c.constant

section Runs

variable {start s : Scene} {c : Linear}

/-- The terms are filtered alike, with any room that is in range and not negative. -/
theorem machine_filterTerms_run_eq (hin : Within (fun _ => False) start s) (side : Side) {room : Int} {terms : List Term}
    (hne : ∀ t ∈ terms, t.coefficient ≠ 0) (hfit : ∀ t ∈ terms, Value.Fits t.coefficient)
    (howns : ∀ t ∈ terms, start.model.owns t.var = true) (hroom : 0 ≤ room) (changed : Bool) :
    (Machine.filterTerms side.sign room changed terms).run s = (filterTerms side.sign room changed terms).run s := by
  induction terms generalizing s changed with
  | nil => rfl
  | cons t rest ih =>
    have hx := howns t List.mem_cons_self
    have hsign : side.sign ≠ 0 := by cases side <;> decide
    have hk : side.sign * t.coefficient ≠ 0 := Int.mul_ne_zero hsign (hne t List.mem_cons_self)
    have habs := natAbs_sign_mul (hfit t List.mem_cons_self) side
    have ih : ∀ {s}, Within (fun _ => False) start s → ∀ changed,
        (Machine.filterTerms side.sign room changed rest).run s = (filterTerms side.sign room changed rest).run s :=
      fun hin => ih hin (fun t ht => hne t (List.mem_cons_of_mem _ ht)) (fun t ht => hfit t (List.mem_cons_of_mem _ ht))
        fun t ht => howns t (List.mem_cons_of_mem _ ht)
    obtain ⟨own, greatest, hr, -, ⟨v, hv, hown⟩, -⟩ :=
      rangeIn_spec hin.wellFormed (hin.owns hx) (side.sign * t.coefficient)
    have hlow := (product_bounds habs (hin.wellFormed.fits hv)).1
    rw [Machine.filterTerms, filterTerms, Sum.checked_eq (fits_of_value (hfit t List.mem_cons_self) side), compute_bind,
      run_ask_bind ((machine_rangeIn_eq hin.wellFormed habs (hin.owns hx)).trans hr), run_ask_bind hr]
    simp only
    cases hs : Sum.ofInt? (room + own) with
    | none => exact ih hin changed
    | some slack =>
      obtain ⟨hslack, rfl⟩ := Sum.ofInt?_eq_some_iff.mp hs
      refine run_bind_congr (@filterTerm_spec .lenient _ _ _ [t.var] hin _ _ hk _ hx (List.mem_singleton_self _) nofun)
        ?_ fun moved s' hin' _ => ih hin' _
      rw [machine_filterTerm_eq hk habs hslack (by omega)]

theorem machine_filterSide_run_eq (hin : Within (fun _ => False) start s) (hc : c.Given)
    (howns : ∀ t ∈ c.terms, start.model.owns t.var = true) (side : Side) :
    (Machine.filterSide c side).run s = (c.filterSide side).run s := by
  have howns' : ∀ t ∈ c.terms, s.model.owns t.var = true := fun t ht => hin.owns (howns t ht)
  obtain ⟨r, hb⟩ := boundsFrom_total hin.wellFormed howns' side.sign 0 0
  have hb' := (machine_boundsFrom_eq hin.wellFormed howns' hc.coefficients side 0 0).trans hb
  rw [Machine.filterSide, filterSide, Sum.checked_eq (fits_of_value hc.constant side), compute_bind, run_ask_bind hb',
    run_ask_bind (q := fun m => c.bounds m side.sign) hb]
  cases r with
  | none => rfl
  | some p =>
    simp only
    split
    · rfl
    · rename_i hle
      by_cases hroom : Sum.Fits (side.sign * c.constant - p.1)
      · rw [Sum.checked_eq hroom, compute_bind, Sum.ofInt?, if_pos hroom]
        exact machine_filterTerms_run_eq hin side hc.nonzero hc.coefficients howns (by omega) false
      · rw [Sum.checked, if_neg hroom, Sum.ofInt?, if_neg hroom]
        rfl

theorem machine_pass_run_eq (hin : Within (fun _ => False) start s) (hc : c.Given)
    (howns : ∀ t ∈ c.terms, start.model.owns t.var = true) : (Machine.pass c).run s = c.pass.run s := by
  have hside : ∀ {s}, Within (fun _ => False) start s → ∀ side,
      (Machine.filterSide c side).run s = (c.filterSide side).run s :=
    fun hin => machine_filterSide_run_eq hin hc howns
  have hleads := fun {s} (hin : Within (fun _ => False) start s) {side : Side} (hmem : side ∈ c.sides) =>
    @filterSide_leads _ .lenient _ _ _ hin side hmem hc.nonzero howns (.inl trivial) fun _ _ _ _ h => h.elim
  rw [Machine.pass, pass]
  cases hr : c.relation with
  | le => exact hside hin .upper
  | ge => exact hside hin .lower
  | eq =>
    have hmem : ∀ side, side ∈ c.sides := fun side => by cases side <;> simp [sides, hr]
    exact run_bind_congr (hleads hin (hmem .upper)) (hside hin .upper) fun first s' hin' _ =>
      run_bind_congr (hleads hin' (hmem .lower)) (hside hin' .lower) fun second s' _ _ => rfl

/-- What a pass comes to where there is no assignment to keep. -/
theorem pass_tallies [Tolerance] (hin : Within (fun _ => False) start s) (hne : ∀ t ∈ c.terms, t.coefficient ≠ 0)
    (howns : ∀ t ∈ c.terms, start.model.owns t.var = true) (hroom : Fault.overflow.Tolerated) :
    Leads (fun _ => False) start c.pass s
      (Passes (c.terms.map Term.var) (fun m => ∀ side ∈ c.sides, c.Tight side m) s) :=
  pass_leads hin fun _ hside _ hin => filterSide_leads hin hside hne howns (.inl hroom) nofun

theorem machine_settle_run_eq (hin : Within (fun _ => False) start s) (hc : c.Given)
    (howns : ∀ t ∈ c.terms, start.model.owns t.var = true) (fuel : Nat) :
    (Machine.settle c fuel).run s = (c.settle fuel).run s := by
  induction fuel generalizing s with
  | zero => rfl
  | succ fuel ih =>
    refine run_bind_congr (@pass_tallies _ _ c .lenient hin hc.nonzero howns trivial) (machine_pass_run_eq hin hc howns)
      fun changed s' hin' _ => ?_
    cases changed with
    | true => exact ih hin'
    | false => rfl

theorem machine_entailed_eq {m : Model} (hw : m.WellFormed) (hc : c.Given) (howns : ∀ t ∈ c.terms, m.owns t.var = true) :
    Machine.entailed c m = c.entailed m := by
  have hb := machine_boundsFrom_eq hw howns hc.coefficients .upper 0 0
  rw [Side.sign] at hb
  rw [Machine.entailed, hb]
  rfl

theorem machine_filter_run_eq (hw : s.model.WellFormed) (hc : c.Given) (howns : ∀ t ∈ c.terms, s.model.owns t.var = true) :
    (Machine.filter c).run s = c.filter.run s := by
  have hin : Within (fun _ => False) s s := .refl hw
  obtain ⟨n, hn, hle⟩ := slackOf_spec hw howns
  rw [Machine.filter, filter, run_ask_bind (q := fun m => slackOf m c.terms) hn,
    run_ask_bind (q := fun m => slackOf m c.terms) hn]
  refine run_bind_congr (@settle_spec c .lenient _ _ _ _ _ hin
    (fun _ hin => @pass_tallies _ _ c .lenient hin hc.nonzero howns trivial) _ (Nat.lt_succ_of_le hle))
    (machine_settle_run_eq hin hc howns _) fun _ s' hin' _ => ?_
  have howns' : ∀ t ∈ c.terms, s'.model.owns t.var = true := fun t ht => hin'.owns (howns t ht)
  obtain ⟨r, hr, -⟩ := entailed_spec (c := c) hin'.wellFormed howns'
  rw [run_ask_bind hr, run_ask_bind ((machine_entailed_eq hin'.wellFormed hc howns').trans hr)]

end Runs

section Lists

variable {m : Model} {coefficients : List Int} {vars : List VarId} {r : Relation} {k : Int} {c : Linear}

theorem given_of_ofLists (hc : ofLists coefficients vars r k = .ok c) (hfit : ∀ n ∈ coefficients, Value.Fits n)
    (hk : Value.Fits k) : c.Given ∧ ∀ t ∈ c.terms, t.var ∈ vars := by
  obtain ⟨hterms, -, rfl⟩ := eq_of_ofLists hc
  have hlists : ∀ t ∈ c.terms, t.coefficient ∈ coefficients ∧ t.var ∈ vars := fun t ht =>
    mem_termsOf (List.mem_of_mem_filter (hterms ▸ ht))
  exact ⟨⟨coefficient_ne_zero_of_ofLists hc, fun t ht => hfit _ (hlists t ht).1, hk⟩, fun t ht => (hlists t ht).2⟩

/-- **All operations on sums are exact but one**: the bounds of the sum, what is reported as known, and a run of the
filter are those over the integers. An operation that leaves its range can only be that of the room between the least
sum and the constant, and a run that ends so begins with domains in which some sum in range is too far below the
constant. -/
theorem run_exact (hc : ofLists coefficients vars r k = .ok c) (hfit : ∀ n ∈ coefficients, Value.Fits n)
    (hk : Value.Fits k) (hw : m.WellFormed) (howns : ∀ x ∈ vars, m.owns x = true) (id : PropId)
    (before : Array Notice) :
    (∀ side : Side, Machine.boundsFrom m side.sign 0 0 c.terms = c.bounds m side.sign) ∧
      Machine.entailed c m = c.propagator.entailed m ∧
      (Machine.filter c).run { self := id, model := m } before = c.propagator.run.run { self := id, model := m } before ∧
      ((∃ result after, c.propagator.run.run { self := id, model := m } before = .ok result after) ∨
        ¬c.HasRoom m ∧ ∃ after, c.propagator.run.run { self := id, model := m } before = .error .overflow after) := by
  obtain ⟨hgiven, hvars⟩ := given_of_ofLists hc hfit hk
  have hterms : ∀ t ∈ c.terms, m.owns t.var = true := fun t ht => howns _ (hvars t ht)
  have hscope : ∀ x ∈ (Constraint.linear c).propagator.scope, m.owns x = true := fun x hx => by
    obtain ⟨t, ht, rfl⟩ := List.mem_map.mp (List.mem_toArray.mp hx)
    exact hterms t ht
  refine ⟨fun side => machine_boundsFrom_eq hw hterms hgiven.coefficients side 0 0, machine_entailed_eq hw hgiven hterms,
    congrFun (machine_filter_run_eq hw hgiven hterms) before, ?_⟩
  exact ((Constraint.linear c).run_sound hw hscope hgiven.nonzero id before).imp_left
    fun ⟨result, after, hrun, _⟩ => ⟨result, after, hrun⟩

/-- A coefficient at each end of the range of values, and a variable that may have all values. -/
theorem run_exact_of_extremes : ∃ m c, m.WellFormed ∧ m.Ranges ⟨0⟩ Value.least Value.greatest ∧
    ofLists [Value.least, Value.greatest, 0] [⟨0⟩, ⟨0⟩, ⟨0⟩] .eq Value.least = .ok c ∧
    Machine.boundsFrom m (-1) 0 0 c.terms = c.bounds m (-1) ∧ Machine.entailed c m = c.entailed m ∧
    (Machine.filter c).run { self := ⟨0⟩, model := m } #[] = c.filter.run { self := ⟨0⟩, model := m } #[] := by
  obtain ⟨m, c, hm, hx, hb, hc⟩ : ∃ m c, (Model.mk "extremes" {} #[] #[] 0).newBounded "x" Value.least Value.greatest =
      .ok (⟨0⟩, m) ∧ m.owns ⟨0⟩ = true ∧ m.Ranges ⟨0⟩ Value.least Value.greatest ∧
      ofLists [Value.least, Value.greatest, 0] [⟨0⟩, ⟨0⟩, ⟨0⟩] .eq Value.least = .ok c :=
    ⟨_, _, rfl, rfl, ⟨rfl, rfl⟩, rfl⟩
  have hw : m.WellFormed := by
    refine Model.History.wellFormed (.create (.start "extremes") (.newBounded ?_ ?_ hm)) ?_
    all_goals simp [Value.Fits, Value.least, Value.greatest]
  obtain ⟨hbounds, hentailed, hrun, -⟩ := run_exact hc (by decide) (by decide) hw (by simp [hx]) ⟨0⟩ #[]
  exact ⟨m, c, hw, hb, hc, hbounds .lower, hentailed, hrun⟩

/-- The least sum is in range and what the constant leaves above it is not, so that the run ends the session. -/
theorem run_overflows_of_least : ∃ m c, m.WellFormed ∧ m.Ranges ⟨0⟩ Value.least Value.least ∧
    ofLists [Value.least, Value.least] [⟨0⟩, ⟨0⟩] .ge 0 = .ok c ∧
    Machine.boundsFrom m (-1) 0 0 c.terms = .ok (some (Sum.least, Sum.least)) ∧ Sum.least ≤ -1 * 0 ∧
    ¬Sum.Fits (-1 * 0 - Sum.least) ∧
    ∃ after, (Machine.filter c).run { self := ⟨0⟩, model := m } #[] = .error .overflow after := by
  refine ⟨((Model.mk "constant" {} #[] #[] 0).newConstant Value.least).2, _, ?_, ⟨rfl, rfl⟩, rfl, rfl, by decide,
    by decide, _, rfl⟩
  refine Model.History.wellFormed (.create (.start "constant") (.newConstant (by decide))) ?_
  simp

end Lists

end Linear

end FiniteDomain
