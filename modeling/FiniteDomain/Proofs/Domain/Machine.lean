import FiniteDomain.Proofs.Domain.Creation
import FiniteDomain.Proofs.Domain.Removal
import FiniteDomain.Proofs.Domain.Scans

/-!
# Domains in integers of 64 bits

Values are integers of 64 bits with sign and places are ones without. Here the queries and the mutations are written
down once more with every operation as the machine has it: each result is looked at, the scans go word by word, and a
word that is not there cannot be read. The test of membership and the assignment of a value compute nothing, so they
are taken over. In a well-formed domain the guards before an operation keep its result in range: a bound that is to be
passed by one is not the last value, and the two bounds have places.

* `Machine.next?`, `Machine.previous?`, `Machine.values`, `Machine.apply`: the domain as the machine has it;
* `machine_next?_eq`, `machine_previous?_eq`: the queries are those over the integers;
* `machine_atLeast_eq`, `machine_atMost_eq`, `machine_remove_eq`, `machine_removeUpTo_eq`: so are the mutations;
* `WellFormed.numbered`: the places are counted by values;
* `WellFormed.machine_total`: all of them run to their end.
-/

namespace FiniteDomain

/-- The result of an operation on integers of 64 bits, if it is in range. -/
def Value.checked (v : Int) : Except Fault Int := if Fits v then .ok v else .error .overflow

theorem Value.checked_eq {v : Int} (h : Fits v) : checked v = .ok v := if_pos h

/-- The integer with sign that has the same 64 bits as an index. -/
def Value.ofIndex (i : Nat) : Int := if (i : Int) ≤ greatest then i else i - 2 * (greatest + 1)

namespace Domain

/-! ### Domains as the machine has them -/

namespace Machine

/-- The place after `i`. -/
def placeAfter (i : Nat) : Except Fault Nat := if i < Words.greatestIndex then .ok (i + 1) else .error .overflow

/-- The value that a place stands for. -/
def value : Universe → Nat → Except Fault Int
  | .dense offset _, i => Value.checked (offset + Value.ofIndex i)
  | .sparse table, i =>
    match table[i]? with
    | some v => .ok v
    | none => .error .missing

/-- The words of the members in checked arithmetic. -/
def row (m : Members) (s : Store Datum) : Words.Row := ⟨m.words.length, m.row s, true⟩

/-- The least value left from one place to another. -/
def nextMember? (m : Members) (s : Store Datum) (start limit : Nat) : Except Fault (Option Int) := do
  match ← (row m s).next? start limit with
  | some i => return some (← value m.places i)
  | none => return none

/-- The greatest value left from one place down to another. -/
def previousMember? (m : Members) (s : Store Datum) (start limit : Nat) : Except Fault (Option Int) := do
  match ← (row m s).previous? start limit with
  | some i => return some (← value m.places i)
  | none => return none

def next? (d : Domain) (s : Store Datum) (v : Int) : Except Fault (Option Int) := do
  if d.ub s ≤ v then return none
  match d.members with
  | none => return some (max (← successor v) (d.lb s))
  | some m =>
    let start := max (m.places.countLe v) (← m.places.place (d.lb s))
    nextMember? m s start (← m.places.place (d.ub s))

def previous? (d : Domain) (s : Store Datum) (v : Int) : Except Fault (Option Int) := do
  if v ≤ d.lb s then return none
  match d.members with
  | none => return some (min (← predecessor v) (d.ub s))
  | some m =>
    let start := min (← placeBefore (m.places.countLt v)) (← m.places.place (d.ub s))
    previousMember? m s start (← m.places.place (d.lb s))

def nextFrom? (d : Domain) (s : Store Datum) (v : Int) : Except Fault (Option Int) := do
  if ← d.contains s v then return some v
  next? d s v

def previousFrom? (d : Domain) (s : Store Datum) (v : Int) : Except Fault (Option Int) := do
  if ← d.contains s v then return some v
  previous? d s v

def valuesFrom (d : Domain) (s : Store Datum) (v : Int) (found : Array Int) : Nat → Except Fault (Array Int)
  | 0 => .error .outOfFuel
  | fuel + 1 => do
    match ← next? d s v with
    | none => return found
    | some w => valuesFrom d s w (found.push w) fuel

def values (d : Domain) (s : Store Datum) : Except Fault (Array Int) :=
  valuesFrom d s (d.lb s) #[d.lb s] ((d.ub s - d.lb s).toNat + 1)

/-- Takes some values off the size. -/
def shrink (m : Members) (s : Store Datum) (removed : Nat) : Except Fault (Store Datum) := do
  let change ← Value.checked (-removed)
  let (_, s) ← s.add m.size change
  return s

def atLeast (d : Domain) (s : Store Datum) (v : Int) : Except Fault (Update × Store Datum) := do
  let lb := d.lb s
  if v ≤ lb then return (.unchanged, s)
  if d.ub s < v then return (.emptied, s)
  match d.members with
  | none =>
    let s := s.set d.lower (.int v)
    return (.changed (d.boundKind s .incLow), s)
  | some m =>
    match ← nextFrom? d s v with
    | none => return (.emptied, s)
    | some w =>
      let removed ← (row m s).count (← m.places.place lb) (← placeBefore (← m.places.place w))
      let s ← shrink m s removed
      let s := s.set d.lower (.int w)
      return (.changed (d.boundKind s .incLow), s)

def atMost (d : Domain) (s : Store Datum) (v : Int) : Except Fault (Update × Store Datum) := do
  let ub := d.ub s
  if ub ≤ v then return (.unchanged, s)
  if v < d.lb s then return (.emptied, s)
  match d.members with
  | none =>
    let s := s.set d.upper (.int v)
    return (.changed (d.boundKind s .decUpp), s)
  | some m =>
    match ← previousFrom? d s v with
    | none => return (.emptied, s)
    | some w =>
      let removed ← (row m s).count (← placeAfter (← m.places.place w)) (← m.places.place ub)
      let s ← shrink m s removed
      let s := s.set d.upper (.int w)
      return (.changed (d.boundKind s .decUpp), s)

def meets (d : Domain) (s : Store Datum) (low high : Int) : Except Fault Bool := do
  if high < low ∨ d.ub s < low ∨ high < d.lb s then return false
  if d.isEnumerated then
    match ← nextFrom? d s low with
    | some v => return v ≤ high
    | none => return false
  else return true

def within (d : Domain) (s : Store Datum) (low high : Int) : Except Fault (Update × Store Datum) := do
  if ← meets d s low high then
    match ← atLeast d s low with
    | (.emptied, s) => return (.emptied, s)
    | (first, s) =>
      match ← atMost d s high with
      | (.emptied, s) => return (.emptied, s)
      | (second, s) => return (first.merge second, s)
  else return (.emptied, s)

def remove (d : Domain) (s : Store Datum) (v : Int) : Except Fault (Update × Store Datum) := do
  if ← d.contains s v then
    let lb := d.lb s
    let ub := d.ub s
    if lb = ub then return (.emptied, s)
    else if v = lb then atLeast d s (← successor v)
    else if v = ub then atMost d s (← predecessor v)
    else
      match d.members with
      | none => return (.unchanged, s)
      | some m =>
        let i ← m.places.place v
        let w ← (row m s).read (i / Word.width)
        let s := s.set (m.words.cell (i / Word.width)) (.word (Word.erase w (i % Word.width)))
        let s ← shrink m s 1
        return (.changed .remove, s)
  else return (.unchanged, s)

def removeUpTo (d : Domain) (s : Store Datum) (v high : Int) (sofar : Update) :
    Nat → Except Fault (Update × Store Datum)
  | 0 => .error .outOfFuel
  | fuel + 1 => do
    match ← next? d s v with
    | none => return (sofar, s)
    | some w =>
      if w ≤ high then
        match ← remove d s w with
        | (.emptied, s) => return (.emptied, s)
        | (update, s) => removeUpTo d s w high (sofar.merge update) fuel
      else return (sofar, s)

def removeRange (d : Domain) (s : Store Datum) (low high : Int) : Except Fault (Update × Store Datum) := do
  let lb := d.lb s
  let ub := d.ub s
  if high < low ∨ high < lb ∨ ub < low then return (.unchanged, s)
  else if low ≤ lb then
    if ub ≤ high then return (.emptied, s) else atLeast d s (← successor high)
  else if ub ≤ high then atMost d s (← predecessor low)
  else if d.isEnumerated then
    removeUpTo d s (← predecessor low) high .unchanged ((high - low).toNat + 2)
  else return (.unchanged, s)

def apply (d : Domain) (s : Store Datum) : Mutation → Except Fault (Update × Store Datum)
  | .atLeast v => atLeast d s v
  | .atMost v => atMost d s v
  | .within low high => within d s low high
  | .remove v => remove d s v
  | .removeRange low high => removeRange d s low high
  | .assign v => d.assign s v

end Machine

/-! ### The places in range -/

/-- The number of places is a value. -/
def Numbered (d : Domain) : Prop := ∀ m, d.members = some m → Value.Fits m.places.length

section Places

variable {m : Members} {lower upper : Nat} (h : m.Shaped lower upper) (hn : Value.Fits m.places.length)

include h hn

theorem machine_value_eq {i : Nat} (hi : i < m.places.length) : Machine.value m.places i = m.places.value i := by
  obtain ⟨v, hv⟩ := Universe.exists_valueAt hi
  have hfits := h.ordered.fits i v hv
  generalize m.places = places at *
  cases places with
  | dense offset n =>
    have hcast : Value.ofIndex i = i := if_pos (by have := hn.2; simp only [Universe.length] at *; omega)
    rw [Machine.value, hcast, Universe.value, Value.checked, Value.ofInt?]
    split <;> rfl
  | sparse table => rfl

/-- The scans have room. -/
theorem room (s : Store Datum) {limit : Nat} (hlimit : limit < m.places.length) :
    (Machine.row m s).Room limit ∧ limit / Word.width < (Machine.row m s).length ∧ limit < Words.greatestIndex := by
  have := hn.2
  rw [Value.greatest] at this
  refine ⟨fun _ => ?_, h.covered limit hlimit, ?_⟩
  · simp only [Word.width, Words.greatestIndex]
    omega
  · rw [Words.greatestIndex]
    omega

theorem machine_nextMember?_eq (s : Store Datum) (start : Nat) {limit : Nat} (hlimit : limit < m.places.length) :
    Machine.nextMember? m s start limit = m.next? s start limit := by
  obtain ⟨hroom, hcovered, -⟩ := room h hn s hlimit
  rw [Machine.nextMember?, Members.next?, Words.Row.next?_eq hroom hcovered, ok_bind,
    show m.check limit = .ok () from if_pos hcovered]
  show (match Words.next? (m.row s) start limit with
    | some i => _
    | none => _) = _
  cases ho : Words.next? (m.row s) start limit with
  | none =>
    by_cases hlt : limit < start
    · rw [if_pos hlt]
    · rw [if_neg hlt]
      rfl
  | some i =>
    obtain ⟨hstart, hle, -⟩ := Words.next?_eq_some ho
    rw [if_neg (by omega)]
    show _ = (m.places.value i >>= _)
    rw [← machine_value_eq h hn (Nat.lt_of_le_of_lt hle hlimit)]

theorem machine_previousMember?_eq (s : Store Datum) {start : Nat} (limit : Nat) (hstart : start < m.places.length) :
    Machine.previousMember? m s start limit = m.previous? s start limit := by
  obtain ⟨-, hcovered, hle⟩ := room h hn s hstart
  rw [Machine.previousMember?, Members.previous?, Words.Row.previous?_eq (fun _ => Nat.le_of_lt hle) hcovered, ok_bind,
    show m.check start = .ok () from if_pos hcovered]
  show (match Words.previous? (m.row s) start limit with
    | some i => _
    | none => _) = _
  cases ho : Words.previous? (m.row s) start limit with
  | none =>
    by_cases hlt : start < limit
    · rw [if_pos hlt]
    · rw [if_neg hlt]
      rfl
  | some i =>
    obtain ⟨hlimit, hle, -⟩ := Words.previous?_eq_some ho
    rw [if_neg (by omega)]
    show _ = (m.places.value i >>= _)
    rw [← machine_value_eq h hn (Nat.lt_of_le_of_lt hle hstart)]

/-- A count of places, which is also in range with the other sign. -/
theorem machine_count_eq (s : Store Datum) (start : Nat) {limit : Nat} (hlimit : limit < m.places.length) :
    ∃ n : Nat, (Machine.row m s).count start limit = .ok n ∧ m.count s start limit = .ok n ∧ Value.Fits (-n) := by
  obtain ⟨-, hcovered, -⟩ := room h hn s hlimit
  have hle : Words.count (m.row s) start limit ≤ limit + 1 - start := by
    rw [Words.count_eq_countP]
    exact Nat.le_trans List.countP_le_length (Nat.le_of_eq List.length_range')
  have hn := hn.2
  rw [Value.greatest] at hn
  refine ⟨Words.count (m.row s) start limit, Words.Row.count_eq hcovered fun _ => ?_, ?_, ?_⟩
  · show Value.Fits (Words.count (m.row s) start limit)
    simp only [Value.Fits, Value.least, Value.greatest]
    omega
  · rw [Members.count, show m.check limit = .ok () from if_pos hcovered]
    split
    · rw [Words.count, if_neg (by omega)]
      rfl
    · rfl
  · simp only [Value.Fits, Value.least, Value.greatest]
    omega

omit h hn in
theorem machine_shrink_bind {β : Type} {s : Store Datum} {n : Nat} (hfits : Value.Fits (-n))
    (f : Store Datum → Except Fault β) :
    Machine.shrink m s n >>= f = s.add m.size (-n) >>= fun p => f p.2 := by
  rw [Machine.shrink, Value.checked_eq hfits, ok_bind, bind_assoc]
  rfl

end Places

theorem Outcome.wellFormed {d : Domain} {s : Store Datum} {μ : Mutation} {r : Update × Store Datum}
    (hout : d.Outcome s μ r) (h : d.WellFormed s) : d.WellFormed r.2 := by
  cases hout with
  | emptied | unchanged => exact h
  | changed _ hwf => exact hwf

/-! ### Queries -/

namespace WellFormed

variable {d : Domain} {s : Store Datum} (h : d.WellFormed s) (hn : d.Numbered)

include h hn

theorem machine_next?_eq (v : Int) : Machine.next? d s v = d.next? s v := by
  rw [Machine.next?, Domain.next?]
  split
  · rfl
  · cases hm : d.members with
    | none => rfl
    | some m =>
      have hms := h.shaped.members m hm
      obtain ⟨i, j, hi, hj, -⟩ := h.exists_places hm
      simp only [hms.ordered.place_eq_ok hi, hms.ordered.place_eq_ok hj, ok_bind]
      exact machine_nextMember?_eq hms (hn m hm) s _ (Universe.lt_length hj)

theorem machine_previous?_eq (v : Int) : Machine.previous? d s v = d.previous? s v := by
  rw [Machine.previous?, Domain.previous?]
  split
  · rfl
  · cases hm : d.members with
    | none => rfl
    | some m =>
      have hms := h.shaped.members m hm
      obtain ⟨i, j, hi, hj, -⟩ := h.exists_places hm
      simp only [hms.ordered.place_eq_ok hi, hms.ordered.place_eq_ok hj, ok_bind]
      cases placeBefore (m.places.countLt v) with
      | error fault => rfl
      | ok c =>
        exact machine_previousMember?_eq hms (hn m hm) s _
          (Nat.lt_of_le_of_lt (Nat.min_le_right c j) (Universe.lt_length hj))

theorem machine_nextFrom?_eq (v : Int) : Machine.nextFrom? d s v = d.nextFrom? s v := by
  rw [Machine.nextFrom?, Domain.nextFrom?, h.machine_next?_eq hn]

theorem machine_previousFrom?_eq (v : Int) : Machine.previousFrom? d s v = d.previousFrom? s v := by
  rw [Machine.previousFrom?, Domain.previousFrom?, h.machine_previous?_eq hn]

theorem machine_valuesFrom_eq (v : Int) (found : Array Int) (fuel : Nat) :
    Machine.valuesFrom d s v found fuel = d.valuesFrom s v found fuel := by
  induction fuel generalizing v found with
  | zero => rfl
  | succ fuel ih =>
    rw [Machine.valuesFrom, Domain.valuesFrom, h.machine_next?_eq hn]
    cases d.next? s v with
    | error fault => rfl
    | ok r =>
      cases r with
      | none => rfl
      | some w => exact ih w (found.push w)

theorem machine_values_eq : Machine.values d s = d.values s := h.machine_valuesFrom_eq hn _ _ _

/-! ### Mutations -/

theorem machine_atLeast_eq (v : Int) : Machine.atLeast d s v = d.atLeast s v := by
  rw [Machine.atLeast, Domain.atLeast]
  by_cases h1 : v ≤ d.lb s
  · rw [if_pos h1, if_pos h1]
  by_cases h2 : d.ub s < v
  · rw [if_neg h1, if_pos h2, if_neg h1, if_pos h2]
  rw [if_neg h1, if_neg h2, if_neg h1, if_neg h2]
  cases hm : d.members with
  | none => rfl
  | some m =>
    obtain ⟨r, hr, hleast⟩ := h.nextFrom?_spec (v := v) (fun hnone => by rw [hm] at hnone; cases hnone)
    simp only [h.machine_nextFrom?_eq hn, hr, ok_bind]
    cases r with
    | none => rfl
    | some w =>
      have hms := h.shaped.members m hm
      obtain ⟨i, j, hi, hj, -⟩ := h.exists_places hm
      obtain ⟨k, hk⟩ := h.exists_place hm hleast.1.1
      simp only [hms.ordered.place_eq_ok hi, hms.ordered.place_eq_ok hk, ok_bind]
      cases k with
      | zero => rfl
      | succ k =>
        have hlt : k < m.places.length := Nat.lt_trans (Nat.lt_succ_self k) (Universe.lt_length hk)
        obtain ⟨n, hmachine, hcount, hfits⟩ := machine_count_eq hms (hn m hm) s i hlt
        simp only [placeBefore, ok_bind, hmachine, hcount]
        exact machine_shrink_bind hfits _

theorem machine_atMost_eq (v : Int) : Machine.atMost d s v = d.atMost s v := by
  rw [Machine.atMost, Domain.atMost]
  by_cases h1 : d.ub s ≤ v
  · rw [if_pos h1, if_pos h1]
  by_cases h2 : v < d.lb s
  · rw [if_neg h1, if_pos h2, if_neg h1, if_pos h2]
  rw [if_neg h1, if_neg h2, if_neg h1, if_neg h2]
  cases hm : d.members with
  | none => rfl
  | some m =>
    obtain ⟨r, hr, hgreatest⟩ := h.previousFrom?_spec (v := v) (fun hnone => by rw [hm] at hnone; cases hnone)
    simp only [h.machine_previousFrom?_eq hn, hr, ok_bind]
    cases r with
    | none => rfl
    | some w =>
      have hms := h.shaped.members m hm
      obtain ⟨i, j, hi, hj, -⟩ := h.exists_places hm
      obtain ⟨k, hk⟩ := h.exists_place hm hgreatest.1.1
      have hafter : Machine.placeAfter k = .ok (k + 1) := if_pos (room hms (hn m hm) s (Universe.lt_length hk)).2.2
      obtain ⟨n, hmachine, hcount, hfits⟩ := machine_count_eq hms (hn m hm) s (k + 1) (Universe.lt_length hj)
      simp only [hms.ordered.place_eq_ok hj, hms.ordered.place_eq_ok hk, ok_bind, hafter, hmachine, hcount]
      exact machine_shrink_bind hfits _

theorem machine_meets_eq (low high : Int) : Machine.meets d s low high = d.meets s low high := by
  rewrite [Machine.meets, Domain.meets, h.machine_nextFrom?_eq hn]
  rfl

theorem machine_within_eq (low high : Int) : Machine.within d s low high = d.within s low high := by
  obtain ⟨⟨first, t⟩, hlow, hout⟩ := h.atLeast_spec low
  have hwf : d.WellFormed t := hout.wellFormed h
  rewrite [Machine.within, Domain.within, h.machine_meets_eq hn, h.machine_atLeast_eq hn, hlow]
  cases d.meets s low high with
  | error fault => rfl
  | ok met =>
    cases met with
    | false => rfl
    | true =>
      cases first with
      | emptied => rfl
      | unchanged | changed =>
        show (Machine.atMost d t high >>= _) = (d.atMost t high >>= _)
        rewrite [hwf.machine_atMost_eq hn]
        rfl

theorem machine_remove_eq (v : Int) : Machine.remove d s v = d.remove s v := by
  rw [Machine.remove, Domain.remove]
  by_cases hv : ¬d.Has s v
  · rw [contains_eq_false h.shaped hv]
    rfl
  have hv := Classical.not_not.mp hv
  simp only [contains_eq_true hv, ok_bind, if_true, h.machine_atLeast_eq hn, h.machine_atMost_eq hn]
  cases hm : d.members with
  | none => rfl
  | some m =>
    have hms := h.shaped.members m hm
    obtain ⟨k, hk⟩ := h.exists_place hm hv
    have hcovered := hms.covered k (Universe.lt_length hk)
    have hcheck : m.check k = .ok () := if_pos hcovered
    have hread : (Machine.row m s).read (k / Word.width) = .ok (m.row s (k / Word.width)) := if_pos hcovered
    simp only [hms.ordered.place_eq_ok hk, ok_bind, hcheck, hread]
    simp only [machine_shrink_bind (show Value.Fits (-(1 : Nat)) by decide)]
    rfl

/-- The loop takes out one value after the other, each in a well-formed domain. -/
theorem machine_removeUpTo_eq (v high : Int) (sofar : Update) (fuel : Nat) :
    Machine.removeUpTo d s v high sofar fuel = d.removeUpTo s v high sofar fuel := by
  induction fuel generalizing s v sofar with
  | zero => rfl
  | succ fuel ih =>
    rw [Machine.removeUpTo, Domain.removeUpTo, h.machine_next?_eq hn]
    cases d.next? s v with
    | error fault => rfl
    | ok r =>
      cases r with
      | none => rfl
      | some w =>
        simp only [ok_bind]
        obtain ⟨⟨update, t⟩, ht, hout⟩ := h.remove_spec w
        have hwf : d.WellFormed t := hout.wellFormed h
        rewrite [h.machine_remove_eq hn, ht]
        cases update with
        | emptied => rfl
        | unchanged | changed => simp only [ok_bind, ih hwf]

theorem machine_removeRange_eq (low high : Int) : Machine.removeRange d s low high = d.removeRange s low high := by
  simp only [Machine.removeRange, Domain.removeRange, h.machine_atLeast_eq hn, h.machine_atMost_eq hn,
    h.machine_removeUpTo_eq hn]

theorem machine_apply_eq (μ : Mutation) : Machine.apply d s μ = d.apply s μ := by
  cases μ with
  | atLeast v => exact h.machine_atLeast_eq hn v
  | atMost v => exact h.machine_atMost_eq hn v
  | within low high => exact h.machine_within_eq hn low high
  | remove v => exact h.machine_remove_eq hn v
  | removeRange low high => exact h.machine_removeRange_eq hn low high
  | assign v => rfl

omit hn in
/-- The places of a domain in a store that fits a memory are counted by values. -/
theorem numbered (hmemory : s.slots.size < Words.manyWords) : d.Numbered := by
  intro m hm
  have hms := h.shaped.members m hm
  have hwords : m.words.length ≤ s.slots.size := by
    rcases Nat.eq_zero_or_pos m.words.length with h0 | hpos
    · omega
    · have hlast := h.housed _ (.inr (.inr ⟨m, hm, .inr ⟨m.words.length - 1, by omega, rfl⟩⟩))
      rw [Block.cell] at hlast
      omega
  have hplaces : m.places.length ≤ m.words.length * 64 := by
    rcases Nat.eq_zero_or_pos m.places.length with h0 | hpos
    · omega
    · have hlast := hms.covered (m.places.length - 1) (by omega)
      rw [Word.width] at hlast
      omega
  rw [Words.manyWords] at hmemory
  simp only [Value.Fits, Value.least, Value.greatest]
  omega

omit hn in
/-- **Nothing that is asked of a domain leaves the range of its integers.** In a well-formed domain whose store fits a
memory, every query and every mutation runs on the machine as it does on the integers: no operation overflows, no word
beyond the row is read or written, and each bound has its place in the universe. The domain stays well-formed. -/
theorem machine_total (hmemory : s.slots.size < Words.manyWords) :
    (∀ v, Value.Fits v → (∃ b, d.contains s v = .ok b) ∧
      (∃ o, Machine.next? d s v = .ok o ∧ d.next? s v = .ok o) ∧
        ∃ o, Machine.previous? d s v = .ok o ∧ d.previous? s v = .ok o) ∧
      (∃ vs, Machine.values d s = .ok vs ∧ d.values s = .ok vs) ∧ Value.Fits (d.size s) ∧
      ∀ μ, ∃ r, Machine.apply d s μ = .ok r ∧ d.apply s μ = .ok r ∧ d.WellFormed r.2 := by
  have hn := h.numbered hmemory
  refine ⟨fun v hv => ⟨exists_contains h.shaped s v, ?_, ?_⟩, ?_, ?_, fun μ => ?_⟩
  · obtain ⟨o, ho, -⟩ := h.next?_spec fun _ => hv
    exact ⟨o, (h.machine_next?_eq hn v).trans ho, ho⟩
  · obtain ⟨o, ho, -⟩ := h.previous?_spec fun _ => hv
    exact ⟨o, (h.machine_previous?_eq hn v).trans ho, ho⟩
  · obtain ⟨vs, hvs, -⟩ := h.values_spec
    exact ⟨vs, (h.machine_values_eq hn).trans hvs, hvs⟩
  · rw [size]
    cases hm : d.members with
    | none => exact Value.fits_clamp _
    | some m => exact h.size_fits m hm
  · obtain ⟨⟨update, t⟩, hr, hout⟩ := h.apply_spec μ
    exact ⟨_, (h.machine_apply_eq hn μ).trans hr, hr, hout.wellFormed h⟩

end WellFormed

/-- The least and the greatest value and one between them, in a table. -/
theorem WellFormed.machine_total_of_extremes :
    ∃ (d : Domain) (s : Store Datum), d.WellFormed s ∧ s.slots.size < Words.manyWords ∧
      (∀ v, d.Has s v ↔ v ∈ #[Value.least, 0, Value.greatest]) ∧
      (∃ o, Machine.previous? d s Value.least = .ok o) ∧ (∃ o, Machine.next? d s Value.greatest = .ok o) ∧
      (∃ vs, Machine.values d s = .ok vs) ∧
      ∀ μ ∈ [Mutation.removeRange Value.least 0, .remove Value.greatest, .within 1 Value.greatest],
        ∃ r, Machine.apply d s μ = .ok r := by
  have hvalues : Increasing #[Value.least, 0, Value.greatest] := ⟨by decide, by decide, by decide⟩
  obtain ⟨hwf, hhas⟩ := enumerated_spec {} hvalues (by decide)
  have hmemory : (enumerated {} #[Value.least, 0, Value.greatest]).2.slots.size < Words.manyWords := by
    decide +kernel
  obtain ⟨hquery, ⟨vs, hvs, -⟩, -, hmutation⟩ := hwf.machine_total hmemory
  obtain ⟨-, -, o, hprevious, -⟩ := hquery Value.least (by decide)
  obtain ⟨-, ⟨o', hnext, -⟩, -⟩ := hquery Value.greatest (by decide)
  refine ⟨_, _, hwf, hmemory, hhas, ⟨o, hprevious⟩, ⟨o', hnext⟩, ⟨vs, hvs⟩, fun μ _ => ?_⟩
  obtain ⟨r, hr, -⟩ := hmutation μ
  exact ⟨r, hr⟩

end Domain

end FiniteDomain
