import FiniteDomain.Proofs.Domain.Confinement
import FiniteDomain.Proofs.Domain.Mutation
import FiniteDomain.Proofs.Matching

/-!
# Domains in stores that agree

What a domain is asked depends on its cells only, and so does what a mutation makes of them. This holds of any domain,
be it well-formed or not.

* `nextFrom?_congr`, `previousFrom?_congr`, `values_congr`: the same answers in stores that agree on the cells;
* `Shares.apply`: a relation of stores that agree on the cells, and that writes to these keep, is kept by mutations.
-/

namespace FiniteDomain

namespace Words

variable {a b : Nat → UInt64}

theorem next?_congr {start limit : Nat} (h : ∀ j, j ≤ limit / Word.width → b j = a j) :
    next? b start limit = next? a start limit := by
  fun_induction next? a start limit with
  | case1 start hle base i hi hin =>
    rw [next?, if_pos hle, h _ (Nat.div_le_div_right hle)]
    simp only [hi]
    exact if_pos hin
  | case2 start hle base i hi hout =>
    rw [next?, if_pos hle, h _ (Nat.div_le_div_right hle)]
    simp only [hi]
    exact if_neg hout
  | case3 start hle base hnone ih =>
    rw [next?, if_pos hle, h _ (Nat.div_le_div_right hle)]
    simp only [hnone]
    exact ih
  | case4 start hlt => rw [next?, if_neg hlt]

theorem previous?_congr {start limit : Nat} (h : ∀ j, j ≤ start / Word.width → b j = a j) :
    previous? b start limit = previous? a start limit := by
  fun_induction previous? a start limit with
  | case1 start hle base i hi hin =>
    rw [previous?, if_pos hle, h _ (Nat.le_refl _)]
    simp only [hi]
    exact if_pos hin
  | case2 start hle base i hi hout =>
    rw [previous?, if_pos hle, h _ (Nat.le_refl _)]
    simp only [hi]
    exact if_neg hout
  | case3 start hle hnone hfirst =>
    rw [previous?, if_pos hle, h _ (Nat.le_refl _)]
    simp only [hnone]
    exact if_pos hfirst
  | case4 start hle base hnone hlater ih =>
    rw [previous?, if_pos hle, h _ (Nat.le_refl _)]
    simp only [hnone, if_neg hlater]
    refine ih fun j hj => h j (Nat.le_trans hj (Nat.div_le_div_right ?_))
    have := Nat.div_mul_le_self start Word.width
    omega
  | case5 start hlt => rw [previous?, if_neg hlt]

end Words

namespace Domain

/-! ### Queries -/

section Agreement

variable {d : Domain} {s t : Store Datum} (h : ∀ c, d.Owns c → t.get? c = s.get? c)

include h

theorem isInstantiated_congr : d.isInstantiated t = d.isInstantiated s := by
  rw [isInstantiated, isInstantiated, lb_congr h, ub_congr h]

theorem value?_congr : d.value? t = d.value? s := by rw [value?, value?, isInstantiated_congr h, lb_congr h]

section Row

variable {m : Members} (hm : d.members = some m)

include hm

theorem row_congr_of_check {i : Nat} (hi : m.check i = .ok ()) :
    ∀ j, j ≤ i / Word.width → m.row t j = m.row s j := by
  intro j hj
  rw [Members.check] at hi
  split at hi
  · exact row_congr h hm (by omega)
  · cases hi

theorem members_next?_congr (start limit : Nat) : m.next? t start limit = m.next? s start limit := by
  rw [Members.next?, Members.next?]
  split
  · rfl
  · cases hc : m.check limit with
    | error fault => rfl
    | ok u => simp only [ok_bind, Words.next?_congr (row_congr_of_check h hm hc)]

theorem members_previous?_congr (start limit : Nat) : m.previous? t start limit = m.previous? s start limit := by
  rw [Members.previous?, Members.previous?]
  split
  · rfl
  · cases hc : m.check start with
    | error fault => rfl
    | ok u => simp only [ok_bind, Words.previous?_congr (row_congr_of_check h hm hc)]

theorem members_count_congr (start limit : Nat) : m.count t start limit = m.count s start limit := by
  rw [Members.count, Members.count]
  split
  · rfl
  · cases hc : m.check limit with
    | error fault => rfl
    | ok u =>
      have hrow := row_congr_of_check h hm hc
      have hcount : Words.count (m.row t) start limit = Words.count (m.row s) start limit := by
        refine Words.count_congr fun k _ hk => ?_
        rw [Words.has, Words.has, hrow _ (Nat.div_le_div_right hk)]
      simp only [ok_bind, hcount]

end Row

theorem next?_congr (v : Int) : d.next? t v = d.next? s v := by
  rw [next?, next?, lb_congr h, ub_congr h]
  cases hm : d.members with
  | none => rfl
  | some m => simp only [members_next?_congr h hm]

theorem previous?_congr (v : Int) : d.previous? t v = d.previous? s v := by
  rw [previous?, previous?, lb_congr h, ub_congr h]
  cases hm : d.members with
  | none => rfl
  | some m => simp only [members_previous?_congr h hm]

theorem nextFrom?_congr (v : Int) : d.nextFrom? t v = d.nextFrom? s v := by
  rw [nextFrom?, nextFrom?, contains_congr h, next?_congr h]

theorem previousFrom?_congr (v : Int) : d.previousFrom? t v = d.previousFrom? s v := by
  rw [previousFrom?, previousFrom?, contains_congr h, previous?_congr h]

theorem valuesFrom_congr (v : Int) (found : Array Int) (fuel : Nat) :
    d.valuesFrom t v found fuel = d.valuesFrom s v found fuel := by
  induction fuel generalizing v found with
  | zero => rfl
  | succ fuel ih => simp only [valuesFrom, next?_congr h, ih]

theorem values_congr : d.values t = d.values s := by
  rw [values, values, lb_congr h, ub_congr h, valuesFrom_congr h]

theorem meets_congr (low high : Int) : d.meets t low high = d.meets s low high := by
  simp only [meets, lb_congr h, ub_congr h, nextFrom?_congr h]

end Agreement

/-! ### Mutations -/

/-- Related stores agree on the cells of the domain, and writes to these keep the relation. -/
structure Shares (d : Domain) (R : Store Datum → Store Datum → Prop) : Prop where
  get : ∀ s t, R s t → ∀ c, d.Owns c → t.get? c = s.get? c
  set : ∀ s t c v, R s t → d.Owns c → R (s.set c v) (t.set c v)

/-- The same came of a mutation, in related stores. -/
def Updated (R : Store Datum → Store Datum → Prop) (r r' : Update × Store Datum) : Prop := r'.1 = r.1 ∧ R r.2 r'.2

namespace Shares

variable {d : Domain} {R : Store Datum → Store Datum → Prop} {s t : Store Datum} (hd : d.Shares R) (h : R s t)

include hd h

theorem boundKind (kind : EventKind) : d.boundKind t kind = d.boundKind s kind := by
  rw [Domain.boundKind, Domain.boundKind, isInstantiated_congr (hd.get s t h)]

/-- The number of values is changed and then a cell of the domain is written. -/
theorem add {c : Nat} (hc : d.Owns c) (δ : Int) :
    Matches (fun r r' => R r.2 r'.2) (s.add c δ) (t.add c δ) := by
  rw [Store.add, Store.add, Store.int, Store.int, hd.get s t h c hc]
  split
  · exact .error
  · exact .ok (hd.set s t c _ h hc)

theorem atLeast (v : Int) : Matches (Updated R) (d.atLeast s v) (d.atLeast t v) := by
  have hget := hd.get s t h
  rw [Domain.atLeast, Domain.atLeast, lb_congr hget, ub_congr hget]
  split
  · exact .ok ⟨rfl, h⟩
  split
  · exact .ok ⟨rfl, h⟩
  split
  · have hset := hd.set s t _ (.int v) h (.inl rfl)
    exact .ok ⟨by rw [hd.boundKind hset], hset⟩
  · rename_i m hm
    rw [nextFrom?_congr hget]
    refine .ask fun w => ?_
    cases w with
    | none => exact .ok ⟨rfl, h⟩
    | some w =>
      simp only [members_count_congr hget hm]
      refine .ask fun i => .ask fun j => .ask fun k => .ask fun removed => .bind (hd.add h (owns_size hm) _) ?_
      rintro ⟨x, s'⟩ ⟨y, t'⟩ hadd
      have hset := hd.set s' t' _ (.int w) hadd (.inl rfl)
      exact .ok ⟨by rw [hd.boundKind hset], hset⟩

theorem atMost (v : Int) : Matches (Updated R) (d.atMost s v) (d.atMost t v) := by
  have hget := hd.get s t h
  rw [Domain.atMost, Domain.atMost, lb_congr hget, ub_congr hget]
  split
  · exact .ok ⟨rfl, h⟩
  split
  · exact .ok ⟨rfl, h⟩
  split
  · have hset := hd.set s t _ (.int v) h (.inr (.inl rfl))
    exact .ok ⟨by rw [hd.boundKind hset], hset⟩
  · rename_i m hm
    rw [previousFrom?_congr hget]
    refine .ask fun w => ?_
    cases w with
    | none => exact .ok ⟨rfl, h⟩
    | some w =>
      simp only [members_count_congr hget hm]
      refine .ask fun i => .ask fun j => .ask fun removed => .bind (hd.add h (owns_size hm) _) ?_
      rintro ⟨x, s'⟩ ⟨y, t'⟩ hadd
      have hset := hd.set s' t' _ (.int w) hadd (.inr (.inl rfl))
      exact .ok ⟨by rw [hd.boundKind hset], hset⟩

theorem within (low high : Int) : Matches (Updated R) (d.within s low high) (d.within t low high) := by
  rw [Domain.within, Domain.within, meets_congr (hd.get s t h)]
  refine .ask fun b => ?_
  split
  · refine .bind (hd.atLeast h low) ?_
    rintro ⟨u, s'⟩ ⟨u', t'⟩ ⟨heq, h'⟩
    obtain rfl : u' = u := heq
    cases u' with
    | emptied => exact .ok ⟨rfl, h'⟩
    | unchanged | changed _ =>
      refine .bind (hd.atMost h' high) ?_
      rintro ⟨u, s'⟩ ⟨u', t'⟩ ⟨heq, h'⟩
      obtain rfl : u' = u := heq
      cases u' <;> exact .ok ⟨rfl, h'⟩
  · exact .ok ⟨rfl, h⟩

theorem remove (v : Int) : Matches (Updated R) (d.remove s v) (d.remove t v) := by
  have hget := hd.get s t h
  simp only [Domain.remove, contains_congr hget, lb_congr hget, ub_congr hget]
  refine .ask fun b => ?_
  split
  · split
    · exact .ok ⟨rfl, h⟩
    split
    · exact .ask fun w => hd.atLeast h w
    split
    · exact .ask fun w => hd.atMost h w
    split
    · exact .ok ⟨rfl, h⟩
    · rename_i m hm
      refine .ask fun i => ?_
      cases hcheck : m.check i with
      | error fault => exact .error
      | ok u =>
        have hlt : i / Word.width < m.words.length := by
          rw [Members.check] at hcheck
          split at hcheck
          · assumption
          · cases hcheck
        have howns : d.Owns (m.words.cell (i / Word.width)) := .inr (.inr ⟨m, hm, .inr ⟨_, hlt, rfl⟩⟩)
        simp only [ok_bind, row_congr hget hm hlt]
        refine .bind (hd.add (hd.set s t _ _ h howns) (owns_size hm) _) ?_
        rintro ⟨x, s'⟩ ⟨y, t'⟩ hadd
        exact .ok ⟨rfl, hadd⟩
  · exact .ok ⟨rfl, h⟩

theorem removeUpTo (v high : Int) (sofar : Update) (fuel : Nat) :
    Matches (Updated R) (d.removeUpTo s v high sofar fuel) (d.removeUpTo t v high sofar fuel) := by
  induction fuel generalizing s t v sofar with
  | zero => exact .error
  | succ fuel ih =>
    rw [Domain.removeUpTo, Domain.removeUpTo, next?_congr (hd.get s t h)]
    refine .ask fun w => ?_
    cases w with
    | none => exact .ok ⟨rfl, h⟩
    | some w =>
      dsimp only
      split
      · refine .bind (hd.remove h w) ?_
        rintro ⟨u, s'⟩ ⟨u', t'⟩ ⟨heq, h'⟩
        obtain rfl : u' = u := heq
        cases u' with
        | emptied => exact .ok ⟨rfl, h'⟩
        | unchanged | changed _ => exact ih h' w _
      · exact .ok ⟨rfl, h⟩

theorem removeRange (low high : Int) : Matches (Updated R) (d.removeRange s low high) (d.removeRange t low high) := by
  have hget := hd.get s t h
  simp only [Domain.removeRange, lb_congr hget, ub_congr hget]
  split
  · exact .ok ⟨rfl, h⟩
  split
  · split
    · exact .ok ⟨rfl, h⟩
    · exact .ask fun w => hd.atLeast h w
  split
  · exact .ask fun w => hd.atMost h w
  split
  · exact .ask fun w => hd.removeUpTo h w high _ _
  · exact .ok ⟨rfl, h⟩

theorem assign (v : Int) : Matches (Updated R) (d.assign s v) (d.assign t v) := by
  have hget := hd.get s t h
  rw [Domain.assign, Domain.assign, contains_congr hget, isInstantiated_congr hget]
  refine .ask fun b => ?_
  split
  · split
    · exact .ok ⟨rfl, h⟩
    · have hset := hd.set _ _ _ (.int v) (hd.set s t _ (.int v) h (.inl rfl)) (.inr (.inl rfl))
      dsimp only
      split
      · exact .ok ⟨rfl, hset⟩
      · rename_i m hm
        exact .ok ⟨rfl, hd.set _ _ _ _ hset (owns_size hm)⟩
  · exact .ok ⟨rfl, h⟩

/-- **A mutation does the same in related stores.** -/
theorem apply (μ : Mutation) : Matches (Updated R) (d.apply s μ) (d.apply t μ) := by
  cases μ with
  | atLeast v => exact hd.atLeast h v
  | atMost v => exact hd.atMost h v
  | within low high => exact hd.within h low high
  | remove v => exact hd.remove h v
  | removeRange low high => exact hd.removeRange h low high
  | assign v => exact hd.assign h v

end Shares

end Domain

end FiniteDomain
