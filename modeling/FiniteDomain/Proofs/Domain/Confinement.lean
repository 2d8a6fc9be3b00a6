import FiniteDomain.Domain.Mutation
import FiniteDomain.Proofs.Domain.WellFormed

/-!
# Mutations write to their own domain only

This holds of any domain in any store, be it well-formed or not, so that cells of other use are safe from
mutations of domains.
-/

namespace FiniteDomain

/-- If the computation succeeds, the store came about by writes to cells of the set. -/
def Confined (P : Nat → Prop) (s : Store Datum) (r : Except Fault (Update × Store Datum)) : Prop :=
  ∀ u t, r = .ok (u, t) → Store.Writes P s t

namespace Confined

variable {α : Type} {P : Nat → Prop} {s t : Store Datum}

theorem done {u : Update} (h : Store.Writes P s t) : Confined P s (.ok (u, t)) := by
  rintro _ _ ⟨⟩
  exact h

theorem fail {fault : Fault} : Confined P s (.error fault) := by
  intro u t h
  cases h

theorem ask {a : Except Fault α} {f : α → Except Fault (Update × Store Datum)}
    (h : ∀ x, a = .ok x → Confined P s (f x)) : Confined P s (a >>= f) := by
  cases a with
  | ok x => exact h x rfl
  | error fault => exact fail

theorem andThen {a : Except Fault (Update × Store Datum)} {f : Update × Store Datum → Except Fault (Update × Store Datum)}
    (ha : Confined P s a) (hf : ∀ u t, Confined P t (f (u, t))) : Confined P s (a >>= f) := by
  refine ask ?_
  rintro ⟨u, t⟩ h u' t' h'
  exact (ha u t h).trans (hf u t u' t' h')

end Confined

namespace Store

theorem add_eq_ok {s t : Store Datum} {cell : Nat} {d v : Int} (h : s.add cell d = .ok (v, t)) :
    t = s.set cell (.int v) := by
  simp only [add] at h
  split at h
  · cases h
  · cases h
    rfl

end Store

namespace Domain

variable (d : Domain) (s : Store Datum)

open Confined

theorem owns_size {d : Domain} {m : Members} (hm : d.members = some m) : d.Owns m.size :=
  .inr (.inr ⟨m, hm, .inl rfl⟩)

theorem confined_atLeast (v : Int) : Confined d.Owns s (d.atLeast s v) := by
  rw [atLeast]
  split
  · exact done .refl
  · split
    · exact done .refl
    · split
      · exact done (.one (.inl rfl) _)
      · rename_i m hm
        refine ask fun w _ => ?_
        cases w with
        | none => exact done .refl
        | some w =>
          refine ask fun i _ => ask fun j _ => ask fun k _ => ask fun removed _ => ask ?_
          rintro ⟨x, t⟩ hadd
          rw [Store.add_eq_ok hadd]
          exact done (.set _ _ (.one (owns_size hm) _) (.inl rfl))

theorem confined_atMost (v : Int) : Confined d.Owns s (d.atMost s v) := by
  rw [atMost]
  split
  · exact done .refl
  · split
    · exact done .refl
    · split
      · exact done (.one (.inr (.inl rfl)) _)
      · rename_i m hm
        refine ask fun w _ => ?_
        cases w with
        | none => exact done .refl
        | some w =>
          refine ask fun i _ => ask fun j _ => ask fun removed _ => ask ?_
          rintro ⟨x, t⟩ hadd
          rw [Store.add_eq_ok hadd]
          exact done (.set _ _ (.one (owns_size hm) _) (.inr (.inl rfl)))

theorem confined_within (low high : Int) : Confined d.Owns s (d.within s low high) := by
  rw [within]
  refine ask fun b _ => ?_
  split
  · refine andThen (confined_atLeast d s low) fun u t => ?_
    cases u with
    | emptied => exact done .refl
    | unchanged | changed _ =>
      refine andThen (confined_atMost d t high) fun u t' => ?_
      cases u with
      | emptied => exact done .refl
      | unchanged | changed _ => exact done .refl
  · exact done .refl

theorem confined_remove (v : Int) : Confined d.Owns s (d.remove s v) := by
  rw [remove]
  refine ask fun b _ => ?_
  by_cases hb : b = true
  · rw [if_pos hb]
    by_cases heq : d.lb s = d.ub s
    · simp only [if_pos heq]
      exact done .refl
    · simp only [if_neg heq]
      by_cases hlow : v = d.lb s
      · simp only [if_pos hlow]
        exact ask fun w _ => confined_atLeast d s w
      · simp only [if_neg hlow]
        by_cases hupp : v = d.ub s
        · simp only [if_pos hupp]
          exact ask fun w _ => confined_atMost d s w
        · simp only [if_neg hupp]
          split
          · exact done .refl
          · rename_i m hm
            refine ask fun i _ => ask fun u hu => ask ?_
            rintro ⟨x, t⟩ hadd
            rw [Store.add_eq_ok hadd]
            -- the check of the place is what keeps the write within the row of words
            have hlt : i / Word.width < m.words.length := by
              rw [Members.check] at hu
              split at hu
              · assumption
              · cases hu
            exact done (.set _ _ (.one (.inr (.inr ⟨m, hm, .inr ⟨_, hlt, rfl⟩⟩)) _) (owns_size hm))
  · rw [if_neg hb]
    exact done .refl

theorem confined_removeUpTo (v high : Int) (sofar : Update) (fuel : Nat) :
    Confined d.Owns s (d.removeUpTo s v high sofar fuel) := by
  induction fuel generalizing s v sofar with
  | zero => exact fail
  | succ fuel ih =>
    rw [removeUpTo]
    refine ask fun w _ => ?_
    cases w with
    | none => exact done .refl
    | some w =>
      dsimp only
      split
      · refine andThen (confined_remove d s w) fun u t => ?_
        cases u with
        | emptied => exact done .refl
        | unchanged | changed _ => exact ih t w _
      · exact done .refl

theorem confined_removeRange (low high : Int) : Confined d.Owns s (d.removeRange s low high) := by
  rw [removeRange]
  split
  · exact done .refl
  · split
    · split
      · exact done .refl
      · exact ask fun w _ => confined_atLeast d s w
    · split
      · exact ask fun w _ => confined_atMost d s w
      · split
        · exact ask fun w _ => confined_removeUpTo d s w high _ _
        · exact done .refl

theorem confined_assign (v : Int) : Confined d.Owns s (d.assign s v) := by
  rw [assign]
  refine ask fun b _ => ?_
  have hbounds : Store.Writes d.Owns s ((s.set d.lower (.int v)).set d.upper (.int v)) :=
    .set _ _ (.one (.inl rfl) _) (.inr (.inl rfl))
  split
  · split
    · exact done .refl
    · dsimp only
      split
      · exact done hbounds
      · rename_i m hm
        exact done (.set _ _ hbounds (owns_size hm))
  · exact done .refl

/-- **A mutation of a domain writes to the cells of the domain only.** -/
theorem confined_apply (μ : Mutation) : Confined d.Owns s (d.apply s μ) := by
  cases μ with
  | atLeast v => exact confined_atLeast d s v
  | atMost v => exact confined_atMost d s v
  | within low high => exact confined_within d s low high
  | remove v => exact confined_remove d s v
  | removeRange low high => exact confined_removeRange d s low high
  | assign v => exact confined_assign d s v

end Domain

end FiniteDomain
