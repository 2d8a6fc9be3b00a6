import FiniteDomain.Constraint.Nogood
import FiniteDomain.Proofs.Propagation.Filter

/-!
# Nogoods filter soundly

* `Literal.truth_spec`, `standing_spec`: what is known of the literals;
* `filter_spec`: a run keeps all solutions, and decides the nogood where its variables are fixed;
* `entailed_spec`: what is reported as violated is.
-/

namespace FiniteDomain

open FiniteDomain.Filter

theorem Literal.truth_spec {l : Literal} {m : Model} (hw : m.WellFormed) (hx : m.owns l.var = true) :
    ∃ r, l.truth m = .ok r ∧ (∀ b, r = some b → ∀ a, m.Allows a → (l.Holds a ↔ b = true)) ∧
      (r = none → ¬m.Fixed l.var) := by
  obtain ⟨r, hr, hsome, hnone⟩ := hw.value?_spec hx
  obtain ⟨b, hb, hbi⟩ := hw.contains_spec hx l.value
  simp only [truth, hr, hb, ok_bind]
  by_cases hv : r = some l.value
  · refine ⟨some l.equal, by simp [hv], ?_, fun hc => by cases hc⟩
    intro b' hb' a ha
    cases hb'
    have heq := ((hsome _ hv).2 _).mp (ha _ hx)
    cases hl : l.equal <;> simp [Holds, hl, heq]
  · cases b with
    | false =>
      refine ⟨some !l.equal, by simp [hv], ?_, fun hc => by cases hc⟩
      intro b' hb' a ha
      cases hb'
      have hne : a l.var ≠ l.value := by
        intro heq
        exact Bool.false_ne_true (hbi.mpr (heq ▸ ha _ hx))
      cases hl : l.equal <;> simp [Holds, hl, hne]
    | true =>
      refine ⟨none, by simp [hv], (fun b hc => by cases hc), ?_⟩
      intro _ hf
      cases r with
      | none => exact hnone rfl hf
      | some v => exact hv (congrArg some (((hsome v rfl).2 _).mp (hbi.mp rfl)).symm)

/-- What falsifies a literal keeps the values for which it is false. -/
theorem Literal.falsify_keeps_iff (l : Literal) (a : Assignment) : l.falsify.Keeps (a l.var) ↔ ¬l.Holds a := by
  cases hl : l.equal <;> simp [falsify, Holds, hl, Mutation.Keeps]

namespace Nogood

variable {c : Nogood}

/-- What the standing of some literals says of them. -/
def Standing.Tells (m : Model) (literals : List Literal) : Standing → Prop
  | satisfied => ∃ l ∈ literals, ∀ a, m.Allows a → ¬l.Holds a
  | waiting unsettled => (∀ l ∈ unsettled, l ∈ literals ∧ ¬m.Fixed l.var) ∧
      ∀ l ∈ literals, l ∈ unsettled ∨ ∀ a, m.Allows a → l.Holds a

theorem standing_spec {m : Model} (hw : m.WellFormed) {literals : List Literal}
    (hx : ∀ l ∈ literals, m.owns l.var = true) :
    ∃ st, standing m literals = .ok st ∧ st.Tells m literals := by
  induction literals with
  | nil => exact ⟨.waiting [], rfl, by simp, by simp⟩
  | cons l rest ih =>
    obtain ⟨st, hst, htells⟩ := ih fun l' hl' => hx l' (List.mem_cons_of_mem l hl')
    obtain ⟨r, hr, hsome, hnone⟩ := Literal.truth_spec hw (hx l List.mem_cons_self)
    simp only [standing, hr, ok_bind]
    cases r with
    | none =>
      simp only [hst, ok_bind]
      cases st with
      | satisfied =>
        obtain ⟨l', hl', hn⟩ := htells
        exact ⟨_, rfl, l', List.mem_cons_of_mem l hl', hn⟩
      | waiting unsettled =>
        obtain ⟨h1, h2⟩ := htells
        refine ⟨_, rfl, ?_, ?_⟩
        · intro l' hl'
          rcases List.mem_cons.mp hl' with rfl | hl'
          · exact ⟨List.mem_cons_self, hnone rfl⟩
          · exact ⟨List.mem_cons_of_mem l (h1 l' hl').1, (h1 l' hl').2⟩
        · intro l' hl'
          rcases List.mem_cons.mp hl' with rfl | hl'
          · exact .inl List.mem_cons_self
          · exact (h2 l' hl').imp (List.mem_cons_of_mem l) id
    | some b =>
      cases b with
      | false => exact ⟨.satisfied, rfl, l, List.mem_cons_self, fun a ha hl => by simpa using (hsome _ rfl a ha).mp hl⟩
      | true =>
        refine ⟨st, hst, ?_⟩
        cases st with
        | satisfied =>
          obtain ⟨l', hl', hn⟩ := htells
          exact ⟨l', List.mem_cons_of_mem l hl', hn⟩
        | waiting unsettled =>
          obtain ⟨h1, h2⟩ := htells
          refine ⟨fun l' hl' => ⟨List.mem_cons_of_mem l (h1 l' hl').1, (h1 l' hl').2⟩, ?_⟩
          intro l' hl'
          rcases List.mem_cons.mp hl' with rfl | hl'
          · exact .inr fun a ha => (hsome _ rfl a ha).mpr rfl
          · exact h2 l' hl'

theorem mem_scope {l : Literal} (hl : l ∈ c.literals) : l.var ∈ (c.literals.map Literal.var).toArray := by
  simp only [List.mem_toArray, List.mem_map]
  exact ⟨l, hl, rfl⟩

theorem filter_spec [Tolerance] {start : Scene} (hw : start.model.WellFormed)
    (hx : ∀ l ∈ c.literals, start.model.owns l.var = true) (hp : start.passive = false) :
    Leads c.Holds start c.filter start fun _ s => Decided c.Holds (c.literals.map Literal.var).toArray s := by
  have hin : Within c.Holds start start := .refl hw
  obtain ⟨st, hst, htells⟩ := standing_spec hw hx
  refine Leads.ask_bind hin hst ?_
  cases st with
  | satisfied =>
    obtain ⟨l, hl, hn⟩ := htells
    exact Leads.setPassive hin (.of_entailed fun a ha hall => hn a ha (hall l hl))
  | waiting unsettled =>
    obtain ⟨hopen, hclosed⟩ := htells
    match unsettled, hopen, hclosed with
    | [], hopen, hclosed =>
      refine Leads.fail hin fun a ha hallows => ha ?_
      exact fun l hl => (hclosed l hl).resolve_left List.not_mem_nil a hallows
    | [l], hopen, hclosed =>
      have hl := (hopen l List.mem_cons_self).1
      have hother : ∀ a, start.model.Allows a → (c.Holds a ↔ ¬l.Holds a) := by
        intro a ha
        refine not_congr ⟨fun hall => hall l hl, ?_⟩
        intro hal l' hl'
        rcases hclosed l' hl' with hmem | hh
        · rw [List.mem_singleton] at hmem
          exact hmem ▸ hal
        · exact hh a ha
      refine Leads.narrow_bind hin (hx l hl) ?_ ?_
      · exact fun a ha hallows => (l.falsify_keeps_iff a).mpr ((hother a hallows).mp ha)
      · intro changed m' hn hin'
        obtain ⟨r, hr, hsome, -⟩ := Literal.truth_spec hin'.wellFormed (hin'.owns (hx l hl))
        refine Leads.ask_bind hin' hr ?_
        by_cases hfalse : r = some false
        · rw [if_pos hfalse]
          refine Leads.setPassive hin' (.of_entailed ?_)
          intro a ha
          rw [hother a (hn.narrows.allows ha), hsome _ hfalse a ha]
          exact Bool.false_ne_true
        · rw [if_neg hfalse]
          refine Leads.pure hin' ⟨?_, fun hp' => by rw [hp] at hp'; cases hp'⟩
          intro hf a ha
          rw [hother a (hn.narrows.allows ha), ← l.falsify_keeps_iff a]
          exact hn.keeps_of_fixed hw (hf _ (mem_scope hl)) (ha _ (hin'.owns (hx l hl)))
    | l :: l' :: rest, hopen, hclosed =>
      have hl := hopen l List.mem_cons_self
      refine Leads.pure hin ⟨?_, fun hp' => by rw [hp] at hp'; cases hp'⟩
      exact fun hf => absurd (hf _ (mem_scope hl.1)) hl.2

theorem entailed_spec {m : Model} (hw : m.WellFormed) (hx : ∀ l ∈ c.literals, m.owns l.var = true) :
    ∃ r, c.entailed m = .ok r ∧ (r = .never → ∀ a, m.Allows a → ¬c.Holds a) := by
  obtain ⟨st, hst, htells⟩ := standing_spec hw hx
  simp only [entailed, hst, ok_bind]
  match st, htells with
  | .satisfied, _ => exact ⟨.always, rfl, fun h => by cases h⟩
  | .waiting [], htells =>
    exact ⟨.never, rfl, fun _ a ha hn => hn fun l hl => (htells.2 l hl).resolve_left List.not_mem_nil a ha⟩
  | .waiting (l :: rest), _ => exact ⟨.undecided, rfl, fun h => by cases h⟩

end Nogood

end FiniteDomain
