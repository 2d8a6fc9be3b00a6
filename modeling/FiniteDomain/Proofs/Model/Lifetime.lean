import FiniteDomain.Proofs.Domain.Extent
import FiniteDomain.Proofs.Domain.Lifetime
import FiniteDomain.Proofs.Model.Edits

/-!
# The lives of variables

Variables are made in any world, and narrowed, while worlds are opened, closed and committed.

* `History`: the models that come about so, with the birth of each variable;
* `History.lived`: what holds of every variable at every moment;
* `sound_of_history`: a variable can be relied on, unless it is enumerated and the world in which it was made was
  popped. An interval is then as it was made, and an enumerated variable has no value.
-/

namespace FiniteDomain

namespace Model

variable {m m' : Model}

/-! ### The values asked for -/

theorem size_interval (lb ub : Int) : (interval lb ub).size = (ub - lb + 1).toNat := by
  rw [interval, Array.size_map, Array.size_range]

theorem mem_interval {lb ub v : Int} : v ∈ interval lb ub ↔ lb ≤ v ∧ v ≤ ub := by
  simp only [interval, Array.mem_map, Array.mem_range]
  constructor
  · rintro ⟨i, hi, rfl⟩
    omega
  · intro hv
    exact ⟨(v - lb).toNat, by omega, by omega⟩

theorem increasing_interval {lb ub : Int} (hle : lb ≤ ub) (hlb : Value.Fits lb) (hub : Value.Fits ub) :
    Increasing (interval lb ub) := by
  refine ⟨by rw [size_interval]; omega, ?_, fun v hv => ?_⟩
  · rw [interval, Array.toList_map, Array.toList_range]
    exact List.pairwise_map.mpr (List.pairwise_lt_range.imp fun hlt => by omega)
  · have hv := mem_interval.mp hv
    simp only [Value.Fits] at *
    omega

/-- The repetitions in a list in which equal values stand together. -/
theorem eraseReps_loop_spec {a : Int} {l : List Int} (h : (a :: l).Pairwise (· ≤ ·)) (found : List Int) :
    ∃ ws, List.eraseRepsBy.loop (· == ·) a l found = found.reverse ++ ws ∧ ws.Pairwise (· < ·) ∧
      (∀ v, v ∈ ws ↔ v ∈ a :: l) ∧ ws.length ≤ l.length + 1 := by
  induction l generalizing a found with
  | nil => exact ⟨[a], by simp [List.eraseRepsBy.loop], List.pairwise_singleton _ _, fun v => Iff.rfl, Nat.le_refl _⟩
  | cons b l ih =>
    obtain ⟨hab, hl⟩ := List.pairwise_cons.mp h
    rw [List.eraseRepsBy.loop]
    split
    · rename_i heq
      have heq := eq_of_beq heq
      subst heq
      obtain ⟨ws, hws, hsorted, hmem, hlen⟩ := ih hl found
      exact ⟨ws, hws, hsorted, fun v => by simp [hmem], Nat.le_succ_of_le hlen⟩
    · rename_i hne
      obtain ⟨ws, hws, hsorted, hmem, hlen⟩ := ih hl (a :: found)
      refine ⟨a :: ws, by rw [hws]; simp, List.pairwise_cons.mpr ⟨fun v hv => ?_, hsorted⟩, fun v => ?_,
        Nat.succ_le_succ hlen⟩
      · have hlt : a < b := by
          have := hab b (List.mem_cons_self ..)
          have hne : a ≠ b := fun heq => by simp [heq] at hne
          omega
        rcases List.mem_cons.mp ((hmem v).mp hv) with rfl | hv
        · exact hlt
        · exact Int.lt_of_lt_of_le hlt ((List.pairwise_cons.mp hl).1 v hv)
      · simp only [List.mem_cons, hmem]

theorem sortedValues_spec (values : List Int) : (sortedValues values).toList.Pairwise (· < ·) ∧
    (∀ v, v ∈ sortedValues values ↔ v ∈ values) ∧ (sortedValues values).size ≤ values.length := by
  have hsorted : values.mergeSort.Pairwise (· ≤ ·) :=
    (List.pairwise_mergeSort (fun a b c hab hbc => by simp at *; omega) (fun a b => by simp; omega) values).imp
      fun h => by simpa using h
  have hmem : ∀ v, v ∈ values.mergeSort ↔ v ∈ values := fun v => List.mem_mergeSort
  have hlen : values.mergeSort.length = values.length := List.length_mergeSort values
  rw [sortedValues, List.eraseReps]
  cases hl : values.mergeSort with
  | nil =>
    rw [hl] at hmem
    exact ⟨.nil, fun v => by simpa [List.eraseRepsBy] using hmem v, Nat.zero_le _⟩
  | cons a l =>
    rw [hl] at hsorted hmem hlen
    obtain ⟨ws, hws, hws', hmem', hlen'⟩ := eraseReps_loop_spec hsorted []
    rw [List.eraseRepsBy, hws]
    rw [List.length_cons] at hlen
    refine ⟨hws', fun v => ?_, ?_⟩
    · rw [List.mem_toArray, List.reverse_nil, List.nil_append, hmem', hmem]
    · simpa using hlen ▸ hlen'

/-! ### Creations -/

/-- A variable is made, of the values in the set, and these can be stored. -/
inductive Creates (m : Model) : (Int → Prop) → Model → Prop
  | newBounded {name : String} {lb ub : Int} {x : VarId} {m' : Model} : Value.Fits lb → Value.Fits ub →
      m.newBounded name lb ub = .ok (x, m') → Creates m (fun v => lb ≤ v ∧ v ≤ ub) m'
  | newEnumerated {name : String} {lb ub : Int} {x : VarId} {m' : Model} : Value.Fits lb → Value.Fits ub →
      ub - lb < Value.greatest → m.newEnumerated name lb ub = .ok (x, m') →
      Creates m (fun v => lb ≤ v ∧ v ≤ ub) m'
  | newInteger {name : String} {lb ub : Int} {x : VarId} {m' : Model} : Value.Fits lb → Value.Fits ub →
      m.newInteger name lb ub = .ok (x, m') → Creates m (fun v => lb ≤ v ∧ v ≤ ub) m'
  | newOfValues {name : String} {values : List Int} {x : VarId} {m' : Model} : (∀ v ∈ values, Value.Fits v) →
      (values.length : Int) ≤ Value.greatest → m.newOfValues name values = .ok (x, m') →
      Creates m (· ∈ values) m'
  | newConstant {value : Int} : Value.Fits value →
      Creates m (fun v => value ≤ v ∧ v ≤ value) (m.newConstant value).2

theorem newBounded_made (hm : m.store.Linked) {name : String} {lb ub : Int} {x : VarId} (hlb : Value.Fits lb)
    (hub : Value.Fits ub) (h : m.newBounded name lb ub = .ok (x, m')) :
    ∃ name d t, m' = (m.append name d t).2 ∧ Domain.Made m.store (fun v => lb ≤ v ∧ v ≤ ub) d t := by
  rw [newBounded] at h
  split at h
  · cases h
  · cases h
    exact ⟨_, _, _, rfl, Domain.made_bounded hm (by omega) hlb hub⟩

theorem newEnumerated_made (hm : m.store.Linked) {name : String} {lb ub : Int} {x : VarId} (hlb : Value.Fits lb)
    (hub : Value.Fits ub) (hcount : ub - lb < Value.greatest) (h : m.newEnumerated name lb ub = .ok (x, m')) :
    ∃ name d t, m' = (m.append name d t).2 ∧ Domain.Made m.store (fun v => lb ≤ v ∧ v ≤ ub) d t := by
  rw [newEnumerated] at h
  split at h
  · cases h
  · cases h
    have hmade := Domain.made_enumerated hm (increasing_interval (by omega) hlb hub) (by rw [size_interval]; omega)
    simp only [mem_interval] at hmade
    exact ⟨_, _, _, rfl, hmade⟩

/-- **What a creation does.** -/
theorem Creates.made {values : Int → Prop} (h : Creates m values m') (hm : m.store.Linked) :
    ∃ name d t, m' = (m.append name d t).2 ∧ Domain.Made m.store values d t := by
  cases h with
  | newBounded hlb hub h => exact newBounded_made hm hlb hub h
  | newEnumerated hlb hub hcount h => exact newEnumerated_made hm hlb hub hcount h
  | newInteger hlb hub h =>
    rw [Model.newInteger] at h
    split at h
    · rename_i hshort
      refine newEnumerated_made hm hlb hub ?_ h
      simp only [Value.clamp, enumerationLimit, Value.least, Value.greatest] at *
      omega
    · exact newBounded_made hm hlb hub h
  | @newOfValues name values x m' hfits hcount h =>
    obtain ⟨hsorted, hmem, hsize⟩ := sortedValues_spec values
    rw [Model.newOfValues] at h
    dsimp only at h
    split at h
    · cases h
    · rename_i hempty
      cases h
      have hmade := Domain.made_enumerated hm
        ⟨Nat.pos_of_ne_zero fun hz => hempty (by simpa using hz), hsorted, fun v hv => hfits v ((hmem v).mp hv)⟩
        (by omega)
      simp only [hmem] at hmade
      exact ⟨_, _, _, rfl, hmade⟩
  | newConstant hfits => exact ⟨_, _, _, rfl, Domain.made_bounded hm (Int.le_refl _) hfits hfits⟩

/-- A list that is not empty makes a variable. -/
theorem exists_newOfValues (m : Model) (name : String) (values : List Int) (h : values ≠ []) :
    ∃ m', m.newOfValues name values = .ok (⟨m.vars.size⟩, m') ∧ m'.vars.size = m.vars.size + 1 := by
  obtain ⟨v, hv⟩ := List.exists_mem_of_ne_nil values h
  have hmem : v ∈ sortedValues values := ((sortedValues_spec values).2.1 v).mpr hv
  have hne : (sortedValues values).isEmpty = false :=
    Bool.eq_false_iff.mpr fun hempty => absurd (Array.isEmpty_iff.mp hempty ▸ hmem) (Array.not_mem_empty v)
  rw [newOfValues, hne]
  exact ⟨_, rfl, Array.size_push _⟩

/-! ### Histories -/

/-- The models that come about by creations, narrowings, and the opening, closing and committing of worlds, with
the birth of each variable. -/
inductive History : List Birth → Model → Prop
  | start (name : String) : History [] { name }
  | create {births : List Birth} {m m' : Model} {values : Int → Prop} : History births m → Creates m values m' →
      History (births ++ [⟨m.world, values, true⟩]) m'
  | apply {births : List Birth} {m m' : Model} {x : VarId} {μ : Mutation} {cause : Cause}
      {result : Except Contradiction Bool} : History births m → m.apply x μ cause = .ok (result, m') →
      History births m'
  | pushWorld {births : List Birth} {m : Model} : History births m → History births m.pushWorld
  | popWorld {births : List Birth} {m m' : Model} : History births m → m.popWorld = .ok m' →
      History (births.map (·.popped m'.world)) m'
  | popUntil {births : List Birth} {m m' : Model} {target : Nat} : History births m → m.popUntil target = .ok m' →
      History (births.map (·.popped m'.world)) m'
  | commitWorld {births : List Birth} {m m' : Model} : History births m → m.commitWorld = .ok m' →
      History (births.map (·.merged m'.world)) m'

/-- The cells are separate, and every domain has the life that began with its birth. -/
structure Lived (births : List Birth) (m : Model) : Prop where
  separate : m.Separate
  count : births.length = m.vars.size
  lives : ∀ (i : Nat) (b : Birth) (y : Variable), births[i]? = some b → m.vars[i]? = some y →
    Domain.Lives b y.domain m.store

namespace Lived

variable {births : List Birth}

theorem create (h : Lived births m) {values : Int → Prop} (hc : Creates m values m') :
    Lived (births ++ [⟨m.world, values, true⟩]) m' := by
  obtain ⟨name, d, t, rfl, hmade⟩ := hc.made h.separate.linked
  refine ⟨(h.separate.create (P := fun _ => False) hmade.fresh name).separate, ?_, fun i b y hb hy => ?_⟩
  · simp [append, h.count]
  · simp only [append, Array.getElem?_push, ← h.count] at hy
    split at hy
    · rename_i hi
      cases hy
      rw [hi, List.getElem?_concat_length] at hb
      cases hb
      exact hmade.lives
    · rename_i hi
      have hlt : i < births.length := by
        have := (Array.getElem?_eq_some_iff.mp hy).1
        have := h.count
        omega
      rw [List.getElem?_append_left hlt] at hb
      exact (h.lives i b y hb hy).parallel (hmade.spares y.domain fun c hc => h.separate.housed c ⟨i, y, hy, hc⟩)

/-- A step that leaves the variables alone. -/
theorem keep (h : Lived births m) {store : Store Datum} (events : Array Event) (hs : store.Linked)
    (hsize : m.store.slots.size ≤ store.slots.size) (f : Birth → Birth)
    (hlives : ∀ (i : Nat) (b : Birth) (y : Variable), births[i]? = some b → m.vars[i]? = some y →
      Domain.Lives (f b) y.domain store) : Lived (births.map f) { m with store, events } := by
  refine ⟨⟨hs, fun c hc => Nat.lt_of_lt_of_le (h.separate.housed c hc) hsize, h.separate.apart⟩,
    by rw [List.length_map]; exact h.count, fun i b y hb hy => ?_⟩
  rw [List.getElem?_map, Option.map_eq_some_iff] at hb
  obtain ⟨b, hb, rfl⟩ := hb
  exact hlives i b y hb hy

theorem apply (h : Lived births m) {x : VarId} {μ : Mutation} {cause : Cause} {result : Except Contradiction Bool}
    (ha : m.apply x μ cause = .ok (result, m')) : Lived births m' := by
  have hseparate := (apply_edited (P := fun _ => False) h.separate ha).separate
  obtain ⟨z, u, t, events, hz, ht, rfl⟩ := exists_of_apply ha
  have hwrites := Domain.confined_apply z.domain m.store μ u t ht
  refine ⟨hseparate, h.count, fun i b y hb hy => ?_⟩
  have hlives := h.lives i b y hb hy
  by_cases hi : i = x.index
  · subst hi
    cases hz.symm.trans hy
    refine hlives.own h.separate.linked hwrites fun hkept => ?_
    have hwell := hlives.sound 0 m.store rfl (hkept.imp_right fun hk => ⟨hk, hlives.born⟩)
    obtain ⟨r, hr, hout⟩ := Domain.WellFormed.apply_spec hwell μ
    cases ht.symm.trans hr
    cases hout with
    | emptied _ => exact hwell
    | unchanged _ => exact hwell
    | changed _ hwell' _ _ => exact hwell'
  · exact hlives.parallel (.writes h.separate.linked hwrites fun c hc hzc =>
      hi (h.separate.apart i x.index y z c hy hz hc hzc))

end Lived

theorem lived_empty (name : String) : Lived [] { name } := by
  refine ⟨⟨Store.linked_empty, fun c hc => ?_, fun i j y z c hy => ?_⟩, rfl, fun i b y hb => ?_⟩
  · obtain ⟨i, y, hy, -⟩ := hc
    simp at hy
  · simp at hy
  · simp at hb

/-- **The lives of variables** go on through every history. -/
theorem History.lived {births : List Birth} (h : History births m) : Lived births m := by
  induction h with
  | start name => exact lived_empty name
  | create _ hc ih => exact ih.create hc
  | apply _ ha ih => exact ih.apply ha
  | @pushWorld births m _ ih =>
    have hl := ih.separate.linked
    rw [← List.map_id births]
    exact ih.keep _ hl.push (Nat.le_refl _) id fun i b y hb hy => (ih.lives i b y hb hy).push hl
  | popWorld _ hp ih =>
    obtain ⟨t, ht, hp⟩ := bind_eq_ok.mp hp
    cases hp
    have hl := ih.separate.linked
    exact ih.keep _ (hl.of_pop ht) (Nat.le_of_eq (hl.size_of_pop ht).symm) _ fun i b y hb hy =>
      (ih.lives i b y hb hy).pop ht
  | popUntil _ hp ih =>
    obtain ⟨t, ht, hp⟩ := bind_eq_ok.mp hp
    cases hp
    have hl := ih.separate.linked
    obtain ⟨-, ht⟩ := Store.popUntil_eq_ok.mp ht
    obtain ⟨hl', -, hsize⟩ := hl.popMany_spec ht
    exact ih.keep _ hl' (Nat.le_of_eq hsize.symm) _ fun i b y hb hy => (ih.lives i b y hb hy).popMany hl ht
  | commitWorld _ hc ih =>
    obtain ⟨t, ht, hc⟩ := bind_eq_ok.mp hc
    cases hc
    have hl := ih.separate.linked
    exact ih.keep _ (hl.of_commit ht) (Nat.le_of_eq (Store.size_slots_commit ht).symm) _ fun i b y hb hy =>
      (ih.lives i b y hb hy).commit hl ht

/-! ### What can be relied on -/

/-- The bounds are values and in order, the values can be listed, and the size of an enumerated variable is their
number. -/
structure Sound (m : Model) (x : VarId) : Prop where
  bounds : ∃ lb ub, m.lb x = .ok lb ∧ m.ub x = .ok ub ∧ lb ≤ ub ∧ m.Has x lb ∧ m.Has x ub
  values : ∃ vs, m.values x = .ok vs ∧ vs.toList.Pairwise (· < ·) ∧ (∀ v, v ∈ vs ↔ m.Has x v) ∧
    (m.isEnumerated x = .ok true → m.size x = .ok vs.size)

theorem sound_of_wellFormed {x : VarId} {y : Variable} (hy : m.vars[x.index]? = some y)
    (h : y.domain.WellFormed m.store) : m.Sound x := by
  refine ⟨⟨_, _, lb_eq hy, ub_eq hy, h.lb_le_ub, (has_iff hy).mpr h.has_lb, (has_iff hy).mpr h.has_ub⟩, ?_⟩
  obtain ⟨vs, hvs, hsorted, hmem⟩ := h.values_spec
  have hlen := h.size_eq_length hsorted fun v => (Array.mem_toList_iff).trans (hmem v)
  refine ⟨vs, ?_, hsorted, fun v => (hmem v).trans (has_iff hy).symm, fun henum => ?_⟩
  · rw [values, domain_eq_ok hy, ok_bind, hvs]
  · rw [isEnumerated_eq hy] at henum
    rw [if_pos (Except.ok.inj henum)] at hlen
    rw [size_eq hy, hlen, Array.length_toList]

/-- A return to a world below. -/
theorem exists_of_return (h : m.popWorld = .ok m' ∨ ∃ target, m.popUntil target = .ok m') :
    ∃ n t, m.store.popMany n = .ok t ∧ m' = { m with store := t } := by
  rcases h with h | ⟨target, h⟩
  · obtain ⟨t, ht, h⟩ := bind_eq_ok.mp h
    cases h
    exact ⟨1, t, by rw [Store.popMany_succ, ht]; rfl, rfl⟩
  · obtain ⟨t, ht, h⟩ := bind_eq_ok.mp h
    cases h
    exact ⟨_, t, (Store.popUntil_eq_ok.mp ht).2, rfl⟩

theorem History.exists_lives {births : List Birth} (h : History births m) {x : VarId} {b : Birth}
    (hb : births[x.index]? = some b) : ∃ y, m.vars[x.index]? = some y ∧ Domain.Lives b y.domain m.store := by
  have hlived := h.lived
  have hlt := hlived.count ▸ (List.getElem?_eq_some_iff.mp hb).1
  have hy : m.vars[x.index]? = some m.vars[x.index] := Array.getElem?_eq_getElem hlt
  exact ⟨_, hy, hlived.lives x.index b _ hb hy⟩

/-- While no world was popped in which a variable was made, all domains are well-formed. -/
theorem History.wellFormed {births : List Birth} (h : History births m) (hk : ∀ b ∈ births, b.kept = true) :
    m.WellFormed := by
  have hlived := h.lived
  refine hlived.separate.wellFormed fun i y hy => ?_
  have hlt : i < births.length := hlived.count ▸ (Array.getElem?_eq_some_iff.mp hy).1
  have hlives := hlived.lives i births[i] y (List.getElem?_eq_getElem hlt) hy
  exact hlives.sound 0 m.store rfl (.inr ⟨hk _ (List.getElem_mem hlt), hlives.born⟩)

theorem members_eq_none {x : VarId} {y : Variable} (hy : m.vars[x.index]? = some y)
    (h : m.isEnumerated x = .ok false) : y.domain.members = none := by
  rw [isEnumerated_eq hy] at h
  exact Option.isNone_iff_eq_none.mp (Option.isSome_eq_false_iff.mp (Except.ok.inj h))

theorem members_ne_none {x : VarId} {y : Variable} (hy : m.vars[x.index]? = some y)
    (h : m.isEnumerated x = .ok true) : y.domain.members ≠ none := by
  rw [isEnumerated_eq hy] at h
  exact Option.isSome_iff_ne_none.mp (Except.ok.inj h)

/-- In every state a variable can be relied on, unless it is enumerated and the world of its creation was popped.
By the pop of that world an interval becomes what it was made as, and an enumerated variable loses its values. -/
theorem sound_of_history {births : List Birth} (h : History births m) {x : VarId} {b : Birth}
    (hb : births[x.index]? = some b) :
    (m.isEnumerated x = .ok false ∨ b.kept = true → m.Sound x) ∧
      ∀ m', m.popWorld = .ok m' ∨ (∃ target, m.popUntil target = .ok m') → m'.world < b.world →
        (m.isEnumerated x = .ok false → m'.Sound x ∧ ∀ v, m'.Has x v ↔ b.values v) ∧
          (m.isEnumerated x = .ok true → ∀ v, ¬m'.Has x v) := by
  obtain ⟨y, hy, hlives⟩ := h.exists_lives hb
  refine ⟨fun hkept => sound_of_wellFormed hy (hlives.sound 0 m.store rfl (hkept.imp (members_eq_none hy) fun hk =>
    ⟨hk, hlives.born⟩)), fun m' hp hlt => ?_⟩
  obtain ⟨n, t, ht, rfl⟩ := exists_of_return hp
  have hbefore := hlives.before n t ht hlt
  have hy' : ({ m with store := t } : Model).vars[x.index]? = some y := hy
  refine ⟨fun he => ?_, fun he v hv => ?_⟩
  · have hnone := members_eq_none hy he
    refine ⟨sound_of_wellFormed hy' (hlives.sound n t ht (.inl hnone)), fun v => ?_⟩
    exact (has_iff hy').trans ((hbefore v).trans ⟨And.right, fun hv => ⟨hnone, hv⟩⟩)
  · exact members_ne_none hy he ((hbefore v).mp ((has_iff hy').mp hv)).1

/-- An interval that was made in a world above the initial one is there again after that world is popped. -/
theorem sound_of_nested : ∃ births m x, History births m ∧
    births[x.index]? = some ⟨1, fun v => 0 ≤ v ∧ v ≤ 2, true⟩ ∧ m.Sound x ∧
      ∃ m', m.popWorld = .ok m' ∧ m'.Sound x ∧ ∀ v, m'.Has x v ↔ 0 ≤ v ∧ v ≤ 2 := by
  obtain ⟨m, hm, hworld, henum⟩ : ∃ m, (Model.pushWorld { name := "nested" }).newBounded "x" 0 2 = .ok (⟨0⟩, m) ∧
      m.store.world = 1 ∧ m.isEnumerated ⟨0⟩ = .ok false := ⟨_, rfl, rfl, rfl⟩
  have hhistory : History [⟨1, fun v => 0 ≤ v ∧ v ≤ 2, true⟩] m :=
    .create (.pushWorld (.start "nested")) (.newBounded (by decide) (by decide) hm)
  obtain ⟨t, ht, -, hlt, -⟩ := hhistory.lived.separate.linked.exists_pop (by omega)
  have hpop : m.popWorld = .ok { m with store := t } := by
    rw [popWorld, ht]
    rfl
  obtain ⟨hsound, hbelow⟩ := sound_of_history hhistory (x := ⟨0⟩) rfl
  refine ⟨_, m, ⟨0⟩, hhistory, rfl, hsound (.inl henum), _, hpop, ?_⟩
  exact (hbelow _ (.inl hpop) (show t.world < 1 by omega)).1 henum

/-- The bounds of an enumerated variable are no values of it any more once the world of its creation was popped. -/
theorem unsound_of_nested : ∃ births m x, History births m ∧
    births[x.index]? = some ⟨0, fun v => 0 ≤ v ∧ v ≤ 2, false⟩ ∧ m.lb x = .ok 0 ∧ m.contains x 0 = .ok false ∧
      ¬m.Sound x := by
  obtain ⟨m, hm⟩ : ∃ m, (Model.pushWorld { name := "nested" }).newEnumerated "x" 0 2 = .ok (⟨0⟩, m) := ⟨_, rfl⟩
  have heval : ((Model.pushWorld { name := "nested" }).newEnumerated "x" 0 2).toOption.bind (fun r =>
      r.2.popWorld.toOption.map fun m' => (m'.world, (m'.lb ⟨0⟩).toOption, (m'.contains ⟨0⟩ 0).toOption)) =
        some (0, some 0, some false) := by
    decide +kernel
  rw [hm] at heval
  obtain ⟨m', hpop, heval⟩ := Option.map_eq_some_iff.mp heval
  simp only [Prod.mk.injEq, toOption_eq_some] at heval hpop
  obtain ⟨hworld, hlb, hcontains⟩ := heval
  have hhistory : History [⟨1, fun v => 0 ≤ v ∧ v ≤ 2, true⟩] m :=
    .create (.pushWorld (.start "nested")) (.newEnumerated (by decide) (by decide) (by decide) hm)
  refine ⟨_, m', ⟨0⟩, hhistory.popWorld hpop, by rw [hworld]; rfl, hlb, hcontains, fun hsound => ?_⟩
  obtain ⟨lb, -, hlb', -, -, hhas, -⟩ := hsound.bounds
  cases hlb.symm.trans hlb'
  cases hcontains.symm.trans hhas

end Model

end FiniteDomain
