import FiniteDomain.Propagation.Agenda

/-!
# Queues of an agenda

The waiting list of an agenda is one list, kept in the order of the classes. Read class by class it is a family
of queues: who is put on the agenda goes to the end of the queue of its own class, and who comes next stands in
front of the first queue that is not empty.

* `queue_enqueue`, `queue_erase`;
* `next?_spec`;
* `Ordered.eq_of_inLine`: where all wait in the order of their numbers, an agenda is what is on it.
-/

namespace FiniteDomain

namespace Agenda

variable {a b : Agenda} {π : Priority} {id : PropId}

/-- Nobody waits behind one of a later class. -/
def Ordered (a : Agenda) : Prop := a.entries.Pairwise fun d e => d.1.rank ≤ e.1.rank

theorem mem_queue : id ∈ a.queue π ↔ (π, id) ∈ a.entries := by
  rw [queue, List.mem_map]
  constructor
  · rintro ⟨⟨σ, i⟩, he, rfl⟩
    obtain ⟨hmem, hσ⟩ := List.mem_filter.mp he
    cases of_decide_eq_true hσ
    exact hmem
  · exact fun h => ⟨(π, id), List.mem_filter.mpr ⟨h, decide_eq_true rfl⟩, rfl⟩

theorem isEmpty_iff : a.isEmpty = true ↔ ∀ σ i, i ∉ a.queue σ := by
  rw [isEmpty, List.isEmpty_iff]
  constructor
  · intro h σ i hi
    rw [mem_queue, h] at hi
    cases hi
  · intro h
    refine List.eq_nil_iff_forall_not_mem.mpr fun e he => h e.1 e.2 (mem_queue.mpr he)

/-- A new entry parts the waiting list into those who run no later and those who run later. -/
theorem insertEntry_split (entry : Priority × PropId) {l : List (Priority × PropId)}
    (h : l.Pairwise fun d e => d.1.rank ≤ e.1.rank) :
    ∃ l1 l2, l = l1 ++ l2 ∧ insertEntry entry l = l1 ++ entry :: l2 ∧
      (∀ e ∈ l1, e.1.rank ≤ entry.1.rank) ∧ ∀ e ∈ l2, entry.1.rank < e.1.rank := by
  induction l with
  | nil => exact ⟨[], [], rfl, rfl, by simp, by simp⟩
  | cons e rest ih =>
    obtain ⟨hfirst, hrest⟩ := List.pairwise_cons.mp h
    rw [insertEntry]
    by_cases hle : e.1.rank ≤ entry.1.rank
    · obtain ⟨l1, l2, hsplit, hinsert, h1, h2⟩ := ih hrest
      refine ⟨e :: l1, l2, by rw [hsplit, List.cons_append], by rw [if_pos hle, hinsert, List.cons_append], ?_, h2⟩
      intro d hd
      rcases List.mem_cons.mp hd with rfl | hd
      · exact hle
      · exact h1 d hd
    · refine ⟨[], e :: rest, rfl, by rw [if_neg hle, List.nil_append], by simp, ?_⟩
      intro d hd
      rcases List.mem_cons.mp hd with rfl | hd
      · omega
      · have := hfirst d hd
        omega

theorem Ordered.enqueue (h : a.Ordered) (π : Priority) (id : PropId) : (a.enqueue π id).Ordered := by
  obtain ⟨l1, l2, hsplit, hinsert, h1, h2⟩ := insertEntry_split (π, id) h
  rw [Ordered, hsplit, List.pairwise_append] at h
  obtain ⟨hl1, hl2, hacross⟩ := h
  rw [Ordered, Agenda.enqueue, hinsert, List.pairwise_append, List.pairwise_cons]
  refine ⟨hl1, ⟨fun e he => Nat.le_of_lt (h2 e he), hl2⟩, ?_⟩
  intro d hd e he
  rcases List.mem_cons.mp he with rfl | he
  · exact h1 d hd
  · exact hacross d hd e he

theorem Ordered.erase (h : a.Ordered) (id : PropId) : (a.erase id).Ordered := h.filter _

/-- Who is put on the agenda goes to the end of the queue of its class. -/
theorem queue_enqueue (h : a.Ordered) (π : Priority) (id : PropId) (σ : Priority) :
    (a.enqueue π id).queue σ = if σ = π then a.queue σ ++ [id] else a.queue σ := by
  obtain ⟨l1, l2, hsplit, hinsert, -, h2⟩ := insertEntry_split (π, id) h
  rw [queue, enqueue, hinsert, queue, hsplit, List.filter_append, List.filter_append, List.filter_cons]
  by_cases hσ : σ = π
  · subst hσ
    have hnone : l2.filter (fun e => e.1 = σ) = [] := by
      refine List.filter_eq_nil_iff.mpr fun e he heq => ?_
      have hlt : σ.rank < e.1.rank := h2 e he
      rw [of_decide_eq_true heq] at hlt
      exact Nat.lt_irrefl _ hlt
    simp [hnone]
  · have hne : ¬π = σ := fun heq => hσ heq.symm
    simp [hσ, hne]

theorem queue_erase (a : Agenda) (id : PropId) (σ : Priority) :
    (a.erase id).queue σ = (a.queue σ).filter fun i => i ≠ id := by
  rw [queue, queue, erase, List.filter_filter, List.filter_map, List.filter_filter]
  congr 1
  exact List.filter_congr fun e _ => Bool.and_comm _ _

theorem next?_eq_none : a.next? = none ↔ a.isEmpty = true := by
  obtain ⟨entries⟩ := a
  cases entries <;> simp [next?, isEmpty]

/-- Who comes next stands in front of the queue of its class, and nobody of an earlier class waits. -/
theorem next?_spec (h : a.Ordered) (hn : a.next? = some (id, b)) :
    b.Ordered ∧ ∃ π, a.queue π = id :: b.queue π ∧ (∀ σ, σ ≠ π → a.queue σ = b.queue σ) ∧
      ∀ σ, σ.rank < π.rank → a.queue σ = [] := by
  obtain ⟨entries⟩ := a
  cases entries with
  | nil => cases hn
  | cons e rest =>
    cases hn
    obtain ⟨hfirst, hrest⟩ := List.pairwise_cons.mp h
    refine ⟨hrest, e.1, ?_, ?_, ?_⟩
    · simp [queue]
    · intro σ hσ
      have hne : ¬e.1 = σ := fun heq => hσ heq.symm
      simp [queue, hne]
    · intro σ hσ
      refine List.eq_nil_iff_forall_not_mem.mpr fun i hi => ?_
      rcases List.mem_cons.mp (mem_queue.mp hi) with heq | hi
      · rw [← heq] at hσ
        exact Nat.lt_irrefl _ hσ
      · have := hfirst _ hi
        exact Nat.lt_irrefl _ (Nat.lt_of_lt_of_le hσ this)

/-! ### What an agenda is by its queues -/

theorem rank_inj {π σ : Priority} : π.rank = σ.rank ↔ π = σ := by cases π <;> cases σ <;> decide

theorem Ordered.eq_of_queue (ha : a.Ordered) (hb : b.Ordered) (h : ∀ π, a.queue π = b.queue π) : a = b := by
  obtain ⟨l⟩ := a
  obtain ⟨l'⟩ := b
  congr 1
  induction l generalizing l' with
  | nil =>
    refine (List.eq_nil_iff_forall_not_mem.mpr fun e he => ?_).symm
    have hmem : e.2 ∈ (Agenda.mk l').queue e.1 := mem_queue.mpr he
    rw [← h] at hmem
    exact absurd (mem_queue.mp hmem) List.not_mem_nil
  | cons e rest ih =>
    have hmem : (e.1, e.2) ∈ l' := mem_queue.mp (h e.1 ▸ mem_queue.mpr List.mem_cons_self)
    cases l' with
    | nil => exact absurd hmem List.not_mem_nil
    | cons e' rest' =>
      obtain ⟨hfirst, hrest⟩ := List.pairwise_cons.mp ha
      obtain ⟨hfirst', hrest'⟩ := List.pairwise_cons.mp hb
      have hmem' : (e'.1, e'.2) ∈ e :: rest := mem_queue.mp ((h e'.1).symm ▸ mem_queue.mpr List.mem_cons_self)
      -- in both lists the first has the least class, so it is the first of the queue of that class
      have hle : e'.1.rank ≤ e.1.rank := by
        rcases List.mem_cons.mp hmem with heq | hmem
        · exact Nat.le_of_eq (by rw [← heq])
        · exact hfirst' _ hmem
      have hge : e.1.rank ≤ e'.1.rank := by
        rcases List.mem_cons.mp hmem' with heq | hmem'
        · exact Nat.le_of_eq (by rw [← heq])
        · exact hfirst _ hmem'
      obtain ⟨π, id⟩ := e
      obtain ⟨π', id'⟩ := e'
      obtain rfl : π' = π := rank_inj.mp (Nat.le_antisymm hle hge)
      have hqueue : ∀ σ, (if σ = π' then [id] else []) ++ (Agenda.mk rest).queue σ =
          (if σ = π' then [id'] else []) ++ (Agenda.mk rest').queue σ := by
        intro σ
        have hσ := h σ
        by_cases heq : σ = π'
        · subst heq
          simpa [queue] using hσ
        · simpa [queue, heq, Ne.symm heq] using hσ
      have hhead := hqueue π'
      rw [if_pos rfl, if_pos rfl, List.singleton_append, List.singleton_append] at hhead
      obtain ⟨rfl, -⟩ := List.cons.inj hhead
      refine congrArg _ (ih hrest rest' hrest' fun σ => ?_)
      exact List.append_cancel_left (hqueue σ)

/-- All of a class wait in the order of their numbers. -/
def InLine (a : Agenda) : Prop := ∀ π, (a.queue π).Pairwise fun i j => i.index < j.index

theorem InLine.nodup (h : a.InLine) (π : Priority) : (a.queue π).Nodup := by
  refine (h π).imp fun {i j} hij heq => ?_
  rw [heq] at hij
  exact Nat.lt_irrefl _ hij

theorem InLine.enqueue (ha : a.Ordered) (h : a.InLine) (hlast : ∀ π, ∀ i ∈ a.queue π, i.index < id.index)
    (π : Priority) : (a.enqueue π id).InLine := by
  intro σ
  rw [queue_enqueue ha]
  split
  · refine List.pairwise_append.mpr ⟨h σ, List.pairwise_singleton _ _, fun i hi j hj => ?_⟩
    rw [List.mem_singleton.mp hj]
    exact hlast σ i hi
  · exact h σ

/-- One alone waits in line. -/
theorem InLine.of_length_le (h : a.entries.length ≤ 1) : a.InLine := by
  intro π
  have hle : (a.queue π).length ≤ 1 := by
    rw [queue, List.length_map]
    exact Nat.le_trans (List.length_filter_le _ _) h
  match hq : a.queue π with
  | [] => exact .nil
  | [i] => exact List.pairwise_singleton _ i
  | i :: j :: rest =>
    rw [hq] at hle
    simp at hle

theorem Ordered.eq_of_inLine (ha : a.Ordered) (hb : b.Ordered) (hla : a.InLine) (hlb : b.InLine)
    (h : ∀ π id, id ∈ a.queue π ↔ id ∈ b.queue π) : a = b := by
  refine ha.eq_of_queue hb fun π => ?_
  refine List.Perm.eq_of_pairwise (fun i j _ _ hij hji => ?_) (hla π) (hlb π) ?_
  · exact absurd (Nat.lt_trans hij hji) (Nat.lt_irrefl _)
  · exact (List.perm_ext_iff_of_nodup (hla.nodup π) (hlb.nodup π)).mpr (h π)

end Agenda

end FiniteDomain
