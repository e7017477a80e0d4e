import Qpack.Sent
import Mathlib.Data.List.Perm.Subperm
import Mathlib.Data.List.Nodup

/-!
# Queues after a change

* `acknowledge?_eq_some`, `acknowledge?_eq_none_iff` : an acknowledgement means the first section that needs an
  insertion, if there is one;
* `queue_put_self`, `queue_put_of_ne`, `sections_put_perm` : a replaced queue, the others, and the
  sections of all streams together;
* `Streams.Distinct` : each stream has one queue;
* `Streams.references` : the indices that the sections of all streams refer to;
* `put_comm`, `settle_put`, `settle_settle` : changes of queues in another order;
* `settled_add`, `length_le_countP` : units of the budget that are given back or kept, and the streams
  that hold one.
-/

namespace Qpack

/-! ## One queue -/

theorem SentQueue.acknowledge?_eq_some {q rest : SentQueue} {s : SentSection}
    (h : q.acknowledge? = some (s, rest)) :
    ∃ skipped, q = skipped ++ s :: rest ∧ (∀ x ∈ skipped, x.requiredInsertCount = 0) ∧
      0 < s.requiredInsertCount := by
  induction q with
  | nil => cases h
  | cons x q ih =>
    rw [acknowledge?] at h
    split at h
    · next hx =>
      cases h
      exact ⟨[], rfl, by simp, hx⟩
    · next hx =>
      obtain ⟨skipped, rfl, hs, hpos⟩ := ih h
      refine ⟨x :: skipped, rfl, fun y hy => ?_, hpos⟩
      rcases List.mem_cons.1 hy with rfl | hy
      · omega
      · exact hs y hy

/-- An acknowledgement means nothing where no section needs an insertion. -/
theorem SentQueue.acknowledge?_eq_none_iff {q : SentQueue} :
    q.acknowledge? = none ↔ ∀ s ∈ q, s.requiredInsertCount = 0 := by
  induction q with
  | nil => simp [acknowledge?]
  | cons s q ih =>
    rw [acknowledge?, List.forall_mem_cons]
    split
    · next hpos => simp [Nat.ne_of_gt hpos]
    · next hzero => rw [ih, and_iff_right (Nat.eq_zero_of_not_pos hzero)]

theorem SentSection.unblock_settle (known : Nat) (s : SentSection) : (s.settle known).unblock = s.unblock := by
  rw [settle]
  split <;> rfl

theorem SentSection.requiredInsertCount_settle (known : Nat) (s : SentSection) :
    (s.settle known).requiredInsertCount = s.requiredInsertCount := by
  unfold settle
  split <;> rfl

theorem SentSection.references_settle (known : Nat) (s : SentSection) :
    (s.settle known).references = s.references := by
  unfold settle
  split <;> rfl

theorem SentSection.settle_settle (known known' : Nat) (s : SentSection) :
    (s.settle known).settle known' = s.settle (max known known') := by
  unfold settle
  by_cases h : s.requiredInsertCount ≤ known
  · have hmax : s.requiredInsertCount ≤ max known known' := by omega
    rw [if_pos h, if_pos hmax]
    split <;> rfl
  · have hmax : s.requiredInsertCount ≤ max known known' ↔ s.requiredInsertCount ≤ known' := by omega
    rw [if_neg h]
    simp only [hmax]

theorem SentQueue.acknowledge?_map_settle (known : Nat) (q : SentQueue) :
    SentQueue.acknowledge? (q.map (SentSection.settle known)) =
      q.acknowledge?.map fun (s, rest) => (s.settle known, rest.map (SentSection.settle known)) := by
  induction q with
  | nil => rfl
  | cons s q ih =>
    rw [List.map_cons, acknowledge?, acknowledge?, s.requiredInsertCount_settle]
    split
    · rfl
    · exact ih

namespace Streams

/-! ## The queue of a stream -/

theorem queue_put_of_ne (streams : Streams) {id other : Nat} (h : id ≠ other) (q : SentQueue) :
    (streams.put id q).queue other = streams.queue other := by
  induction streams with
  | nil =>
    rw [put]
    split
    · rfl
    · exact if_neg h
  | cons head rest ih =>
    obtain ⟨k, old⟩ := head
    rw [put]
    split
    · next hk =>
      subst hk
      split
      · rw [queue, if_neg h]
      · rw [queue, queue, if_neg h, if_neg h]
    · rw [queue, queue, ih]

theorem queue_put_of_ne_nil (streams : Streams) (id : Nat) {q : SentQueue} (hq : q ≠ []) :
    (streams.put id q).queue id = q := by
  have he : ¬ q.isEmpty = true := by simpa using hq
  induction streams with
  | nil => rw [put, if_neg he, queue, if_pos rfl]
  | cons head rest ih =>
    obtain ⟨k, old⟩ := head
    rw [put]
    split
    · next hk => rw [queue, if_pos hk]
    · next hk => rw [queue, if_neg hk, ih]

theorem put_put (streams : Streams) (id : Nat) {q : SentQueue} (hq : q ≠ []) (q' : SentQueue) :
    (streams.put id q).put id q' = streams.put id q' := by
  have he : ¬ q.isEmpty = true := by simpa using hq
  induction streams with
  | nil =>
    rw [show put [] id q = [(id, q)] from if_neg he]
    exact if_pos rfl
  | cons head rest ih =>
    obtain ⟨k, old⟩ := head
    by_cases hk : k = id
    · rw [put, if_pos hk, if_neg he, put, if_pos hk, put, if_pos hk]
    · rw [put, if_neg hk, put, if_neg hk, put, if_neg hk, ih]

/-- Where both streams have sections, it does not matter which queue is replaced first. -/
theorem put_comm (streams : Streams) {i j : Nat} (hij : i ≠ j) (hi : streams.queue i ≠ [])
    (hj : streams.queue j ≠ []) (p q : SentQueue) :
    (streams.put i p).put j q = (streams.put j q).put i p := by
  induction streams with
  | nil => exact absurd rfl hi
  | cons head rest ih =>
    obtain ⟨k, old⟩ := head
    by_cases hki : k = i
    · have hkj : k ≠ j := hki ▸ hij
      by_cases hp : p.isEmpty = true
      · simp only [put, hki, hp, if_true, if_neg hij]
      · simp only [put, hki, hp, if_true, if_neg hij, Bool.false_eq_true, if_false]
    · by_cases hkj : k = j
      · by_cases hq : q.isEmpty = true
        · simp only [put, hkj, hq, if_true, if_neg hij.symm]
        · simp only [put, hkj, hq, if_true, if_neg hij.symm, Bool.false_eq_true, if_false]
      · rw [queue, if_neg hki] at hi
        rw [queue, if_neg hkj] at hj
        simp only [put, if_neg hki, if_neg hkj, ih hi hj]

/-! ## One queue for each stream -/

def Distinct (streams : Streams) : Prop := (streams.map (·.1)).Nodup

theorem queue_eq_nil_of_not_mem {streams : Streams} {id : Nat} (h : id ∉ streams.map (·.1)) :
    streams.queue id = [] := by
  induction streams with
  | nil => rfl
  | cons head rest ih =>
    obtain ⟨k, old⟩ := head
    rw [List.map_cons, List.mem_cons, not_or] at h
    rw [queue, if_neg (Ne.symm h.1), ih h.2]

theorem mem_ids_put {streams : Streams} {id k : Nat} {q : SentQueue}
    (h : k ∈ (streams.put id q).map (·.1)) : k = id ∨ k ∈ streams.map (·.1) := by
  induction streams with
  | nil =>
    rw [put] at h
    split at h
    · cases h
    · exact Or.inl (List.mem_singleton.1 h)
  | cons head rest ih =>
    obtain ⟨j, old⟩ := head
    rw [put] at h
    split at h
    · split at h
      · exact Or.inr (List.mem_cons_of_mem j h)
      · exact Or.inr h
    · rcases List.mem_cons.1 h with rfl | h
      · exact Or.inr List.mem_cons_self
      · exact (ih h).imp_right (List.mem_cons_of_mem j)

theorem Distinct.put {streams : Streams} (h : Distinct streams) (id : Nat) (q : SentQueue) :
    Distinct (streams.put id q) := by
  induction streams with
  | nil =>
    rw [Streams.put]
    split
    · exact h
    · exact List.nodup_singleton id
  | cons head rest ih =>
    obtain ⟨k, old⟩ := head
    have hk := (List.nodup_cons.1 h).1
    have hr := (List.nodup_cons.1 h).2
    rw [Streams.put]
    split
    · split
      · exact hr
      · exact h
    · next hne =>
      refine List.nodup_cons.2 ⟨fun hm => ?_, ih hr⟩
      rcases mem_ids_put hm with h' | h'
      exacts [hne h', hk h']

theorem Distinct.queue_put_self {streams : Streams} (h : Distinct streams) (id : Nat) (q : SentQueue) :
    (streams.put id q).queue id = q := by
  by_cases hq : q = []
  · subst hq
    induction streams with
    | nil => rfl
    | cons head rest ih =>
      obtain ⟨k, old⟩ := head
      rw [Streams.put]
      split
      · next hk =>
        subst hk
        exact queue_eq_nil_of_not_mem (List.nodup_cons.1 h).1
      · next hk => rw [queue, if_neg hk, ih (List.nodup_cons.1 h).2]
  · exact queue_put_of_ne_nil streams id hq

/-! ## The sections of all streams -/

theorem sections_put_perm (streams : Streams) (id : Nat) (q : SentQueue) :
    ((streams.put id q).sections ++ streams.queue id).Perm (streams.sections ++ q) := by
  induction streams with
  | nil =>
    rw [put, queue, List.append_nil]
    split
    · next hq =>
      rw [List.isEmpty_iff.1 hq]
      exact List.Perm.refl _
    · simp [sections]
  | cons head rest ih =>
    obtain ⟨k, old⟩ := head
    rw [put, queue]
    by_cases hk : k = id
    · rw [if_pos hk, if_pos hk]
      split
      · next hq =>
        rw [List.isEmpty_iff.1 hq, List.append_nil]
        exact List.perm_append_comm
      · show ((q ++ sections rest) ++ old).Perm ((old ++ sections rest) ++ q)
        rw [List.append_assoc, List.append_assoc]
        exact (List.perm_append_comm.append_left q).trans (List.perm_append_comm.trans (by
          rw [List.append_assoc]))
    · rw [if_neg hk, if_neg hk]
      show ((old ++ sections (put rest id q)) ++ queue rest id).Perm ((old ++ sections rest) ++ q)
      rw [List.append_assoc, List.append_assoc]
      exact ih.append_left old

theorem queue_subset_sections (streams : Streams) (id : Nat) : streams.queue id ⊆ streams.sections := by
  induction streams with
  | nil => exact List.nil_subset _
  | cons head rest ih =>
    obtain ⟨k, old⟩ := head
    intro s hs
    rw [queue] at hs
    show s ∈ old ++ sections rest
    split at hs
    · exact List.mem_append_left _ hs
    · exact List.mem_append_right _ (ih hs)

/-- Where each stream has one queue, the sections are those of the queues. -/
theorem Distinct.mem_sections_iff {streams : Streams} (h : Distinct streams) {s : SentSection} :
    s ∈ streams.sections ↔ ∃ id, s ∈ streams.queue id := by
  refine ⟨fun hs => ?_, fun ⟨id, hs⟩ => queue_subset_sections streams id hs⟩
  induction streams with
  | nil => cases hs
  | cons head rest ih =>
    obtain ⟨k, old⟩ := head
    have hk := (List.nodup_cons.1 h).1
    rcases List.mem_append.1 (show s ∈ old ++ sections rest from hs) with hs | hs
    · exact ⟨k, by rwa [queue, if_pos rfl]⟩
    · obtain ⟨id, hid⟩ := ih (List.nodup_cons.1 h).2 hs
      have hne : k ≠ id := by
        rintro rfl
        rw [queue_eq_nil_of_not_mem hk] at hid
        cases hid
      exact ⟨id, by rwa [queue, if_neg hne]⟩

/-- The indices that the sections of all streams refer to, each as often as they do. -/
def references (streams : Streams) : List Nat := streams.sections.flatMap (·.references)

theorem references_put_perm (streams : Streams) (id : Nat) (q : SentQueue) :
    ((streams.put id q).references ++ (streams.queue id).flatMap (·.references)).Perm
      (streams.references ++ q.flatMap (·.references)) := by
  rw [references, references, ← List.flatMap_append, ← List.flatMap_append]
  exact (sections_put_perm streams id q).flatMap_right _

/-! ## Units given back -/

theorem queue_settle (known : Nat) (streams : Streams) (id : Nat) :
    (streams.settle known).queue id = (streams.queue id).map (SentSection.settle known) := by
  induction streams with
  | nil => rfl
  | cons head rest ih =>
    obtain ⟨k, old⟩ := head
    rw [queue]
    show queue ((k, old.map (SentSection.settle known)) :: settle known rest) id = _
    rw [queue]
    split
    · rfl
    · exact ih

theorem settle_cons (known id : Nat) (q : SentQueue) (streams : Streams) :
    settle known ((id, q) :: streams) = (id, q.map (SentSection.settle known)) :: settle known streams := rfl

theorem settle_put (known : Nat) (streams : Streams) (id : Nat) (q : SentQueue) :
    (streams.put id q).settle known = (streams.settle known).put id (q.map (SentSection.settle known)) := by
  have hempty : (q.map (SentSection.settle known)).isEmpty = q.isEmpty := List.isEmpty_map
  induction streams with
  | nil =>
    rw [put, show settle known [] = [] from rfl, put, hempty]
    split <;> rfl
  | cons head rest ih =>
    obtain ⟨k, old⟩ := head
    rw [put, settle_cons, put, hempty, ← ih]
    split
    · split <;> rfl
    · rfl

theorem settle_settle (known known' : Nat) (streams : Streams) :
    (streams.settle known).settle known' = streams.settle (max known known') := by
  unfold settle
  rw [List.map_map]
  apply List.map_congr_left
  rintro ⟨id, q⟩ _
  simp only [Function.comp_apply, List.map_map]
  congr 2
  funext s
  exact s.settle_settle known known'

/-- Where no unit is to be given back, nothing changes. -/
theorem settle_eq_self {known : Nat} {streams : Streams}
    (h : ∀ s ∈ streams.sections, s.requiredInsertCount ≤ known → s.blocked = false) :
    streams.settle known = streams := by
  have hself : ∀ s ∈ streams.sections, s.settle known = s := by
    intro s hs
    unfold SentSection.settle
    split
    · next hle =>
      obtain ⟨required, blocked, references⟩ := s
      obtain rfl : blocked = false := h _ hs hle
      rfl
    · rfl
  unfold settle
  refine (List.map_congr_left fun x hx => ?_).trans (List.map_id streams)
  have hq : x.2.map (SentSection.settle known) = x.2.map id :=
    List.map_congr_left fun s hs => hself s (List.mem_flatMap.2 ⟨x, hx, hs⟩)
  rw [List.map_id] at hq
  exact Prod.ext rfl hq

theorem sections_settle (known : Nat) (streams : Streams) :
    (streams.settle known).sections = streams.sections.map (SentSection.settle known) := by
  rw [sections, sections, settle, List.flatMap_map, List.map_flatMap]

theorem Distinct.settle {streams : Streams} (h : Distinct streams) (known : Nat) :
    Distinct (streams.settle known) := by
  rw [Distinct, Streams.settle, List.map_map]
  exact h

theorem references_settle (known : Nat) (streams : Streams) :
    (streams.settle known).references = streams.references := by
  rw [references, references, sections_settle, List.flatMap_map]
  congr 1
  funext s
  exact s.references_settle known

/-- A unit is given back or kept. -/
theorem countP_settles_add (known : Nat) (l : List SentSection) :
    l.countP (SentSection.settles known) + (l.map (SentSection.settle known)).countP SentSection.blocked =
      l.countP SentSection.blocked := by
  induction l with
  | nil => rfl
  | cons s l ih =>
    simp only [List.map_cons, List.countP_cons, ← ih, SentSection.settles, SentSection.settle]
    by_cases hs : s.requiredInsertCount ≤ known
    · simp only [hs, decide_true, Bool.true_and, if_true, SentSection.unblock, Bool.false_eq_true, if_false]
      omega
    · simp only [hs, decide_false, Bool.false_and, Bool.false_eq_true, if_false]
      omega

theorem settled_add (known : Nat) (streams : Streams) :
    streams.settled known + (streams.settle known).sections.countP SentSection.blocked =
      streams.sections.countP SentSection.blocked := by
  rw [settled, sections_settle]
  exact countP_settles_add known streams.sections

/-- Of the units of all sections, a queue that is replaced takes its own along. -/
theorem countP_put_add (streams : Streams) (id : Nat) (q : SentQueue) :
    (streams.put id q).sections.countP SentSection.blocked + (streams.queue id).countP SentSection.blocked =
      streams.sections.countP SentSection.blocked + q.countP SentSection.blocked := by
  have hp := (sections_put_perm streams id q).countP_eq SentSection.blocked
  rwa [List.countP_append, List.countP_append] at hp

theorem mem_of_mem_queue {streams : Streams} {id : Nat} {s : SentSection} (h : s ∈ streams.queue id) :
    (id, streams.queue id) ∈ streams := by
  induction streams with
  | nil => cases h
  | cons head rest ih =>
    obtain ⟨k, old⟩ := head
    rw [queue] at h ⊢
    split at h
    · next hk =>
      subst hk
      rw [if_pos rfl]
      exact List.mem_cons_self
    · next hk =>
      rw [if_neg hk]
      exact List.mem_cons_of_mem _ (ih h)

theorem length_filter_le_countP (p : SentSection → Bool) (streams : Streams) :
    (streams.filter fun x => x.2.any p).length ≤ streams.sections.countP p := by
  induction streams with
  | nil => exact Nat.le_refl 0
  | cons head rest ih =>
    show _ ≤ (head.2 ++ sections rest).countP p
    rw [List.countP_append, List.filter_cons]
    split
    · next hany =>
      have hpos : 0 < head.2.countP p := List.countP_pos_iff.2 (List.any_eq_true.1 hany)
      rw [List.length_cons]
      omega
    · omega

/-- Streams that hold a section of a kind are not more than the sections of that kind. -/
theorem length_le_countP (p : SentSection → Bool) (streams : Streams) {ids : List Nat} (hn : ids.Nodup)
    (h : ∀ id ∈ ids, ∃ s ∈ streams.queue id, p s = true) : ids.length ≤ streams.sections.countP p := by
  have hsub : ids ⊆ (streams.filter fun x => x.2.any p).map (·.1) := by
    intro id hid
    obtain ⟨s, hs, hp⟩ := h id hid
    refine List.mem_map.2 ⟨(id, streams.queue id), List.mem_filter.2 ⟨mem_of_mem_queue hs, ?_⟩, rfl⟩
    exact List.any_eq_true.2 ⟨s, hs, hp⟩
  have hle := (List.subperm_of_subset hn hsub).length_le
  rw [List.length_map] at hle
  exact Nat.le_trans hle (length_filter_le_countP p streams)

end Streams
end Qpack
