import Qpack.Proofs.Sent.Streams

/-!
# The history of a queue

Sections leave a queue in the order in which they came. Those that need no insertion leave with the next one
that does.

* `Left came back q` : of the sections that came, `back` were given back, and `q` are left;
* `Left.perform`, `Left.run` : so it is after every operation;
* `perform_acknowledge_eq`, `Left.acknowledge_eq` : which section an acknowledgement means;
* `KeepsOrder`, `keepsOrder` : what holds after any operations.
-/

namespace Qpack
open QueueOperation (added)

/-- The peer acknowledges none of the sections if none of them needs an insertion. -/
theorem filter_needsInsertion_eq_nil_iff {l : List SentSection} :
    l.filter SentSection.needsInsertion = [] ↔ ∀ s ∈ l, s.requiredInsertCount = 0 := by
  simp [List.filter_eq_nil_iff, SentSection.needsInsertion]

theorem added_cons (op : QueueOperation) (ops : List QueueOperation) :
    added (op :: ops) = op.added?.toList ++ added ops := by
  unfold added
  rcases h : op.added? with _ | s
  · rw [List.filterMap_cons_none h]
    rfl
  · rw [List.filterMap_cons_some h]
    rfl

namespace SentQueue
variable {came back : List SentSection} {q : SentQueue}

/-- Of the sections that `came`, those up to the last of `back` are gone, and `q` are left. Of those that are
gone, `back` are the ones that need an insertion. -/
def Left (came back : List SentSection) (q : SentQueue) : Prop :=
  ∃ gone, came = gone ++ q ∧ gone.filter SentSection.needsInsertion = back ∧ gone.getLast? = back.getLast?

/-! ## What an operation leaves -/

theorem Left.add (h : Left came back q) (s : SentSection) : Left (came ++ [s]) back (q.add s) := by
  obtain ⟨gone, hcame, hback, hlast⟩ := h
  refine ⟨gone, ?_, hback, hlast⟩
  rw [hcame, SentQueue.add, List.append_assoc]

/-- The section that an acknowledgement means goes, and with it those before it. -/
theorem Left.acknowledge (h : Left came back q) {s : SentSection} {rest : SentQueue}
    (hack : q.acknowledge? = some (s, rest)) : Left came (back ++ [s]) rest := by
  obtain ⟨gone, hcame, hback, -⟩ := h
  obtain ⟨skipped, rfl, hskipped, hpos⟩ := acknowledge?_eq_some hack
  have hneeds : s.needsInsertion = true := decide_eq_true hpos
  refine ⟨gone ++ skipped ++ [s], ?_, ?_, ?_⟩
  · rw [hcame, List.append_assoc, List.append_assoc]
    rfl
  · rw [List.filter_append, List.filter_append, hback, filter_needsInsertion_eq_nil_iff.2 hskipped,
      List.append_nil, List.filter_cons_of_pos hneeds, List.filter_nil]
  · rw [List.getLast?_concat, List.getLast?_concat]

theorem Left.perform (h : Left came back q) (op : QueueOperation) :
    Left (came ++ op.added?.toList) (back ++ (q.perform op).2.toList) (q.perform op).1 := by
  cases op with
  | add s =>
    have hback : back ++ (q.perform (.add s)).2.toList = back := List.append_nil back
    rw [hback]
    exact h.add s
  | acknowledge =>
    have hcame : came ++ QueueOperation.acknowledge.added?.toList = came := List.append_nil came
    rw [hcame, SentQueue.perform]
    split
    · next s rest hack => exact h.acknowledge hack
    · rw [Option.toList_none, List.append_nil]
      exact h

theorem Left.run (h : Left came back q) (ops : List QueueOperation) :
    Left (came ++ added ops) (back ++ (q.run ops).2) (q.run ops).1 := by
  induction ops generalizing came back q with
  | nil =>
    have hcame : came ++ added [] = came := List.append_nil came
    rw [hcame, SentQueue.run, List.append_nil]
    exact h
  | cons op ops ih =>
    have hlater := ih (h.perform op)
    rw [List.append_assoc, ← added_cons, List.append_assoc] at hlater
    exact hlater

/-! ## What an acknowledgement means -/

/-- An acknowledgement means the oldest section that needs an insertion. -/
theorem perform_acknowledge_eq (q : SentQueue) :
    (q.perform .acknowledge).2 = (q.filter SentSection.needsInsertion).head? := by
  unfold SentQueue.perform
  dsimp only
  split
  · next s rest hack =>
    obtain ⟨skipped, rfl, hskipped, hpos⟩ := acknowledge?_eq_some hack
    have hneeds : s.needsInsertion = true := decide_eq_true hpos
    rw [List.filter_append, filter_needsInsertion_eq_nil_iff.2 hskipped, List.nil_append,
      List.filter_cons_of_pos hneeds]
    rfl
  · next hnone =>
    rw [filter_needsInsertion_eq_nil_iff.2 (acknowledge?_eq_none_iff.1 hnone)]
    rfl

theorem perform_acknowledge_of_none (h : (q.perform .acknowledge).2 = none) : (q.perform .acknowledge).1 = q := by
  unfold SentQueue.perform at h ⊢
  dsimp only at h ⊢
  split at h
  · cases h
  · rfl

/-- Of the sections that the peer acknowledges, those in the queue are not given back yet. -/
theorem Left.filter_eq (h : Left came back q) :
    came.filter SentSection.needsInsertion = back ++ q.filter SentSection.needsInsertion := by
  obtain ⟨gone, rfl, rfl, -⟩ := h
  exact List.filter_append _ _

/-- An acknowledgement means the section after those that were given back. -/
theorem Left.acknowledge_eq (h : Left came back q) :
    (q.perform .acknowledge).2 = (came.filter SentSection.needsInsertion)[back.length]? := by
  rw [perform_acknowledge_eq, h.filter_eq, List.getElem?_append_right (Nat.le_refl _), Nat.sub_self,
    List.head?_eq_getElem?]

theorem Left.acknowledge_eq_none_iff (h : Left came back q) :
    (q.perform .acknowledge).2 = none ↔ back = came.filter SentSection.needsInsertion := by
  rw [perform_acknowledge_eq, List.head?_eq_none_iff, h.filter_eq]
  exact List.self_eq_append_right.symm

/-! ## Runs -/

/-- A queue that operations lead to gives sections back in the order in which they came, each once. -/
structure KeepsOrder (ops : List QueueOperation) : Prop where
  /-- What was given back is a beginning of what the peer acknowledges at all. -/
  back : (run [] ops).2 <+: (added ops).filter SentSection.needsInsertion
  /-- What came after the last of it is left, whether the peer acknowledges it or not. -/
  queue : Left (added ops) (run [] ops).2 (run [] ops).1
  /-- An acknowledgement means the section that comes next. -/
  next : ((run [] ops).1.perform .acknowledge).2 =
    ((added ops).filter SentSection.needsInsertion)[(run [] ops).2.length]?
  /-- It means none if and only if all were given back. -/
  none_iff : ((run [] ops).1.perform .acknowledge).2 = none ↔
    (run [] ops).2 = (added ops).filter SentSection.needsInsertion
  /-- Then the queue stays as it is. -/
  stays : ((run [] ops).1.perform .acknowledge).2 = none →
    ((run [] ops).1.perform .acknowledge).1 = (run [] ops).1

/-- After any operations, no section is lost, given back twice, or given back before an older one. -/
theorem keepsOrder (ops : List QueueOperation) : KeepsOrder ops := by
  have hnew : Left [] [] [] := ⟨[], rfl, rfl, rfl⟩
  have hleft := hnew.run ops
  rw [List.nil_append, List.nil_append] at hleft
  refine ⟨?_, hleft, hleft.acknowledge_eq, hleft.acknowledge_eq_none_iff, perform_acknowledge_of_none⟩
  rw [hleft.filter_eq]
  exact List.prefix_append _ _

/-- Of five sections the second and the fourth need insertions. Both are gone, with what came before them. -/
example :
    run [] [.add ⟨0, false, []⟩, .add ⟨3, true, [2]⟩, .acknowledge, .add ⟨0, false, []⟩, .acknowledge,
        .add ⟨7, false, [6, 1]⟩, .add ⟨0, false, []⟩, .acknowledge] =
      ([⟨0, false, []⟩], [⟨3, true, [2]⟩, ⟨7, false, [6, 1]⟩]) := by
  decide

end SentQueue
end Qpack
