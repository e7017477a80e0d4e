import Qpack.Proofs.Encoder.Budget
import Qpack.Proofs.Table.Draining

/-!
# Reports in another order

Streams end in any order. Acknowledgements and cancellations of different streams lead to the same encoder
and to the same instructions, whichever comes first.

* `Feedback.stream?` : the stream whose sections a report gives up;
* `Taking`, `Feedback.takes?` : what a report takes from the queue of its stream;
* `Encoder.giveUp` : the encoder after that, for every report;
* `receive_of_takes?`, `receive_of_takes?_none` : what a report does;
* `takes?_receive` : a report takes the same after a report about another stream;
* `Commutes`, `Reachable.commutes` : two reports in either order;
* `run_perm` : any number of reports, each about a stream of its own, in any order.
-/

namespace Qpack

/-! ## What a report takes -/

/-- The stream whose sections a report gives up. -/
def Feedback.stream? : Feedback → Option Nat
  | .acknowledge stream => some stream
  | .cancel stream => some stream
  | .increment _ => none

/-- What a report takes from a queue. -/
structure Taking where
  /-- The sections that give up what they hold. -/
  gone : List SentSection
  /-- The sections that are left. -/
  rest : SentQueue
  /-- How many insertions the peer has, as far as the report tells. -/
  known : Nat

namespace Taking

/-- The indices that are referred to no more. -/
def references (x : Taking) : List Nat := x.gone.flatMap (·.references)

/-- The same, once units of the budget are given back. -/
def settle (known : Nat) (x : Taking) : Taking where
  gone := x.gone.map (SentSection.settle known)
  rest := x.rest.map (SentSection.settle known)
  known := x.known

theorem references_singleton (s : SentSection) (rest : SentQueue) (known : Nat) :
    (Taking.mk [s] rest known).references = s.references := List.flatMap_singleton _ _

theorem references_settle (known : Nat) (x : Taking) : (x.settle known).references = x.references := by
  unfold references settle
  dsimp only
  rw [List.flatMap_map]
  apply List.flatMap_congr
  intro s _
  exact s.references_settle known

end Taking

/-- What a report about a stream takes from its queue; none if it is refused. -/
def Feedback.takes? (q : SentQueue) : Feedback → Option Taking
  | .acknowledge _ => q.acknowledge?.map fun (s, rest) => ⟨[s], rest, s.requiredInsertCount⟩
  | .cancel _ => if q.isEmpty then none else some ⟨q, [], 0⟩
  | .increment _ => none

theorem Feedback.takes?_map_settle (known : Nat) (q : SentQueue) (report : Feedback) :
    report.takes? (q.map (SentSection.settle known)) = (report.takes? q).map (Taking.settle known) := by
  cases report with
  | acknowledge stream =>
    unfold takes?
    dsimp only
    rw [SentQueue.acknowledge?_map_settle, Option.map_map, Option.map_map]
    congr 1
    funext ⟨s, rest⟩
    show Taking.mk [_] _ (s.settle known).requiredInsertCount = ⟨[_], _, _⟩
    rw [s.requiredInsertCount_settle]
  | cancel stream =>
    unfold takes?
    dsimp only
    rw [List.isEmpty_map]
    split <;> rfl
  | increment count => rfl

theorem Feedback.ne_nil_of_takes? {q : SentQueue} {report : Feedback} {x : Taking}
    (h : report.takes? q = some x) : q ≠ [] := by
  rintro rfl
  cases report <;> cases h

namespace Encoder
variable {e : Encoder} {a b report : Feedback} {stream other : Nat} {x y : Taking}

/-- The encoder after a report about a stream, and how many units of the budget are left in use. -/
def giveUp (e : Encoder) (stream : Nat) (x : Taking) (blocked : Nat) : Encoder :=
  { e with
    table := (x.references.foldl DynamicTable.release e.table).drain.1
    known := max e.known x.known
    blocked := blocked
    streams := (e.streams.put stream x.rest).settle (max e.known x.known) }

/-- Where the budget is kept, no unit is to be given back for what the peer is known to have. -/
theorem Budgeted.settle_put (h : Budgeted e .empty) (stream : Nat) {q : SentQueue}
    (hq : q ⊆ e.streams.queue stream) :
    (e.streams.put stream q).settle e.known = e.streams.put stream q := by
  apply Streams.settle_eq_self
  intro s hs hle
  have hp := Streams.sections_put_perm e.streams stream q
  have hmem : s ∈ e.streams.sections := by
    rcases List.mem_append.1 (hp.subset (List.mem_append_left _ hs)) with hs | hs
    · exact hs
    · exact Streams.queue_subset_sections e.streams stream (hq hs)
  have hmark := h.marks s hmem
  rw [← Bool.not_eq_true, hmark]
  omega

theorem receive_of_takes? (h : Budgeted e .empty) (hs : report.stream? = some stream)
    (hx : report.takes? (e.streams.queue stream) = some x) :
    ∃ n, e.receive report =
      ⟨.ok (), e.giveUp stream x n,
        (x.references.foldl DynamicTable.release e.table).drain.2.toList.map .setCapacity⟩ := by
  cases report with
  | acknowledge id =>
    obtain rfl := Option.some.inj hs
    obtain ⟨⟨oldest, queue⟩, hack, rfl⟩ := Option.map_eq_some_iff.1 hx
    unfold receive acknowledge giveUp
    dsimp only
    rw [hack, Taking.references_singleton]
    exact ⟨_, rfl⟩
  | cancel id =>
    obtain rfl := Option.some.inj hs
    obtain ⟨n, hn⟩ := foldl_retire_eq { e with streams := e.streams.put id [] } (e.streams.queue id)
    have hsettle := h.settle_put id (List.nil_subset _)
    unfold Feedback.takes? at hx
    dsimp only at hx
    split at hx
    · cases hx
    · next hne =>
      obtain rfl := Option.some.inj hx
      refine ⟨n, ?_⟩
      unfold receive cancel giveUp
      dsimp only
      split
      · next hnil => exact absurd (List.isEmpty_iff.2 hnil) hne
      · rw [hn, Nat.max_zero, hsettle]
        rfl
  | increment count => cases hs

theorem receive_of_takes?_none (hs : report.stream? = some stream)
    (hx : report.takes? (e.streams.queue stream) = none) :
    e.receive report = e.refuse (.unknownStream stream) := by
  cases report with
  | acknowledge id =>
    obtain rfl := Option.some.inj hs
    have hack := Option.map_eq_none_iff.1 hx
    unfold receive acknowledge
    dsimp only
    rw [hack]
  | cancel id =>
    obtain rfl := Option.some.inj hs
    unfold Feedback.takes? at hx
    unfold receive cancel
    dsimp only at hx ⊢
    split at hx
    · next hnil => rw [List.isEmpty_iff.1 hnil]
    · cases hx
  | increment count => cases hs

/-! ## Two reports -/

theorem queue_giveUp_of_ne (e : Encoder) (hne : stream ≠ other) (x : Taking) (n : Nat) :
    (e.giveUp stream x n).streams.queue other =
      (e.streams.queue other).map (SentSection.settle (max e.known x.known)) := by
  show ((e.streams.put stream x.rest).settle (max e.known x.known)).queue other = _
  rw [Streams.queue_settle, Streams.queue_put_of_ne e.streams hne]

/-- A report is refused or not, and takes the same, after one about another stream. -/
theorem takes?_giveUp (e : Encoder) (hne : stream ≠ other) (x : Taking) (n : Nat) (report : Feedback) :
    report.takes? ((e.giveUp stream x n).streams.queue other) =
      (report.takes? (e.streams.queue other)).map (Taking.settle (max e.known x.known)) := by
  rw [queue_giveUp_of_ne e hne, Feedback.takes?_map_settle]

/-- How many units are in use depends on the sections. -/
theorem Budgeted.blocked_eq {e' : Encoder} (h : Budgeted e .empty) (h' : Budgeted e' .empty)
    (hs : e.streams = e'.streams) : e.blocked = e'.blocked := by
  rw [h.held_empty, h'.held_empty, hs]

theorem Sound.measured (h : Sound e .empty) (hcap : e.settings.maxTableCapacity < 2 ^ 56) : e.table.Measured := by
  refine ⟨h.valid, h.waits.shrinks h.valid, ?_⟩
  have hle := h.capacity_le
  omega

/-- What two streams give up leads to the same encoder in either order. -/
theorem giveUp_comm (h : e.table.Measured) (hne : stream ≠ other) (hx : e.streams.queue stream ≠ [])
    (hy : e.streams.queue other ≠ []) {n m n' m' : Nat}
    (hb : Budgeted ((e.giveUp stream x n).giveUp other (y.settle (max e.known x.known)) m) .empty)
    (hb' : Budgeted ((e.giveUp other y n').giveUp stream (x.settle (max e.known y.known)) m') .empty) :
    (e.giveUp stream x n).giveUp other (y.settle (max e.known x.known)) m =
      (e.giveUp other y n').giveUp stream (x.settle (max e.known y.known)) m' := by
  have hknown : max (max e.known x.known) y.known = max (max e.known y.known) x.known := by omega
  have hstreams : ((e.giveUp stream x n).giveUp other (y.settle (max e.known x.known)) m).streams =
      ((e.giveUp other y n').giveUp stream (x.settle (max e.known y.known)) m').streams := by
    show ((((e.streams.put stream x.rest).settle _).put other (y.rest.map _)).settle
        (max (max e.known x.known) y.known)) =
      ((((e.streams.put other y.rest).settle _).put stream (x.rest.map _)).settle
        (max (max e.known y.known) x.known))
    rw [← Streams.settle_put, ← Streams.settle_put, Streams.settle_settle, Streams.settle_settle,
      Streams.put_comm e.streams hne hx hy, hknown]
    congr 1
    omega
  have htable := (h.drain_comm x.references y.references).1
  have hblocked : m = m' := hb.blocked_eq hb' hstreams
  unfold giveUp at hstreams ⊢
  rw [Taking.references_settle, Taking.references_settle]
  dsimp only at hstreams ⊢
  rw [htable, hstreams, hblocked, show (y.settle (max e.known x.known)).known = y.known from rfl,
    show (x.settle (max e.known y.known)).known = x.known from rfl, hknown]

/-- Two reports do the same in either order. -/
structure Commutes (e : Encoder) (a b : Feedback) : Prop where
  /-- The first is accepted or refused, whether the second came before or not. -/
  first : ((e.receive b).encoder.receive a).result = (e.receive a).result
  second : ((e.receive a).encoder.receive b).result = (e.receive b).result
  encoder : ((e.receive a).encoder.receive b).encoder = ((e.receive b).encoder.receive a).encoder
  emitted : (e.receive a).emitted ++ ((e.receive a).encoder.receive b).emitted =
    (e.receive b).emitted ++ ((e.receive b).encoder.receive a).emitted

theorem Commutes.symm (h : e.Commutes a b) : e.Commutes b a :=
  ⟨h.second, h.first, h.encoder.symm, h.emitted.symm⟩

/-- A report that is refused stays refused after one about another stream. -/
theorem commutes_of_refused (hb : Budgeted e .empty) (ha : a.stream? = some stream)
    (hother : b.stream? = some other) (hne : stream ≠ other)
    (hx : a.takes? (e.streams.queue stream) = none) : e.Commutes a b := by
  have hrefused := receive_of_takes?_none ha hx
  have hagain : (e.receive b).encoder.receive a = (e.receive b).encoder.refuse (.unknownStream stream) := by
    rcases hy : b.takes? (e.streams.queue other) with _ | y
    · rw [receive_of_takes?_none hother hy]
      exact hrefused
    · obtain ⟨n, hn⟩ := receive_of_takes? hb hother hy
      rw [hn]
      apply receive_of_takes?_none ha
      rw [takes?_giveUp e hne.symm, hx]
      rfl
  refine ⟨?_, ?_, ?_, ?_⟩
  · rw [hagain, hrefused]
    rfl
  · rw [hrefused]
    rfl
  · rw [hagain, hrefused]
    rfl
  · rw [hagain, hrefused]
    exact (List.append_nil _).symm

theorem commutes_of_takes? (h : Sound e .empty) (hb : Budgeted e .empty)
    (hcap : e.settings.maxTableCapacity < 2 ^ 56) (ha : a.stream? = some stream)
    (hother : b.stream? = some other) (hne : stream ≠ other)
    (hx : a.takes? (e.streams.queue stream) = some x) (hy : b.takes? (e.streams.queue other) = some y) :
    e.Commutes a b := by
  obtain ⟨n, hn⟩ := receive_of_takes? hb ha hx
  obtain ⟨n', hn'⟩ := receive_of_takes? hb hother hy
  have hafter : Budgeted (e.receive a).encoder .empty := hb.perform h (.receive a)
  have hafter' : Budgeted (e.receive b).encoder .empty := hb.perform h (.receive b)
  -- each of them takes the same after the other
  have hlater : b.takes? ((e.receive a).encoder.streams.queue other) =
      some (y.settle (max e.known x.known)) := by
    rw [hn, takes?_giveUp e hne, hy]
    rfl
  have hlater' : a.takes? ((e.receive b).encoder.streams.queue stream) =
      some (x.settle (max e.known y.known)) := by
    rw [hn', takes?_giveUp e hne.symm, hx]
    rfl
  obtain ⟨m, hm⟩ := receive_of_takes? hafter hother hlater
  obtain ⟨m', hm'⟩ := receive_of_takes? hafter' ha hlater'
  have hend : Budgeted ((e.receive a).encoder.receive b).encoder .empty :=
    hafter.perform (h.perform (.receive a)) (.receive b)
  have hend' : Budgeted ((e.receive b).encoder.receive a).encoder .empty :=
    hafter'.perform (h.perform (.receive b)) (.receive a)
  have htable := h.measured hcap
  rw [hn] at hm
  rw [hn'] at hm'
  rw [hn, hm] at hend
  rw [hn', hm'] at hend'
  refine ⟨?_, ?_, ?_, ?_⟩
  · rw [hn', hm', hn]
  · rw [hn, hm, hn']
  · rw [hn, hn', hm, hm']
    exact giveUp_comm htable hne (Feedback.ne_nil_of_takes? hx) (Feedback.ne_nil_of_takes? hy) hend hend'
  · rw [hn, hn', hm, hm', Taking.references_settle, Taking.references_settle]
    dsimp only
    rw [← List.map_append, ← List.map_append]
    exact congrArg _ (htable.drain_comm x.references y.references).2

theorem Sound.commutes_of_ne (h : Sound e .empty) (hb : Budgeted e .empty)
    (hcap : e.settings.maxTableCapacity < 2 ^ 56) (ha : a.stream? = some stream)
    (hother : b.stream? = some other) (hne : stream ≠ other) : e.Commutes a b := by
  rcases hx : a.takes? (e.streams.queue stream) with _ | x
  · exact commutes_of_refused hb ha hother hne hx
  · rcases hy : b.takes? (e.streams.queue other) with _ | y
    · exact (commutes_of_refused hb hother ha hne.symm hy).symm
    · exact commutes_of_takes? h hb hcap ha hother hne hx hy

/-- After any operations, reports about two streams do the same in either order. -/
theorem Reachable.commutes (h : e.Reachable) (hcap : e.settings.maxTableCapacity < 2 ^ 56)
    (ha : a.stream? = some stream) (hother : b.stream? = some other) (hne : stream ≠ other) :
    e.Commutes a b :=
  h.sound.commutes_of_ne h.budgeted hcap ha hother hne

/-- A lower capacity waits for the sections of two streams. -/
def shrinking : Encoder :=
  ((new ⟨200, 2, 0, true, false⟩).run [.setCapacity 200, .insert ⟨[97], []⟩, .insert ⟨[98], []⟩,
    .encode 0 [⟨[97], []⟩], .encode 4 [⟨[98], []⟩], .setCapacity 40]).1

/-- It takes effect with the first report or with the second. -/
theorem shrinking_commutes : shrinking.Reachable ∧ shrinking.Commutes (.acknowledge 0) (.cancel 4) ∧
    shrinking.table.pending = some 40 ∧ (shrinking.receive (.acknowledge 0)).emitted = [.setCapacity 40] ∧
    (shrinking.receive (.cancel 4)).emitted = [] ∧
    ((shrinking.receive (.cancel 4)).encoder.receive (.acknowledge 0)).emitted = [.setCapacity 40] := by
  have hr : shrinking.Reachable := ⟨⟨200, 2, 0, true, false⟩, new _, _, rfl, rfl⟩
  exact ⟨hr, hr.commutes (by decide +kernel) rfl rfl (by decide), by decide +kernel, by decide +kernel,
    by decide +kernel, by decide +kernel⟩

/-! ## Any number of reports -/

theorem Commutes.run_eq (h : e.Commutes a b) (ops : List Operation) :
    e.run (.receive a :: .receive b :: ops) = e.run (.receive b :: .receive a :: ops) := by
  show ((((e.receive a).encoder.receive b).encoder.run ops).1,
      (e.receive a).emitted ++ (((e.receive a).encoder.receive b).emitted ++
        (((e.receive a).encoder.receive b).encoder.run ops).2)) =
    ((((e.receive b).encoder.receive a).encoder.run ops).1,
      (e.receive b).emitted ++ (((e.receive b).encoder.receive a).emitted ++
        (((e.receive b).encoder.receive a).encoder.run ops).2))
  rw [← List.append_assoc, h.emitted, h.encoder, List.append_assoc]

/-- Reports in any order, each about a stream of its own. -/
theorem Sound.run_perm (h : Sound e .empty) (hb : Budgeted e .empty)
    (hcap : e.settings.maxTableCapacity < 2 ^ 56) {items items' : List Feedback} (hp : items.Perm items')
    (hstreams : ∀ item ∈ items, item.stream?.isSome = true) (hn : (items.map Feedback.stream?).Nodup) :
    e.run (items.map .receive) = e.run (items'.map .receive) := by
  induction hp generalizing e with
  | nil => rfl
  | @cons item items items' hp ih =>
    rw [List.forall_mem_cons] at hstreams
    have hcap' : (e.perform (.receive item)).encoder.settings.maxTableCapacity < 2 ^ 56 := by
      rwa [settings_perform h]
    have hlater := ih (h.perform (.receive item)) (hb.perform h (.receive item)) hcap' hstreams.2
      (List.nodup_cons.1 hn).2
    rw [List.map_cons, List.map_cons, Encoder.run, Encoder.run, hlater]
  | swap a b items =>
    rw [List.forall_mem_cons, List.forall_mem_cons] at hstreams
    obtain ⟨other, hother⟩ := Option.isSome_iff_exists.1 hstreams.1
    obtain ⟨stream, hs⟩ := Option.isSome_iff_exists.1 hstreams.2.1
    rw [List.map_cons, List.map_cons, hother, hs, List.nodup_cons, List.mem_cons, not_or] at hn
    have hne : other ≠ stream := fun heq => hn.1.1 (congrArg some heq)
    exact (h.commutes_of_ne hb hcap hother hs hne).run_eq _
  | trans hp hp' ih ih' =>
    have hmid := ih h hb hcap hstreams hn
    exact hmid.trans (ih' h hb hcap (fun item hitem => hstreams item (hp.mem_iff.2 hitem))
      ((hp.map _).nodup_iff.1 hn))

end Encoder
end Qpack
