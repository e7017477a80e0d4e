import Qpack.Peer.Exchange
import Qpack.Proofs.Encoder.Feedback
import Qpack.Proofs.Encoder.Run
import Qpack.Proofs.Peer.Table

/-!
# Reports and outstanding sections

* `Ledger`, `Ledger.Heeds` : what is known to have arrived and what the outstanding sections need, and what a
  report does to that;
* `Heeds.send`, `HeedsAll.send` : a section that is sent before the reports are heard comes last, or is
  cancelled with its stream;
* `Encoder.receive_of_heeds` : the encoder accepts a report that can be meant, and does what it means;
* `Encoder.ledger_perform` : of its own, an encoder only adds sections;
* `Encoder.inserted_perform` : it sends an insertion for each new entry.
-/

namespace Qpack

/-! ## Reports and outstanding sections -/

/-- The insertions that are known to have arrived, and for each stream what its outstanding sections need,
oldest first. -/
@[ext] structure Ledger where
  known : Nat
  queues : Nat → List Nat

/-- The first that is above zero, and those after it. -/
def firstNeeding : List Nat → Option (Nat × List Nat)
  | [] => none
  | required :: rest => if 0 < required then some (required, rest) else firstNeeding rest

theorem firstNeeding_append {q rest : List Nat} {required : Nat} (h : firstNeeding q = some (required, rest))
    (more : List Nat) : firstNeeding (q ++ more) = some (required, rest ++ more) := by
  induction q with
  | nil => cases h
  | cons r q ih =>
    rw [firstNeeding] at h
    rw [List.cons_append, firstNeeding]
    split at h
    · next hr =>
      obtain ⟨rfl, rfl⟩ := Prod.mk.inj (Option.some.inj h)
      rw [if_pos hr]
    · next hr => rw [if_neg hr, ih h]

theorem firstNeeding_replicate (n : Nat) {required : Nat} (h : 0 < required) (rest : List Nat) :
    firstNeeding (List.replicate n 0 ++ required :: rest) = some (required, rest) := by
  induction n with
  | zero => exact if_pos h
  | succ n ih => exact ih

/-- The sections that an acknowledgement means and leaves are known by what they need. -/
theorem firstNeeding_map (q : SentQueue) :
    firstNeeding (q.map SentSection.requiredInsertCount) =
      q.acknowledge?.map fun (s, rest) => (s.requiredInsertCount, rest.map SentSection.requiredInsertCount) := by
  induction q with
  | nil => rfl
  | cons s q ih =>
    rw [List.map_cons, firstNeeding, SentQueue.acknowledge?, ih]
    split <;> rfl

namespace Ledger

/-- Another queue for a stream. -/
def put (l : Ledger) (stream : Nat) (queue : List Nat) : Ledger :=
  ⟨l.known, fun id => if id = stream then queue else l.queues id⟩

/-- At least so many insertions have arrived. -/
def learn (l : Ledger) (known : Nat) : Ledger := ⟨max l.known known, l.queues⟩

/-- One more section is sent. -/
def send (l : Ledger) (stream required : Nat) : Ledger := l.put stream (l.queues stream ++ [required])

/-- What a report changes, if it can be meant. -/
inductive Heeds : Ledger → Feedback → Ledger → Prop where
  | acknowledge {l : Ledger} {stream required : Nat} {rest : List Nat} :
    firstNeeding (l.queues stream) = some (required, rest) →
    Heeds l (.acknowledge stream) ((l.put stream rest).learn required)
  | cancel {l : Ledger} {stream : Nat} : l.queues stream ≠ [] → Heeds l (.cancel stream) (l.put stream [])
  | increment {l : Ledger} {count : Nat} : 0 < count →
    Heeds l (.increment count) (l.learn (l.known + count))

/-- What reports change, one after another. Each comes with what is known to have arrived then. -/
inductive HeedsAll : Ledger → List (Feedback × Nat) → Ledger → Prop where
  | nil (l : Ledger) : HeedsAll l [] l
  | cons {l l₁ l₂ : Ledger} {report : Feedback} {known : Nat} {rest : List (Feedback × Nat)} :
    Heeds l report l₁ → l₁.known = known → HeedsAll l₁ rest l₂ → HeedsAll l ((report, known) :: rest) l₂

section Heeds
variable {l l₁ l₂ : Ledger} {report : Feedback} {told : List (Feedback × Nat)} {stream : Nat}

@[simp] theorem queues_put_self (l : Ledger) (stream : Nat) (q : List Nat) : (l.put stream q).queues stream = q :=
  if_pos rfl

@[simp] theorem queues_put_of_ne (l : Ledger) {id : Nat} (h : id ≠ stream) (q : List Nat) :
    (l.put stream q).queues id = l.queues id := if_neg h

theorem put_put (l : Ledger) (stream : Nat) (q q' : List Nat) :
    (l.put stream q).put stream q' = l.put stream q' := by
  ext id : 2
  · rfl
  · by_cases hid : id = stream
    · subst hid
      rw [queues_put_self, queues_put_self]
    · simp only [queues_put_of_ne _ hid]

theorem put_comm (l : Ledger) {id : Nat} (h : id ≠ stream) (q q' : List Nat) :
    (l.put id q).put stream q' = (l.put stream q').put id q := by
  ext k : 2
  · rfl
  · by_cases hk : k = stream
    · subst hk
      rw [queues_put_self, queues_put_of_ne _ (Ne.symm h), queues_put_self]
    · rw [queues_put_of_ne _ hk]
      by_cases hid : k = id
      · subst hid
        rw [queues_put_self, queues_put_self]
      · simp only [queues_put_of_ne _ hid, queues_put_of_ne _ hk]

@[simp] theorem queues_send_self (l : Ledger) (stream required : Nat) :
    (l.send stream required).queues stream = l.queues stream ++ [required] := if_pos rfl

@[simp] theorem queues_send_of_ne (l : Ledger) {id : Nat} (h : id ≠ stream) (required : Nat) :
    (l.send stream required).queues id = l.queues id := if_neg h

theorem put_send_self (l : Ledger) (stream required : Nat) (q : List Nat) :
    (l.send stream required).put stream (q ++ [required]) = (l.put stream q).send stream required := by
  unfold send
  rw [put_put, put_put, queues_put_self]

theorem put_send_of_ne (l : Ledger) {id : Nat} (h : id ≠ stream) (required : Nat) (q : List Nat) :
    (l.send stream required).put id q = (l.put id q).send stream required := by
  unfold send
  rw [put_comm _ (Ne.symm h), queues_put_of_ne _ (Ne.symm h)]

theorem Heeds.known_le (h : Heeds l report l₁) : l.known ≤ l₁.known := by
  cases h with
  | acknowledge _ => exact Nat.le_max_left _ _
  | cancel _ => exact Nat.le_refl _
  | increment _ => exact Nat.le_max_left _ _

theorem HeedsAll.known_le (h : HeedsAll l told l₁) : l.known ≤ l₁.known := by
  induction h with
  | nil => exact Nat.le_refl _
  | cons hnow _ _ ih => exact Nat.le_trans hnow.known_le ih

theorem HeedsAll.concat (h : HeedsAll l told l₁) (hlast : Heeds l₁ report l₂) :
    HeedsAll l (told ++ [(report, l₂.known)]) l₂ := by
  induction h with
  | nil => exact HeedsAll.cons hlast rfl (HeedsAll.nil l₂)
  | cons hnow hknown _ ih => exact HeedsAll.cons hnow hknown (ih hlast)

/-! ## Sections that are sent meanwhile -/

/-- A cancellation takes what was sent meanwhile along. -/
theorem Heeds.send_cancel (h : Heeds l (.cancel stream) l₁) (required : Nat) :
    Heeds (l.send stream required) (.cancel stream) l₁ := by
  cases h with
  | cancel hq =>
    rw [← put_put l stream (l.queues stream ++ [required])]
    apply Heeds.cancel
    simp

/-- Any other report leaves what was sent meanwhile where it is. -/
theorem Heeds.send (h : Heeds l report l₁) (hne : report ≠ .cancel stream) (required : Nat) :
    Heeds (l.send stream required) report (l₁.send stream required) := by
  cases h with
  | @acknowledge id first rest hfirst =>
    by_cases hid : id = stream
    · subst hid
      have hlater : firstNeeding ((l.send id required).queues id) = some (first, rest ++ [required]) := by
        rw [queues_send_self, firstNeeding_append hfirst]
      have hheeds := Heeds.acknowledge hlater
      rwa [put_send_self] at hheeds
    · have hlater : firstNeeding ((l.send stream required).queues id) = some (first, rest) := by
        rw [queues_send_of_ne l hid, hfirst]
      have hheeds := Heeds.acknowledge hlater
      rwa [put_send_of_ne l hid] at hheeds
  | @cancel id hq =>
    have hid : id ≠ stream := by
      rintro rfl
      exact hne rfl
    rw [← put_send_of_ne l hid]
    apply Heeds.cancel
    rwa [queues_send_of_ne l hid]
  | increment hcount => exact Heeds.increment hcount

/-- What is sent while reports are on their way comes last in its queue, unless one of them cancels the
stream. -/
theorem HeedsAll.send (h : HeedsAll l told l₁) (stream required : Nat) :
    HeedsAll (l.send stream required) told (l₁.send stream required) ∨
      (∃ known, (Feedback.cancel stream, known) ∈ told) ∧ HeedsAll (l.send stream required) told l₁ := by
  induction h with
  | nil => exact Or.inl (HeedsAll.nil _)
  | @cons l l₁ l₂ report known rest hnow hknown hlater ih =>
    by_cases hcancel : report = .cancel stream
    · subst hcancel
      exact Or.inr ⟨⟨known, List.mem_cons_self⟩, HeedsAll.cons (hnow.send_cancel required) hknown hlater⟩
    · have hfirst := hnow.send hcancel required
      rcases ih with ih | ⟨⟨k, hmem⟩, ih⟩
      · exact Or.inl (HeedsAll.cons hfirst hknown ih)
      · exact Or.inr ⟨⟨k, List.mem_cons_of_mem _ hmem⟩, HeedsAll.cons hfirst hknown ih⟩

end Heeds
end Ledger

/-! ## The encoder -/

namespace Encoder
variable {e : Encoder} {stream : Nat}

/-- What the encoder holds of its peer. -/
def ledger (e : Encoder) : Ledger :=
  ⟨e.known, fun stream => (e.streams.queue stream).map SentSection.requiredInsertCount⟩

theorem ledger_put (h : e.streams.Distinct) (stream : Nat) (q : SentQueue) :
    ledger { e with streams := e.streams.put stream q } =
      e.ledger.put stream (q.map SentSection.requiredInsertCount) := by
  ext id : 2
  · rfl
  · by_cases hid : id = stream
    · subst hid
      rw [Ledger.queues_put_self]
      exact congrArg _ (h.queue_put_self id q)
    · rw [Ledger.queues_put_of_ne _ hid]
      exact congrArg _ (Streams.queue_put_of_ne e.streams (Ne.symm hid) q)

theorem ledger_send (h : e.streams.Distinct) (stream : Nat) (s : SentSection) :
    (e.send stream s).ledger = e.ledger.send stream s.requiredInsertCount := by
  unfold Encoder.send Ledger.send
  rw [ledger_put h, SentQueue.add, List.map_append]
  rfl

theorem ledger_congr {e' : Encoder} (hk : e'.known = e.known) (hs : e'.streams = e.streams) :
    e'.ledger = e.ledger := by
  unfold ledger
  rw [hk, hs]

theorem ledger_settle (e : Encoder) : e.settle.ledger = e.ledger := by
  ext id : 2
  · rfl
  · show ((e.streams.settle e.known).queue id).map SentSection.requiredInsertCount = _
    rw [Streams.queue_settle, List.map_map]
    apply List.map_congr_left
    intro s _
    exact s.requiredInsertCount_settle e.known

theorem ledger_foldl_retire (e : Encoder) (q : SentQueue) : (q.foldl retire e).ledger = e.ledger := by
  obtain ⟨n, hn⟩ := foldl_retire_eq e q
  rw [hn]
  rfl

theorem acknowledge_of_heeds (h : Sound e .empty) {l : Ledger} (hl : Ledger.Heeds e.ledger (.acknowledge stream) l) :
    (e.acknowledge stream).result = .ok () ∧ (e.acknowledge stream).encoder.ledger = l := by
  cases hl with
  | @acknowledge _ required rest hfirst =>
    have hfirst' : firstNeeding ((e.streams.queue stream).map SentSection.requiredInsertCount) =
        some (required, rest) := hfirst
    rw [firstNeeding_map, Option.map_eq_some_iff] at hfirst'
    obtain ⟨⟨oldest, queue⟩, hack, heq⟩ := hfirst'
    obtain ⟨rfl, rfl⟩ := Prod.mk.inj heq
    unfold acknowledge
    rw [hack]
    refine ⟨rfl, ?_⟩
    -- only the queue and the count are part of the ledger, not the table and the budget
    have hsettle := ledger_settle (({ e with
      streams := e.streams.put stream queue
      known := max e.known oldest.requiredInsertCount } : Encoder).retire oldest)
    exact hsettle.trans (congrArg (Ledger.learn · oldest.requiredInsertCount) (ledger_put h.distinct stream queue))

theorem cancel_of_heeds (h : Sound e .empty) {l : Ledger} (hl : Ledger.Heeds e.ledger (.cancel stream) l) :
    (e.cancel stream).result = .ok () ∧ (e.cancel stream).encoder.ledger = l := by
  cases hl with
  | cancel hq =>
    have hne : e.streams.queue stream ≠ [] := fun hnil => hq (congrArg (List.map _) hnil)
    unfold cancel
    split
    · next hnil => exact absurd hnil hne
    · refine ⟨rfl, ?_⟩
      have hput := ledger_put h.distinct stream []
      exact (ledger_foldl_retire { e with streams := e.streams.put stream [] } _).trans hput

theorem increment_of_heeds {count : Nat} {l : Ledger} (hl : Ledger.Heeds e.ledger (.increment count) l)
    (hle : l.known ≤ e.table.inserted) :
    (e.increment count).result = .ok () ∧ (e.increment count).encoder.ledger = l := by
  cases hl with
  | increment hcount =>
    have hmax : max e.known (e.known + count) = e.known + count := Nat.max_eq_right (Nat.le_add_right _ _)
    have hle' : e.known + count ≤ e.table.inserted := hmax ▸ hle
    unfold increment
    rw [if_neg (Nat.ne_of_gt hcount), if_neg (Nat.not_lt.2 hle')]
    refine ⟨rfl, ?_⟩
    rw [ledger_settle]
    exact congrArg (Ledger.mk · e.ledger.queues) hmax.symm

/-- What can be meant is accepted, and does what it means. -/
theorem receive_of_heeds (h : Sound e .empty) {report : Feedback} {l : Ledger} (hl : Ledger.Heeds e.ledger report l)
    (hle : l.known ≤ e.table.inserted) :
    (e.receive report).result = .ok () ∧ (e.receive report).encoder.ledger = l := by
  cases report with
  | acknowledge stream => exact acknowledge_of_heeds h hl
  | cancel stream => exact cancel_of_heeds h hl
  | increment count => exact increment_of_heeds hl hle

/-- A report that is accepted leaves the others to be received. -/
theorem receiveAll_cons {item : Feedback} (h : (e.receive item).result = .ok ()) (rest : List Feedback) :
    e.receiveAll (item :: rest) =
      { (e.receive item).encoder.receiveAll rest with
        emitted := (e.receive item).emitted ++ ((e.receive item).encoder.receiveAll rest).emitted } := by
  rw [receiveAll_eq_andThen, Outcome.andThen_of_ok h]

/-- Of the sender's operations only a section that is sent matters. -/
theorem ledger_perform (h : Sound e .empty) {op : Operation} (hop : op.isOwn = true) :
    e.sends? op = none ∧ (e.perform op).encoder.ledger = e.ledger ∨
      ∃ stream required, e.sends? op = some (stream, required) ∧
        (e.perform op).encoder.ledger = e.ledger.send stream required := by
  cases op with
  | setCapacity c =>
    refine Or.inl ⟨rfl, ?_⟩
    show (e.setCapacity c).encoder.ledger = e.ledger
    unfold setCapacity
    split <;> rfl
  | encode stream fields =>
    show _ ∧ (e.encode stream fields).encoder.ledger = _ ∨
      ∃ id required, _ ∧ (e.encode stream fields).encoder.ledger = _
    unfold sends?
    dsimp only
    rcases hname : e.refusedName? fields with _ | f
    · have hm := (Draft.says_ofFields h fields).1
      simp only [encode_eq hname, Draft.requiredInsertCount_ofFields h]
      refine Or.inr ⟨stream, _, rfl, ?_⟩
      rw [ledger_send (hm.sound h).distinct, ledger_congr hm.known hm.streams]
      rfl
    · have hrefused : e.encode stream fields = e.refuse (.invalidFieldName stream (Text.decodeLossy f.name)) := by
        rw [encode, hname]
      rw [hrefused]
      exact Or.inl ⟨rfl, rfl⟩
  | insert f =>
    refine Or.inl ⟨rfl, ?_⟩
    show (e.insert f).encoder.ledger = e.ledger
    unfold insert
    dsimp only
    split <;> rfl
  | receive report => cases hop
  | feedback data => cases hop
  | setValidation validate => exact Or.inl ⟨rfl, rfl⟩
  | setPolicy policy => exact Or.inl ⟨rfl, rfl⟩

/-! ## Insertions on their way -/

/-- An insertion is sent for each entry that is new. -/
theorem Step.inserted {e₁ e₂ : Encoder} {s₁ s₂ : SentSection} {out : List Instruction}
    (hstep : Step e₁ s₁ out e₂ s₂) :
    e₂.table.inserted = e₁.table.inserted + out.countP Instruction.inserts := by
  cases hstep with
  | shed hu _ => exact hu.inserted
  | resize hu _ _ =>
    split
    · exact hu.inserted
    · exact hu.inserted
  | insert ha hi =>
    rw [List.countP_singleton, if_pos (PeerTable.inserts_of_field? hi)]
    exact DynamicTable.inserted_add (admits_eq_true.1 ha).2
  | depend _ _ => exact (DynamicTable.sameMeasures_refer _ _).inserted
  | retire _ => exact (DynamicTable.sameMeasures_foldl_release _ _).inserted
  | _ => rfl

theorem Steps.inserted {e₁ e₂ : Encoder} {s₁ s₂ : SentSection} {out : List Instruction}
    (hsteps : Steps e₁ s₁ out e₂ s₂) :
    e₂.table.inserted = e₁.table.inserted + out.countP Instruction.inserts := by
  induction hsteps with
  | refl => rfl
  | tail _ hstep ih => rw [hstep.inserted, ih, List.countP_append, Nat.add_assoc]

theorem inserted_perform (h : Sound e .empty) (op : Operation) :
    (e.perform op).encoder.table.inserted =
      e.table.inserted + (e.perform op).emitted.countP Instruction.inserts := by
  obtain ⟨e', s, hsteps, htable, -⟩ := perform_steps h op
  rw [htable]
  exact hsteps.inserted

end Encoder
end Qpack
