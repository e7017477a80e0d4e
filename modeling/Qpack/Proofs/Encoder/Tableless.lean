import Qpack.Proofs.Encoder.Feedback
import Qpack.Proofs.Encoder.Transmission

/-!
# Encoders whose peer allows no table

Where the peer allows no capacity, nothing is ever inserted, and so no section waits for anything and no report
but a cancellation is accepted. Sections are queued all the same, each until its stream is cancelled.

* `drain_empty` : a table without entries or capacity stays as it is;
* `Tableless e` : no table, no budget taken, and no section that depends on anything;
* `Draft.idle_ofFields` : drafting a section leaves such an encoder as it is;
* `Operation.Cancels stream` : the operation reports that a stream is cancelled;
* `Rests` : an outcome that leaves an encoder without a table, and the queues that are not cancelled alone;
* `TakesCancellations` : which of several reports are taken, and what they leave outstanding;
* `Transmission.Independent` : the octets of a section that needs no insertion;
* `Queues`, `Tableless.queues` : each operation is silent, and queues what it sends;
* `Unawaited`, `unawaited_run` : the common settings without a table, after any operations;
* `not_given_up` : their sections do stay on their streams.
-/

namespace Qpack

/-! ## Tables without entries or capacity -/

namespace DynamicTable

theorem drain_empty (percent : Nat) : (empty percent).drain = (empty percent, none) := drain_eq_self rfl rfl

theorem canReference_empty (percent index : Nat) : (empty percent).canReference index = false := by
  have hentry : entry? (empty percent) index = none := by
    unfold entry?
    split <;> rfl
  unfold canReference contains
  rw [hentry]
  rfl

end DynamicTable

namespace Encoder
variable {e : Encoder} {f : Field} {stream id : Nat} {op : Operation} {ops : List Operation}
  {fields : List Field} {octets : Octets}

/-- An encoder whose peer allows no table, as operations leave it. -/
structure Tableless (e : Encoder) : Prop where
  sound : Sound e .empty
  maxCapacity : e.settings.maxTableCapacity = 0
  table : e.table = .empty e.settings.drainingPercent
  blocked : e.blocked = 0
  /-- The sections on their way depend on nothing. -/
  sections : ∀ s ∈ e.streams.sections, s = .empty

theorem tableless_new {settings : Settings} (h : settings.maxTableCapacity = 0) : Tableless (new settings) :=
  ⟨sound_new settings, h, rfl, rfl, by simp [new, Streams.sections]⟩

theorem Tableless.inserted (h : Tableless e) : e.table.inserted = 0 := by
  rw [h.table]
  rfl

theorem drain_of_table {percent : Nat} (h : e.table = .empty percent) : e.drain = (e, []) := by
  unfold drain
  rw [h, DynamicTable.drain_empty, ← h]
  rfl

theorem Tableless.drain_eq (h : Tableless e) : e.drain = (e, []) := drain_of_table h.table

/-- No field fits. -/
theorem Tableless.not_admits (h : Tableless e) (f : Field) : ¬ e.admits f = true := by
  intro ha
  have hfits := (admits_eq_true.1 ha).2
  have hsize := overhead_le_size f
  rw [h.table] at hfits
  exact absurd (hsize.trans hfits) (show ¬ 32 ≤ 0 by decide)

end Encoder

/-! ## Drafting -/

namespace Draft
open Encoder
variable {e : Encoder} {d : Draft}

/-- Nothing has come of a draft but lines. -/
structure Idle (e : Encoder) (d : Draft) : Prop where
  encoder : d.encoder = e
  sent : d.sent = .empty
  emitted : d.emitted = []

/-- There is no entry to take into use, and no room to insert one. -/
theorem kept_idle (h : Tableless e) : Kept (Idle e) where
  drain := by
    rintro d ⟨rfl, hsent, hemitted⟩
    refine ⟨?_, hsent, ?_⟩
    · exact congrArg Prod.fst h.drain_eq
    · unfold Draft.drain
      rw [h.drain_eq, hemitted]
      rfl
  insert := by
    rintro d f i ⟨rfl, -, -⟩ ha -
    exact absurd ha (h.not_admits f)
  refer := by
    rintro d d' entry hd hr
    rcases refer?_cases hr with ⟨_, -, rfl⟩ | ⟨index, -, hc, -⟩
    · exact hd
    · rw [hd.encoder, h.table, DynamicTable.canReference_empty] at hc
      cases hc
  line l hd := ⟨hd.encoder, hd.sent, hd.emitted⟩

theorem idle_ofFields (h : Tableless e) (fields : List Field) : Idle e (ofFields e fields) :=
  (kept_idle h).ofFields ⟨rfl, rfl, rfl⟩ fields

end Draft

/-! ## Operations -/

/-- Whether an operation reports that a stream is cancelled. -/
def Operation.Cancels (stream : Nat) : Operation → Prop
  | .receive report => report = .cancel stream
  | .feedback data => .cancel stream ∈ (Feedback.readAll data).1
  | _ => False

namespace Encoder
variable {e : Encoder} {f : Field} {stream id : Nat} {op : Operation} {ops : List Operation}
  {fields : List Field} {octets : Octets}

/-- What comes of an operation on `e` has no table either, is silent, and leaves the queues of the streams
alone that are not cancelled. -/
structure Rests {α : Type} (e : Encoder) (cancelled : Nat → Prop) (o : Outcome α) : Prop where
  tableless : Tableless o.encoder
  silent : o.emitted = []
  queue : ∀ stream, ¬ cancelled stream → o.encoder.streams.queue stream = e.streams.queue stream

theorem Tableless.rests_refuse {α : Type} (h : Tableless e) (cancelled : Nat → Prop) (error : Error) :
    Rests e cancelled (e.refuse error : Outcome α) :=
  ⟨h, rfl, fun _ _ => rfl⟩

theorem Rests.map {α β : Type} {cancelled : Nat → Prop} {o : Outcome α} (h : Rests e cancelled o) (g : α → β) :
    Rests e cancelled (o.map g) :=
  ⟨h.tableless, h.silent, h.queue⟩

/-- The only capacity that is not refused is the one in effect. -/
theorem Tableless.rests_setCapacity (h : Tableless e) (capacity : Nat) :
    Rests e (fun _ => False) (e.setCapacity capacity) := by
  unfold setCapacity
  split
  · exact h.rests_refuse _ _
  · next hle =>
    obtain rfl : capacity = 0 := by
      rw [h.maxCapacity] at hle
      exact Nat.eq_zero_of_not_pos hle
    have hrequest : e.table.requestCapacity 0 = (e.table, true) := by
      rw [h.table, DynamicTable.requestCapacity_empty]
      rfl
    rw [hrequest]
    exact ⟨h, by simp, fun _ _ => rfl⟩

theorem Tableless.insert_eq (h : Tableless e) (f : Field) : e.insert f = ⟨.ok false, e, []⟩ := by
  unfold Encoder.insert
  rw [h.drain_eq]
  exact if_neg (h.not_admits f)

/-! ## Reports -/

/-- No section is acknowledged, as none needs an insertion. -/
theorem Tableless.acknowledge_eq (h : Tableless e) (stream : Nat) :
    e.acknowledge stream = e.refuse (.unknownStream stream) := by
  have hnone : (e.streams.queue stream).acknowledge? = none := by
    rw [SentQueue.acknowledge?_eq_none_iff]
    intro s hs
    rw [h.sections s (Streams.queue_subset_sections _ _ hs)]
    rfl
  unfold acknowledge
  rw [hnone]

/-- There is no insertion to report. -/
theorem Tableless.increment_eq (h : Tableless e) (count : Nat) : ∃ error, e.increment count = e.refuse error := by
  unfold increment
  split
  · exact ⟨_, rfl⟩
  · next hpos =>
    rw [h.inserted, if_pos (by omega)]
    exact ⟨_, rfl⟩

/-- Sections that depend on nothing have nothing to give up. -/
theorem foldl_retire_empty {q : SentQueue} (h : ∀ s ∈ q, s = .empty) : q.foldl retire e = e := by
  induction q with
  | nil => rfl
  | cons s q ih =>
    obtain ⟨rfl, hq⟩ := List.forall_mem_cons.1 h
    exact ih hq

/-- There is nothing to cancel on a stream without sections. -/
theorem cancel_of_nil (h : e.streams.queue stream = []) : e.cancel stream = e.refuse (.unknownStream stream) := by
  unfold cancel
  rw [h]

/-- The sections of the stream are forgotten, and that is all. -/
theorem Tableless.cancel_eq (h : Tableless e) (hne : e.streams.queue stream ≠ []) :
    e.cancel stream = ⟨.ok (), { e with streams := e.streams.put stream [] }, []⟩ := by
  have hretire : (e.streams.queue stream).foldl retire { e with streams := e.streams.put stream [] } =
      { e with streams := e.streams.put stream [] } :=
    foldl_retire_empty fun s hs => h.sections s (Streams.queue_subset_sections _ _ hs)
  unfold cancel
  split
  · next hnil => exact absurd hnil hne
  · dsimp only
    rw [hretire, drain_of_table (e := { e with streams := e.streams.put stream [] }) h.table]

theorem Tableless.rests_cancel (h : Tableless e) (stream : Nat) : Rests e (· = stream) (e.cancel stream) := by
  by_cases hq : e.streams.queue stream = []
  · rw [cancel_of_nil hq]
    exact h.rests_refuse _ _
  · have hsound := (steps_cancel h.sound stream).sound h.sound
    rw [h.cancel_eq hq] at hsound ⊢
    refine ⟨⟨hsound, h.maxCapacity, h.table, h.blocked, fun s hs => h.sections s ?_⟩, rfl, fun id hid => ?_⟩
    · have hperm := Streams.sections_put_perm e.streams stream []
      rw [List.append_nil] at hperm
      exact hperm.subset (List.mem_append_left _ hs)
    · exact Streams.queue_put_of_ne _ (Ne.symm hid) []

theorem Tableless.rests_receive (h : Tableless e) (report : Feedback) :
    Rests e (report = .cancel ·) (e.receive report) := by
  cases report with
  | acknowledge stream =>
    show Rests e _ (e.acknowledge stream)
    rw [h.acknowledge_eq stream]
    exact h.rests_refuse _ _
  | cancel stream =>
    have hcancel := h.rests_cancel stream
    exact ⟨hcancel.tableless, hcancel.silent, fun id hid => hcancel.queue id fun heq => hid (by rw [heq])⟩
  | increment count =>
    obtain ⟨error, herror⟩ := h.increment_eq count
    show Rests e _ (e.increment count)
    rw [herror]
    exact h.rests_refuse _ _

/-- Each report finds an encoder without a table again, whether the one before it was accepted or not. -/
theorem Tableless.rests_receiveAll (h : Tableless e) (items : List Feedback) :
    Rests e (.cancel · ∈ items) (e.receiveAll items) := by
  induction items generalizing e with
  | nil => exact ⟨h, rfl, fun _ _ => rfl⟩
  | cons item rest ih =>
    have hnow := h.rests_receive item
    have hlater := ih hnow.tableless
    have hqueue : ∀ stream, ¬ Feedback.cancel stream ∈ item :: rest →
        (e.receive item).encoder.streams.queue stream = e.streams.queue stream ∧
        ((e.receive item).encoder.receiveAll rest).encoder.streams.queue stream = e.streams.queue stream := by
      intro stream hstream
      rw [List.mem_cons, not_or] at hstream
      have hkept := hnow.queue stream (Ne.symm hstream.1)
      exact ⟨hkept, (hlater.queue stream hstream.2).trans hkept⟩
    unfold receiveAll
    dsimp only
    split
    · exact ⟨hnow.tableless, hnow.silent, fun stream hs => (hqueue stream hs).1⟩
    · refine ⟨hlater.tableless, ?_, fun stream hs => (hqueue stream hs).2⟩
      dsimp only
      rw [hnow.silent, hlater.silent, List.append_nil]

theorem Tableless.rests_feedback (h : Tableless e) (data : Octets) :
    Rests e (.cancel · ∈ (Feedback.readAll data).1) (e.feedback data) := by
  have hall := h.rests_receiveAll (Feedback.readAll data).1
  unfold feedback
  dsimp only
  split <;> exact ⟨hall.tableless, hall.silent, hall.queue⟩

/-- A stream that is cancelled has nothing outstanding. -/
theorem Tableless.outstanding_cancel (h : Tableless e) (stream : Nat) :
    (e.cancel stream).encoder.outstanding stream = 0 := by
  unfold outstanding
  by_cases hq : e.streams.queue stream = []
  · rw [cancel_of_nil hq]
    exact congrArg List.length hq
  · rw [h.cancel_eq hq]
    exact congrArg List.length (h.sound.distinct.queue_put_self stream [])

/-- Of the reports `items`, those at the front are taken that cancel streams with something outstanding. They lead
from `e` to `e'`, and empty the queues of these streams. -/
structure TakesCancellations (e : Encoder) (items : List Feedback) (e' : Encoder) (cancelled : List Nat) : Prop where
  taken : cancelled.map .cancel <+: items
  had : ∀ stream ∈ cancelled, e.outstanding stream ≠ 0
  left : ∀ stream, e'.outstanding stream = if stream ∈ cancelled then 0 else e.outstanding stream
  /-- If the report behind them is a cancellation, too, its stream has nothing outstanding any more. -/
  stops : ∀ stream, cancelled.map .cancel ++ [.cancel stream] <+: items → e'.outstanding stream = 0

/-- Any other report is refused, and so is a cancellation where nothing is outstanding. -/
theorem Tableless.receive_cases (h : Tableless e) (report : Feedback) :
    (∃ stream, report = .cancel stream ∧ e.outstanding stream ≠ 0 ∧ (e.receive report).result = .ok ()) ∨
      (∃ error, e.receive report = e.refuse error) ∧ ∀ stream, report = .cancel stream → e.outstanding stream = 0 := by
  cases report with
  | acknowledge stream => exact Or.inr ⟨⟨_, h.acknowledge_eq stream⟩, fun _ heq => nomatch heq⟩
  | increment count => exact Or.inr ⟨h.increment_eq count, fun _ heq => nomatch heq⟩
  | cancel stream =>
    by_cases hq : e.streams.queue stream = []
    · refine Or.inr ⟨⟨_, cancel_of_nil hq⟩, fun id heq => ?_⟩
      obtain rfl := Feedback.cancel.inj heq
      exact congrArg List.length hq
    · refine Or.inl ⟨stream, rfl, fun hzero => hq (List.length_eq_zero_iff.1 hzero), ?_⟩
      exact congrArg Outcome.result (h.cancel_eq hq)

/-- A cancellation that is taken leaves the others to an encoder without a table again. -/
theorem TakesCancellations.cons {e₁ e₂ : Encoder} {items : List Feedback} {cancelled : List Nat}
    (h : TakesCancellations e₁ items e₂ cancelled) (hhad : e.outstanding stream ≠ 0)
    (hnow : e₁.outstanding stream = 0) (hother : ∀ id ≠ stream, e₁.outstanding id = e.outstanding id) :
    TakesCancellations e (.cancel stream :: items) e₂ (stream :: cancelled) where
  taken := (List.prefix_cons_inj _).2 h.taken
  had := by
    rw [List.forall_mem_cons]
    refine ⟨hhad, fun id hid => ?_⟩
    have hid' := h.had id hid
    rwa [hother id fun heq => hid' (heq ▸ hnow)] at hid'
  left id := by
    rw [h.left]
    by_cases hid : id = stream
    · rw [hid, hnow, ite_self, if_pos List.mem_cons_self]
    · rw [hother id hid]
      simp only [List.mem_cons, hid, false_or]
  stops id hprefix := h.stops id ((List.prefix_cons_inj _).1 hprefix)

/-- Several reports are taken up to the first that is no cancellation, or one where nothing is outstanding. -/
theorem Tableless.exists_cancelled (h : Tableless e) (items : List Feedback) :
    ∃ cancelled, TakesCancellations e items (e.receiveAll items).encoder cancelled := by
  induction items generalizing e with
  | nil => exact ⟨[], List.prefix_rfl, fun _ hs => absurd hs List.not_mem_nil, fun _ => rfl, by simp⟩
  | cons item rest ih =>
    rcases h.receive_cases item with ⟨stream, rfl, hhad, hok⟩ | ⟨⟨error, hrefused⟩, hnothing⟩
    · have hrests := h.rests_cancel stream
      obtain ⟨cancelled, hlater⟩ := ih hrests.tableless
      have hall : (e.receiveAll (.cancel stream :: rest)).encoder =
          ((e.cancel stream).encoder.receiveAll rest).encoder := by
        rw [receiveAll_eq_andThen, Outcome.andThen_of_ok hok]
        rfl
      rw [hall]
      exact ⟨_, hlater.cons hhad (h.outstanding_cancel stream) fun id hid => congrArg List.length (hrests.queue id hid)⟩
    · have hall : (e.receiveAll (item :: rest)).encoder = e := by
        rw [receiveAll_eq_andThen, hrefused]
        rfl
      rw [hall]
      refine ⟨[], List.nil_prefix, fun _ hs => absurd hs List.not_mem_nil, fun _ => rfl, fun stream hprefix => ?_⟩
      exact hnothing stream (List.cons_prefix_cons.1 hprefix).1.symm

/-- Octets do what the reports in them do. -/
theorem encoder_feedback (e : Encoder) (data : Octets) :
    (e.feedback data).encoder = (e.receiveAll (Feedback.readAll data).1).encoder := by
  unfold feedback
  dsimp only
  split <;> rfl

/-! ## Sections -/

/-- A section that depends on nothing is sent, and nothing else changes. -/
theorem Tableless.encode_eq (h : Tableless e) (hname : e.refusedName? fields = none) (stream : Nat) :
    e.encode stream fields = ⟨.ok (Draft.ofFields e fields).octets, e.send stream .empty, []⟩ := by
  have hidle := Draft.idle_ofFields h fields
  rw [Encoder.encode_eq hname, hidle.encoder, hidle.sent, hidle.emitted]

theorem Tableless.send (h : Tableless e) (stream : Nat) : Tableless (e.send stream .empty) := by
  refine ⟨h.sound.send stream, h.maxCapacity, h.table, h.blocked, fun s hs => ?_⟩
  rcases mem_sections_send hs with hs | rfl
  · exact h.sections s hs
  · rfl

end Encoder

/-- The head of the section says that no insertion is needed, and no line refers to a dynamic entry. -/
def Transmission.Independent (x : Transmission) : Prop :=
  ∃ lines : List FieldLine, x.octets = [0, 0] ++ lines.flatMap (FieldLine.write 0) ∧
    (∀ l ∈ lines, l.index? = none) ∧
    lines.mapM (FieldLine.meaning? fun _ : Nat => none) = some x.fields

namespace Encoder
variable {e : Encoder} {op : Operation} {ops : List Operation}

theorem Tableless.independent_ofFields (h : Tableless e) (fields : List Field) :
    Transmission.Independent ⟨fields, (Draft.ofFields e fields).octets⟩ := by
  have hidle := Draft.idle_ofFields h fields
  obtain ⟨-, hsays⟩ := Draft.says_ofFields h.sound fields
  have hhead := Draft.requiredInsertCount_ofFields h.sound fields
  have hnone : ∀ l ∈ (Draft.ofFields e fields).lines, l.index? = none := by
    have hrefs := hsays.references
    rw [hidle.sent] at hrefs
    exact List.filterMap_eq_nil_iff.1 hrefs.symm
  refine ⟨(Draft.ofFields e fields).lines, ?_, hnone, ?_⟩
  · unfold Draft.octets Draft.head
    rw [hhead, hidle.sent, hidle.encoder, h.inserted, h.maxCapacity]
    rfl
  · rw [← hsays.means]
    apply FieldLine.mapM_meaning?_congr
    intro i hi
    rw [List.filterMap_eq_nil_iff.2 hnone] at hi
    cases hi

/-- An operation is silent, and what it sends is queued on its stream, with nothing taken off the queues of
the streams that it does not cancel. -/
structure Queues (e : Encoder) (op : Operation) : Prop where
  tableless : Tableless (e.perform op).encoder
  silent : (e.perform op).emitted = []
  independent : ∀ stream, ∀ x ∈ e.transmitted stream op, x.Independent
  outstanding : ∀ stream, ¬ op.Cancels stream →
    (e.perform op).encoder.outstanding stream = e.outstanding stream + (e.transmitted stream op).length

theorem Rests.queues (h : Rests e (op.Cancels ·) (e.perform op)) (hnone : ∀ stream, e.transmitted stream op = []) :
    Queues e op := by
  refine ⟨h.tableless, h.silent, fun stream x hx => ?_, fun stream hc => ?_⟩
  · rw [hnone stream] at hx
    cases hx
  · rw [hnone stream]
    exact congrArg List.length (h.queue stream hc)

theorem Tableless.queues_encode (h : Tableless e) (id : Nat) (fields : List Field) :
    Queues e (.encode id fields) := by
  rcases hname : e.refusedName? fields with _ | f
  · have hencode := h.encode_eq hname id
    have hperform : e.perform (.encode id fields) =
        ⟨.ok (.encoded (Draft.ofFields e fields).octets), e.send id .empty, []⟩ := by
      show (e.encode id fields).map Reply.encoded = _
      rw [hencode]
      rfl
    have hsent : ∀ stream, e.transmitted stream (.encode id fields) =
        if id = stream then [⟨fields, (Draft.ofFields e fields).octets⟩] else [] := by
      intro stream
      rw [transmitted, hencode]
    refine ⟨?_, ?_, fun stream x hx => ?_, fun stream _ => ?_⟩
    · rw [hperform]
      exact h.send id
    · rw [hperform]
    · rw [hsent stream] at hx
      split at hx
      · rw [List.mem_singleton.1 hx]
        exact h.independent_ofFields fields
      · cases hx
    · rw [hperform, hsent stream]
      unfold outstanding
      by_cases hid : id = stream
      · subst hid
        rw [if_pos rfl, queue_send_self, List.length_append]
        rfl
      · rw [if_neg hid, queue_send_of_ne e hid]
        rfl
  · have hrefused : e.encode id fields = e.refuse (.invalidFieldName id (Text.decodeLossy f.name)) := by
      unfold encode
      rw [hname]
    refine Rests.queues ?_ fun stream => ?_
    · show Rests e _ ((e.encode id fields).map Reply.encoded)
      rw [hrefused]
      exact (h.rests_refuse _ _).map _
    · rw [transmitted, hrefused]
      rfl

theorem Tableless.queues (h : Tableless e) (op : Operation) : Queues e op := by
  cases op with
  | setCapacity capacity => exact ((h.rests_setCapacity capacity).map _).queues fun _ => rfl
  | encode id fields => exact h.queues_encode id fields
  | insert f =>
    refine Rests.queues ?_ fun _ => rfl
    show Rests e _ ((e.insert f).map Reply.inserted)
    rw [h.insert_eq f]
    exact ⟨h, rfl, fun _ _ => rfl⟩
  | receive report => exact ((h.rests_receive report).map _).queues fun _ => rfl
  | feedback data => exact ((h.rests_feedback data).map _).queues fun _ => rfl
  | setValidation validate =>
    refine Rests.queues ⟨?_, rfl, fun _ _ => rfl⟩ fun _ => rfl
    exact ⟨h.sound.perform (.setValidation validate), h.maxCapacity, h.table, h.blocked, h.sections⟩
  | setPolicy policy =>
    refine Rests.queues ⟨?_, rfl, fun _ _ => rfl⟩ fun _ => rfl
    exact ⟨h.sound.perform (.setPolicy policy), h.maxCapacity, h.table, h.blocked, h.sections⟩

/-! ## Runs -/

theorem Tableless.run (h : Tableless e) (ops : List Operation) :
    Tableless (e.run ops).1 ∧ (e.run ops).2 = [] := by
  induction ops generalizing e with
  | nil => exact ⟨h, rfl⟩
  | cons op rest ih =>
    have hnow := h.queues op
    obtain ⟨hafter, hlater⟩ := ih hnow.tableless
    refine ⟨hafter, ?_⟩
    show (e.perform op).emitted ++ ((e.perform op).encoder.run rest).2 = []
    rw [hnow.silent, hlater]
    rfl

theorem Tableless.independent_transmissions (h : Tableless e) (ops : List Operation) (stream : Nat) :
    ∀ x ∈ e.transmissions stream ops, x.Independent := by
  induction ops generalizing e with
  | nil => exact fun x hx => absurd hx List.not_mem_nil
  | cons op rest ih =>
    intro x hx
    rcases List.mem_append.1 hx with hx | hx
    · exact (h.queues op).independent stream x hx
    · exact ih (h.queues op).tableless x hx

/-- All that is sent on a stream stays outstanding until the stream is cancelled. -/
theorem Tableless.outstanding_run {stream : Nat} (h : Tableless e) (hops : ∀ op ∈ ops, ¬ op.Cancels stream) :
    (e.run ops).1.outstanding stream = e.outstanding stream + (e.transmissions stream ops).length := by
  induction ops generalizing e with
  | nil => rfl
  | cons op rest ih =>
    obtain ⟨hop, hrest⟩ := List.forall_mem_cons.1 hops
    have hnow := h.queues op
    have hlater := ih hnow.tableless hrest
    rw [hnow.outstanding stream hop] at hlater
    rw [transmissions, List.length_append, ← Nat.add_assoc]
    exact hlater

/-- What holds of the common settings without a table after some operations. -/
structure Unawaited (ops : List Operation) : Prop where
  /-- The settings can be used. -/
  usable : ofSettings .staticOnly = .ok (new .staticOnly)
  silent : ((new .staticOnly).run ops).2 = []
  table : ((new .staticOnly).run ops).1.table = .empty 25
  blocked : ((new .staticOnly).run ops).1.blocked = 0
  /-- No section on its way needs an insertion. -/
  sections : ∀ s ∈ ((new .staticOnly).run ops).1.streams.sections, s = .empty
  /-- Nor did any that was sent. -/
  independent : ∀ stream, ∀ x ∈ (new .staticOnly).transmissions stream ops, x.Independent
  /-- No acknowledgment is accepted. -/
  acknowledge : ∀ stream, ((new .staticOnly).run ops).1.acknowledge stream =
    ((new .staticOnly).run ops).1.refuse (.unknownStream stream)
  /-- What is outstanding on a stream is all that was sent on it since it was last cancelled. -/
  outstanding : ∀ stream done more, ops = done ++ more → (∀ op ∈ more, ¬ op.Cancels stream) →
    ((new .staticOnly).run ops).1.outstanding stream =
      ((new .staticOnly).run done).1.outstanding stream +
        (((new .staticOnly).run done).1.transmissions stream more).length
  cancel : ∀ stream, (((new .staticOnly).run ops).1.cancel stream).encoder.outstanding stream = 0
  /-- Nor has one whose cancellation is read from octets, unless a report in front of it is refused. -/
  feedback : ∀ data, ∃ cancelled, TakesCancellations ((new .staticOnly).run ops).1 (Feedback.readAll data).1
    (((new .staticOnly).run ops).1.feedback data).encoder cancelled

theorem unawaited_run (ops : List Operation) : Unawaited ops := by
  have hnew : Tableless (new .staticOnly) := tableless_new rfl
  obtain ⟨hafter, hsilent⟩ := hnew.run ops
  have hsettings := settings_run hnew.sound ops
  refine
    { usable := rfl
      silent := hsilent
      table := ?_
      blocked := hafter.blocked
      sections := hafter.sections
      independent := hnew.independent_transmissions ops
      acknowledge := hafter.acknowledge_eq
      outstanding := ?_
      cancel := hafter.outstanding_cancel
      feedback := fun data => ?_ }
  · rw [hafter.table, hsettings]
    rfl
  · rintro stream done more rfl hmore
    rw [run_append]
    exact (hnew.run done).1.outstanding_run hmore
  · rw [encoder_feedback]
    exact hafter.exists_cancelled (Feedback.readAll data).1

/-- A section does not leave with the call that sends it: after one with a single static line, its stream has
one outstanding. -/
theorem not_given_up :
    ¬ ∀ (ops : List Operation) (stream : Nat) (fields : List Field) (octets : Octets),
      (((new .staticOnly).run ops).1.encode stream fields).result = .ok octets →
      ∀ id, (((new .staticOnly).run ops).1.encode stream fields).encoder.outstanding id = 0 := by
  intro hclaim
  have hzero := hclaim [] 0 [⟨[58, 109, 101, 116, 104, 111, 100], [71, 69, 84]⟩] [0, 0, 209] (by decide +kernel) 0
  have hone : (((new .staticOnly).run []).1.encode 0
      [⟨[58, 109, 101, 116, 104, 111, 100], [71, 69, 84]⟩]).encoder.outstanding 0 = 1 := by decide +kernel
  rw [hone] at hzero
  cases hzero

end Encoder
end Qpack
