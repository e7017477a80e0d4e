import Qpack.Proofs.Peer.Ledger

/-!
# What a peer reports is accepted

The encoder and its peer see the reports at different times, and each of them goes on in the meantime: the
encoder sends sections on streams that the peer has cancelled, the peer decodes sections that need
nothing and says nothing about them. All reports on their way, applied to what the encoder holds now, give
what the peer holds now.

* `Lane.outstanding` : what the peer has left of a stream;
* `Exchange.Aligned` : the reports on their way lead from the encoder to the peer;
* `Aligned.step`, `Aligned.run` : whatever happens next, they do;
* `Exchange.Agrees`, `Reachable.agrees` : the encoder accepts every report, and counts with the peer.
-/

namespace Qpack

/-! ## Both ends -/

/-- What the peer has left of a stream, on its way or decoded since the last acknowledgement. -/
def Lane.outstanding (l : Lane) : List Nat := List.replicate l.passed 0 ++ l.waiting ++ l.travelling

theorem Lane.outstanding_send (l : Lane) (required : Nat) :
    (l.send required).outstanding = l.outstanding ++ [required] :=
  (List.append_assoc _ _ _).symm

/-- What was decoded before without an acknowledgement needs nothing. -/
theorem Lane.firstNeeding_outstanding {l : Lane} {required : Nat} {rest : List Nat}
    (hw : l.waiting = required :: rest) (hpos : 0 < required) :
    firstNeeding l.outstanding = some (required, rest ++ l.travelling) := by
  unfold outstanding
  rw [hw, List.append_assoc]
  exact firstNeeding_replicate _ hpos _

theorem Lane.outstanding_ne_nil {l : Lane} (h : l.mayCancel = true) : l.outstanding ≠ [] := by
  unfold mayCancel at h
  unfold outstanding
  intro hnil
  rw [Bool.and_eq_true, Bool.or_eq_true, decide_eq_true_eq] at h
  simp only [List.append_eq_nil_iff, List.replicate_eq_nil_iff] at hnil
  rcases h.2 with hpassed | hwaiting
  · omega
  · simp [hnil.1.2] at hwaiting

namespace Exchange
variable {x y : Exchange} {stream : Nat}

@[simp] theorem lanes_setLane_self (x : Exchange) (stream : Nat) (lane : Lane) :
    (x.setLane stream lane).lanes stream = lane := if_pos rfl

@[simp] theorem lanes_setLane_of_ne (x : Exchange) {id : Nat} (h : id ≠ stream) (lane : Lane) :
    (x.setLane stream lane).lanes id = x.lanes id := if_neg h

/-- The ledger as the peer has it. What it has cancelled is of no interest to it. -/
structure Holds (x : Exchange) (l : Ledger) : Prop where
  known : l.known = x.known
  queues : ∀ stream, (x.lanes stream).cancelled = false → l.queues stream = (x.lanes stream).outstanding

/-- The reports on their way lead from what the encoder holds to what the peer holds, and the instructions
on their way from the insertions of the peer to those of the encoder. -/
structure Aligned (x : Exchange) : Prop where
  sound : x.encoder.Sound .empty
  applied : x.applied + x.instructions.countP Instruction.inserts = x.encoder.table.inserted
  known_le : x.known ≤ x.applied
  heard_le : x.heard ≤ x.told.length
  known_heard : x.encoder.known = x.knownAt x.heard
  cancelled : ∀ stream known, (Feedback.cancel stream, known) ∈ x.told → (x.lanes stream).cancelled = true
  heeds : ∃ l, Ledger.HeedsAll x.encoder.ledger (x.told.drop x.heard) l ∧ Holds x l

/-- Another lane for a stream, and the queue that goes with it. -/
theorem Holds.lane {l l' : Ledger} (h : Holds x l) (stream : Nat) {lane : Lane}
    (hlanes : y.lanes = (x.setLane stream lane).lanes) (hknown : l'.known = y.known)
    (hother : ∀ id, id ≠ stream → l'.queues id = l.queues id)
    (hself : lane.cancelled = false → l'.queues stream = lane.outstanding) : Holds y l' := by
  refine ⟨hknown, fun id hid => ?_⟩
  rw [hlanes] at hid ⊢
  by_cases heq : id = stream
  · subst heq
    rw [lanes_setLane_self] at hid ⊢
    exact hself hid
  · rw [lanes_setLane_of_ne x heq] at hid ⊢
    exact (hother id heq).trans (h.queues id hid)

theorem cancelled_setLane (x : Exchange) (stream : Nat) (lane : Lane)
    (hc : (x.lanes stream).cancelled = true → lane.cancelled = true) {id : Nat}
    (hid : (x.lanes id).cancelled = true) : ((x.setLane stream lane).lanes id).cancelled = true := by
  by_cases heq : id = stream
  · subst heq
    rw [lanes_setLane_self]
    exact hc hid
  · rwa [lanes_setLane_of_ne x heq]

theorem aligned_start (settings : Settings) : Aligned (start (.new settings)) := by
  refine ⟨Encoder.sound_new settings, rfl, Nat.le_refl 0, Nat.le_refl 0, rfl, fun _ _ h => ?_, ?_⟩
  · cases h
  · exact ⟨_, Ledger.HeedsAll.nil _, rfl, fun _ _ => rfl⟩

/-! ## What the encoder does -/

theorem Aligned.operate (h : Aligned x) {op : Operation} (hop : op.isOwn = true) : Aligned (x.operate op) := by
  have hsound := h.sound.perform op
  have happlied : x.applied + (x.instructions ++ (x.encoder.perform op).emitted).countP Instruction.inserts =
      (x.encoder.perform op).encoder.table.inserted := by
    rw [Encoder.inserted_perform h.sound op, List.countP_append, ← h.applied, Nat.add_assoc]
  obtain ⟨l, hl, hholds⟩ := h.heeds
  unfold Exchange.operate
  rcases Encoder.ledger_perform h.sound hop with ⟨hsends, hledger⟩ | ⟨stream, required, hsends, hledger⟩
  · rw [hsends]
    have hknown := (congrArg Ledger.known hledger).trans h.known_heard
    rw [← hledger] at hl
    exact ⟨hsound, happlied, h.known_le, h.heard_le, hknown, h.cancelled, l, hl, hholds.known, hholds.queues⟩
  · rw [hsends]
    have hknown := (congrArg Ledger.known hledger).trans h.known_heard
    have hlater := hl.send stream required
    rw [← hledger] at hlater
    refine ⟨hsound, happlied, h.known_le, h.heard_le, hknown, fun id known hmem => ?_, ?_⟩
    · exact cancelled_setLane x stream ((x.lanes stream).send required) (fun hc => hc) (h.cancelled id known hmem)
    · rcases hlater with hlater | ⟨⟨known, hmem⟩, hlater⟩
      · -- the section is the newest of its stream at both ends
        refine ⟨_, hlater, hholds.lane stream rfl hholds.known (fun id hid => ?_) fun hc => ?_⟩
        · exact Ledger.queues_send_of_ne l hid required
        · rw [Lane.outstanding_send, ← hholds.queues stream hc]
          exact Ledger.queues_send_self l stream required
      · -- the peer has cancelled the stream, and the encoder will hear of it
        refine ⟨l, hlater, hholds.lane stream rfl hholds.known (fun _ _ => rfl) fun hc => ?_⟩
        have hcancelled := h.cancelled stream known (List.mem_of_mem_drop hmem)
        rw [show (x.lanes stream).cancelled = false from hc] at hcancelled
        cases hcancelled

/-- The next report can be meant by what the encoder holds. -/
theorem Aligned.next (h : Aligned x) {report : Feedback} {known : Nat}
    (htold : x.told[x.heard]? = some (report, known)) :
    ∃ l l', Ledger.Heeds x.encoder.ledger report l ∧ l.known = known ∧ known ≤ x.encoder.table.inserted ∧
      Ledger.HeedsAll l (x.told.drop (x.heard + 1)) l' ∧ Holds x l' := by
  obtain ⟨l', hl, hholds⟩ := h.heeds
  rw [List.drop_eq_getElem?_toList_append, htold] at hl
  cases hl with
  | cons hnow hk hlater =>
    refine ⟨_, l', hnow, hk, ?_, hlater, hholds⟩
    have hle := hlater.known_le
    have hknown := hholds.known
    have happlied := h.applied
    have hpeer := h.known_le
    omega

theorem Aligned.accepts (h : Aligned x) {report : Feedback} {known : Nat}
    (htold : x.told[x.heard]? = some (report, known)) : (x.encoder.receive report).result = .ok () := by
  obtain ⟨l, -, hnow, rfl, hle, -, -⟩ := h.next htold
  exact (Encoder.receive_of_heeds h.sound hnow hle).1

theorem Aligned.hear? (h : Aligned x) (hy : x.hear? = some y) : Aligned y := by
  obtain ⟨⟨report, known⟩, htold, rfl⟩ := Option.map_eq_some_iff.1 hy
  obtain ⟨l, l', hnow, rfl, hle, hlater, hholds⟩ := h.next htold
  obtain ⟨-, hledger⟩ := Encoder.receive_of_heeds h.sound hnow hle
  have hinserted := Encoder.inserted_perform h.sound (.receive report)
  rw [← hledger] at hlater
  refine ⟨h.sound.perform (.receive report), ?_, h.known_le, ?_, ?_, h.cancelled, l', hlater, hholds.known,
    hholds.queues⟩
  · show x.applied + (x.instructions ++ (x.encoder.receive report).emitted).countP Instruction.inserts = _
    rw [List.countP_append, ← Nat.add_assoc, h.applied]
    exact hinserted.symm
  · exact (List.getElem?_eq_some_iff.1 htold).1
  · show (x.encoder.receive report).encoder.ledger.known = ((x.told.take (x.heard + 1)).map Prod.snd).getLastD 0
    rw [hledger, List.take_add_one, htold]
    simp

/-! ## What the peer does -/

theorem Aligned.follow? (h : Aligned x) (hy : x.follow? = some y) : Aligned y := by
  unfold Exchange.follow? at hy
  split at hy
  · cases hy
  · next i rest hout =>
    obtain rfl := Option.some.inj hy
    obtain ⟨l, hl, hholds⟩ := h.heeds
    have happlied := h.applied
    rw [hout, List.countP_cons] at happlied
    refine ⟨h.sound, ?_, Nat.le_add_right_of_le h.known_le, h.heard_le, h.known_heard, h.cancelled, l, hl,
      hholds.known, hholds.queues⟩
    dsimp only
    omega

/-- A section that needs nothing changes its place in a lane, and nothing else. -/
theorem Aligned.setLane {lane : Lane} (h : Aligned x) (hc : lane.cancelled = (x.lanes stream).cancelled)
    (ho : lane.outstanding = (x.lanes stream).outstanding) : Aligned (x.setLane stream lane) := by
  obtain ⟨l, hl, hholds⟩ := h.heeds
  refine ⟨h.sound, h.applied, h.known_le, h.heard_le, h.known_heard, fun id known hmem => ?_, l, hl, ?_⟩
  · exact cancelled_setLane x stream lane (fun hcancelled => hc.trans hcancelled) (h.cancelled id known hmem)
  · refine hholds.lane stream rfl hholds.known (fun _ _ => rfl) fun hlane => ?_
    rw [ho]
    exact hholds.queues stream (hc.symm.trans hlane)

theorem Aligned.arrive? (h : Aligned x) (hy : x.arrive? stream = some y) : Aligned y := by
  unfold Exchange.arrive? at hy
  dsimp only at hy
  split at hy
  · cases hy
  · next required rest htravelling =>
    obtain rfl := Option.some.inj hy
    refine h.setLane rfl ?_
    unfold Lane.outstanding
    rw [htravelling]
    simp

/-- A report that can be meant by what the peer holds joins those on their way. -/
theorem Aligned.report {report : Feedback} {known : Nat} {lanes : Nat → Lane} (h : Aligned x)
    (hle : known ≤ x.applied) (hc : ∀ id, (x.lanes id).cancelled = true → (lanes id).cancelled = true)
    (hcancel : ∀ id, report = .cancel id → (lanes id).cancelled = true)
    (hheeds : ∀ l, Holds x l → ∃ l', Ledger.Heeds l report l' ∧
      Holds (({ x with lanes } : Exchange).report report known) l') :
    Aligned (({ x with lanes } : Exchange).report report known) := by
  obtain ⟨l, hl, hholds⟩ := h.heeds
  obtain ⟨l', hl', hholds'⟩ := hheeds l hholds
  refine ⟨h.sound, h.applied, hle, ?_, ?_, fun id k hmem => ?_, l', ?_, hholds'⟩
  · show x.heard ≤ (x.told ++ [(report, known)]).length
    rw [List.length_append]
    exact Nat.le_add_right_of_le h.heard_le
  · show x.encoder.known = (((x.told ++ [(report, known)]).take x.heard).map Prod.snd).getLastD 0
    rw [List.take_append_of_le_length h.heard_le]
    exact h.known_heard
  · rcases List.mem_append.1 hmem with hmem | hmem
    · exact hc id (h.cancelled id k hmem)
    · exact hcancel id (Prod.mk.inj (List.mem_singleton.1 hmem)).1.symm
  · show Ledger.HeedsAll x.encoder.ledger ((x.told ++ [(report, known)]).drop x.heard) l'
    rw [List.drop_append_of_le_length h.heard_le, ← show l'.known = known from hholds'.known]
    exact hl.concat hl'

theorem Aligned.decode? (h : Aligned x) (hy : x.decode? stream = some y) : Aligned y := by
  unfold Exchange.decode? at hy
  dsimp only at hy
  split at hy
  · cases hy
  · next required rest hwaiting =>
    split at hy
    · cases hy
    · next hready =>
      rw [Bool.or_eq_true, not_or, decide_eq_true_eq, Bool.not_eq_true] at hready
      split at hy
      · next hzero =>
        obtain rfl := Option.some.inj hy
        refine h.setLane rfl ?_
        unfold Lane.outstanding
        rw [hwaiting, hzero, List.replicate_succ']
        simp
      · next hpos =>
        obtain rfl := Option.some.inj hy
        refine h.report (Nat.max_le.2 ⟨h.known_le, Nat.le_of_not_lt hready.2⟩)
          (fun _ => cancelled_setLane x stream ⟨_, rest, 0, _⟩ fun hc => hc) (fun _ hr => by cases hr) ?_
        intro l hl
        have hfirst := Lane.firstNeeding_outstanding hwaiting (Nat.pos_of_ne_zero hpos)
        rw [← hl.queues stream hready.1] at hfirst
        refine ⟨_, Ledger.Heeds.acknowledge hfirst, hl.lane stream rfl ?_ (fun id hid => ?_) fun _ => ?_⟩
        · exact congrArg (max · required) hl.known
        · exact Ledger.queues_put_of_ne l hid _
        · exact Ledger.queues_put_self l stream _

theorem Aligned.increment? {count : Nat} (h : Aligned x) (hy : x.increment? count = some y) : Aligned y := by
  unfold Exchange.increment? at hy
  split at hy
  · next hcount =>
    obtain rfl := Option.some.inj hy
    refine h.report hcount.2 (fun _ hc => hc) (fun _ hr => by cases hr) ?_
    intro l hl
    refine ⟨_, Ledger.Heeds.increment hcount.1, ?_, hl.queues⟩
    show max l.known (l.known + count) = x.known + count
    rw [Nat.max_eq_right (Nat.le_add_right _ _), hl.known]
  · cases hy

theorem Aligned.cancel? (h : Aligned x) (hy : x.cancel? stream = some y) : Aligned y := by
  unfold Exchange.cancel? at hy
  split at hy
  · next hmay =>
    obtain rfl := Option.some.inj hy
    refine h.report h.known_le (fun _ => cancelled_setLane x stream ⟨_, _, _, true⟩ fun _ => rfl)
      (fun id hr => ?_) ?_
    · cases hr
      exact congrArg Lane.cancelled (lanes_setLane_self x stream _)
    · intro l hl
      have hopen : (x.lanes stream).cancelled = false := by
        unfold Lane.mayCancel at hmay
        rw [Bool.and_eq_true, Bool.not_eq_true'] at hmay
        exact hmay.1
      have hne : l.queues stream ≠ [] := by
        rw [hl.queues stream hopen]
        exact Lane.outstanding_ne_nil hmay
      refine ⟨_, Ledger.Heeds.cancel hne, hl.lane stream rfl hl.known (fun id hid => ?_) fun hc => ?_⟩
      · exact Ledger.queues_put_of_ne l hid _
      · cases hc
  · cases hy

/-! ## Any events -/

theorem Aligned.step (h : Aligned x) {event : Event} (hy : x.step? event = some y) : Aligned y := by
  cases event with
  | operate op =>
    obtain ⟨hop, hy⟩ := Option.ite_none_right_eq_some.1 hy
    obtain rfl := Option.some.inj hy
    exact h.operate hop
  | follow => exact h.follow? hy
  | arrive stream => exact h.arrive? hy
  | decode stream => exact h.decode? hy
  | increment count => exact h.increment? hy
  | cancel stream => exact h.cancel? hy
  | hear => exact h.hear? hy

theorem Aligned.run (h : Aligned x) {events : List Event} (hy : x.run? events = some y) : Aligned y := by
  induction events generalizing x with
  | nil =>
    obtain rfl := Option.some.inj hy
    exact h
  | cons event rest ih =>
    unfold run? at hy
    rw [List.foldlM_cons] at hy
    obtain ⟨z, hz, hy⟩ := Option.bind_eq_some_iff.1 hy
    exact ih (h.step hz) hy

theorem Reachable.aligned (h : x.Reachable) : Aligned x := by
  obtain ⟨settings, e, events, he, hrun⟩ := h
  rw [Encoder.eq_new_of_ofSettings he] at hrun
  exact (aligned_start settings).run hrun

/-- Reports may be heard several at once. -/
theorem Aligned.acceptsAll (h : Aligned x) (n : Nat) :
    (x.encoder.receiveAll (((x.told.drop x.heard).take n).map Prod.fst)).result = .ok () ∧
      (x.encoder.receiveAll (((x.told.drop x.heard).take n).map Prod.fst)).encoder.known =
        x.knownAt (x.heard + n) := by
  induction n generalizing x with
  | zero => exact ⟨rfl, h.known_heard⟩
  | succ n ih =>
    rcases htold : x.told[x.heard]? with _ | ⟨report, known⟩
    · -- all reports were heard before
      have hle := List.getElem?_eq_none_iff.1 htold
      rw [List.drop_eq_nil_of_le hle]
      refine ⟨rfl, h.known_heard.trans ?_⟩
      unfold knownAt
      rw [List.take_of_length_le hle, List.take_of_length_le (Nat.le_add_right_of_le hle)]
    · have hhear : Aligned { x with
          encoder := (x.encoder.receive report).encoder
          instructions := x.instructions ++ (x.encoder.receive report).emitted
          heard := x.heard + 1 } := h.hear? (by rw [Exchange.hear?, htold]; rfl)
      rw [List.drop_eq_getElem?_toList_append, htold, show x.heard + (n + 1) = x.heard + 1 + n by omega]
      show (x.encoder.receiveAll (report :: ((x.told.drop (x.heard + 1)).take n).map Prod.fst)).result = _ ∧
        (x.encoder.receiveAll (report :: ((x.told.drop (x.heard + 1)).take n).map Prod.fst)).encoder.known = _
      rw [Encoder.receiveAll_cons (h.accepts htold)]
      exact ih hhear

/-- Both ends agree on what has arrived, and no report is refused. -/
structure Agrees (x : Exchange) : Prop where
  /-- The encoder knows of as many insertions as the peer had reported with the last report it heard. -/
  known : x.encoder.known = x.knownAt x.heard
  accepts : ∀ report known, x.told[x.heard]? = some (report, known) →
    (x.encoder.receive report).result = .ok ()
  /-- So it is with several reports at once. -/
  acceptsAll : ∀ n, (x.encoder.receiveAll (((x.told.drop x.heard).take n).map Prod.fst)).result = .ok () ∧
    (x.encoder.receiveAll (((x.told.drop x.heard).take n).map Prod.fst)).encoder.known = x.knownAt (x.heard + n)

/-- Whatever is sent, however late it arrives, and whatever the peer decodes and reports by the rules. -/
theorem Reachable.agrees (h : x.Reachable) : x.Agrees where
  known := h.aligned.known_heard
  accepts _ _ htold := h.aligned.accepts htold
  acceptsAll n := h.aligned.acceptsAll n

/-- One stream is cancelled before its section is decoded, the other after a section that needs nothing.
Both get another section before the encoder hears of it. -/
def crossing : Exchange :=
  ((start (.new ⟨200, 2, 0, true, false⟩)).run? [.operate (.setCapacity 200), .operate (.insert ⟨[97], []⟩),
    .operate (.encode 0 [⟨[97], []⟩]), .operate (.encode 0 [.ofText ":method" "GET"]),
    .operate (.encode 4 [⟨[97], []⟩]), .follow, .follow, .arrive 0, .arrive 0, .decode 0, .decode 0, .arrive 4,
    .cancel 4, .operate (.insert ⟨[98], []⟩), .follow, .increment 1, .cancel 0,
    .operate (.encode 4 [⟨[98], []⟩]), .operate (.encode 0 [⟨[97], []⟩]), .hear]).get (by decide +kernel)

theorem crossing_agrees : crossing.Reachable ∧ crossing.Agrees ∧ crossing.encoder.known = 1 ∧
    crossing.told = [(.acknowledge 0, 1), (.cancel 4, 1), (.increment 1, 2), (.cancel 0, 2)] := by
  have hr : crossing.Reachable := ⟨⟨200, 2, 0, true, false⟩, .new _, _, rfl, (Option.some_get _).symm⟩
  exact ⟨hr, hr.agrees, by decide +kernel, by decide +kernel⟩

end Exchange
end Qpack
