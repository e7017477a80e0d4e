import Qpack.Proofs.Encoder.Run

/-!
# Capacities that wait

A capacity waits while an entry in use keeps the table from shrinking. Only a report that gives up
references can change that, so nothing else has to try again.

* `KeepsCapacity t out u`, `AppliesPending t out u p` : the capacity stays and the peer is told nothing;
  the capacity `p` that waited takes effect, and the peer is told once;
* `Draft.kept_quiet` : drafting a section keeps the capacity;
* `capacityAfter_perform` : so does every operation that does not ask for a capacity, unless the peer gives
  up references;
* `Encoder.AnnouncesCapacity`, `Reachable.announcesCapacity` : what holds after any operations.
-/

namespace Qpack

/-- The capacity that an instruction sets. -/
def Instruction.capacity? : Instruction → Option Nat
  | .setCapacity capacity => some capacity
  | _ => none

/-- The capacities that instructions tell the peer. -/
def announced (out : List Instruction) : List Nat := out.filterMap Instruction.capacity?

theorem announced_append (out more : List Instruction) : announced (out ++ more) = announced out ++ announced more :=
  List.filterMap_append

theorem announced_setCapacity (capacity? : Option Nat) :
    announced (capacity?.toList.map .setCapacity) = capacity?.toList := by
  cases capacity? <;> rfl

theorem Instruction.capacity?_of_inserts {i : Instruction} (h : i.inserts = true) : i.capacity? = none := by
  cases i with
  | setCapacity c => cases h
  | _ => rfl

/-! ## What becomes of a capacity -/

/-- The capacity stays, and so does the one that waits; the peer is told of none. -/
structure KeepsCapacity (t : DynamicTable) (out : List Instruction) (u : DynamicTable) : Prop where
  capacity : u.capacity = t.capacity
  pending : u.pending = t.pending
  silent : announced out = []

/-- The capacity that waits takes effect, and the peer is told. -/
structure AppliesPending (t : DynamicTable) (out : List Instruction) (u : DynamicTable) (p : Nat) : Prop where
  waited : t.pending = some p
  capacity : u.capacity = p
  pending : u.pending = none
  told : announced out = [p]

section Keeps
variable {t u v : DynamicTable} {out more : List Instruction} {p : Nat}

theorem KeepsCapacity.refl (t : DynamicTable) : KeepsCapacity t [] t := ⟨rfl, rfl, rfl⟩

theorem KeepsCapacity.trans (h₁ : KeepsCapacity t out u) (h₂ : KeepsCapacity u more v) :
    KeepsCapacity t (out ++ more) v :=
  ⟨h₂.capacity.trans h₁.capacity, h₂.pending.trans h₁.pending, by
    rw [announced_append, h₁.silent, h₂.silent, List.nil_append]⟩

theorem KeepsCapacity.applies (h₁ : KeepsCapacity t out u) (h₂ : AppliesPending u more v p) :
    AppliesPending t (out ++ more) v p :=
  ⟨h₁.pending.symm.trans h₂.waited, h₂.capacity, h₂.pending, by
    rw [announced_append, h₁.silent, h₂.told, List.nil_append]⟩

theorem AppliesPending.keeps (h₁ : AppliesPending t out u p) (h₂ : KeepsCapacity u more v) :
    AppliesPending t (out ++ more) v p :=
  ⟨h₁.waited, h₂.capacity.trans h₁.capacity, h₂.pending.trans h₁.pending, by
    rw [announced_append, h₁.told, h₂.silent, List.append_nil]⟩

theorem DynamicTable.SameMeasures.keepsCapacity (h : t.SameMeasures u) : KeepsCapacity t [] u :=
  ⟨h.capacity, h.pending, rfl⟩

/-- Draining keeps the capacity, or the one that waits takes effect. -/
theorem drain_capacity (t : DynamicTable) :
    KeepsCapacity t (t.drain.2.toList.map .setCapacity) t.drain.1 ∨
      ∃ p, AppliesPending t (t.drain.2.toList.map .setCapacity) t.drain.1 p := by
  obtain ⟨u, hu, hc⟩ := t.drain_cases
  rcases hc with ⟨-, he⟩ | ⟨p, hp, -, he⟩
  · rw [he]
    exact Or.inl ⟨hu.capacity, hu.pending, rfl⟩
  · rw [he]
    exact Or.inr ⟨p, hp, rfl, rfl, rfl⟩

/-- While the oldest entry is in use, draining changes nothing about that. -/
theorem DynamicTable.WaitsInUse.keeps_drain (h : t.WaitsInUse) :
    KeepsCapacity t (t.drain.2.toList.map .setCapacity) t.drain.1 := by
  rcases drain_capacity t with hkeeps | ⟨p, happlies⟩
  · exact hkeeps
  · -- the capacity would have been tried in vain
    have hdrain : t.drain.1 = t := by
      show (t.evictWhile _).applyPending = t
      rw [evictWhile_eq_self (h p happlies.waited).2, h.applyPending_eq]
    have hnone := happlies.pending
    rw [hdrain, happlies.waited] at hnone
    cases hnone

end Keeps

/-- A field that finds room does so while no capacity waits. -/
theorem keepsCapacity_add {e : Encoder} {f : Field} {i : Instruction} (h : e.table.WaitsInUse)
    (ha : e.admits f = true) (hi : i.inserts = true) :
    (e.table.add f).WaitsInUse ∧ KeepsCapacity e.table [i] (e.table.add f) := by
  have hf := (Encoder.admits_eq_true.1 ha).2
  have hs := overhead_le_size f
  rw [Field.overhead] at hs
  have hp := h.waits.pending_eq_none (by omega)
  rw [DynamicTable.add_eq hf]
  refine ⟨DynamicTable.waitsInUse_of_none hp, rfl, rfl, ?_⟩
  rw [announced, List.filterMap_cons_none (Instruction.capacity?_of_inserts hi), List.filterMap_nil]

/-! ## Drafts -/

namespace Draft
variable {e : Encoder} {d : Draft}

/-- So far the draft keeps the capacity of the encoder `e`. -/
def Quiet (e : Encoder) (d : Draft) : Prop :=
  d.encoder.table.WaitsInUse ∧ KeepsCapacity e.table d.emitted d.encoder.table

theorem Quiet.depend (h : Quiet e d) (index : Nat) : Quiet e (d.depend index) := by
  have hm := DynamicTable.sameMeasures_refer d.encoder.table index
  exact ⟨h.1.refer index, hm.capacity.trans h.2.capacity, hm.pending.trans h.2.pending, h.2.silent⟩

theorem kept_quiet (e : Encoder) : Kept (Quiet e) where
  drain h := ⟨DynamicTable.waitsInUse_drain _, h.2.trans h.1.keeps_drain⟩
  insert h ha hi := ⟨(keepsCapacity_add h.1 ha hi).1, h.2.trans (keepsCapacity_add h.1 ha hi).2⟩
  refer := by
    intro d d' entry h hr
    rcases refer?_cases hr with ⟨_, -, rfl⟩ | ⟨index, -, -, ⟨-, rfl⟩ | ⟨-, -, -, rfl⟩⟩
    · exact h
    · exact h.depend index
    · exact Quiet.depend (d := d.take) h index
  line _ h := h

theorem quiet_ofFields (h : e.table.WaitsInUse) (fields : List Field) :
    Quiet e (ofFields e fields) :=
  (kept_quiet e).ofFields ⟨h, KeepsCapacity.refl _⟩ fields

end Draft

/-! ## Operations -/

/-- Whether a report gives up references. -/
def Feedback.givesUp : Feedback → Bool
  | .acknowledge _ => true
  | .cancel _ => true
  | .increment _ => false

/-- Whether an operation has a report that gives up references. -/
def Operation.givesUp : Operation → Bool
  | .receive report => report.givesUp
  | .feedback data => (Feedback.readAll data).1.any Feedback.givesUp
  | _ => false

namespace Encoder
variable {e : Encoder}

/-- What becomes of the capacity of `e`, and whether that can be more than nothing. -/
structure CapacityAfter {α : Type} (e : Encoder) (may : Bool) (o : Outcome α) : Prop where
  waits : o.encoder.table.WaitsInUse
  capacity : KeepsCapacity e.table o.emitted o.encoder.table ∨
    may = true ∧ ∃ p, AppliesPending e.table o.emitted o.encoder.table p

theorem capacityAfter_of_keeps {α : Type} {may : Bool} {o : Outcome α} (hw : o.encoder.table.WaitsInUse)
    (hl : KeepsCapacity e.table o.emitted o.encoder.table) : CapacityAfter e may o := ⟨hw, Or.inl hl⟩

theorem capacityAfter_refuse {α : Type} {may : Bool} (h : e.table.WaitsInUse) (error : Error) :
    CapacityAfter e may (e.refuse error : Outcome α) := capacityAfter_of_keeps h (KeepsCapacity.refl _)

theorem capacityAfter_encode (h : e.table.WaitsInUse) (stream : Nat) (fields : List Field) :
    CapacityAfter e false (e.encode stream fields) := by
  unfold encode
  split
  · exact capacityAfter_refuse h _
  · have hq := Draft.quiet_ofFields h fields
    exact capacityAfter_of_keeps hq.1 hq.2

theorem capacityAfter_insert (h : e.table.WaitsInUse) (f : Field) : CapacityAfter e false (e.insert f) := by
  have hd : KeepsCapacity e.table e.drain.2 e.drain.1.table := h.keeps_drain
  have hw : e.drain.1.table.WaitsInUse := DynamicTable.waitsInUse_drain _
  unfold insert
  dsimp only
  split
  · next ha =>
    have hi : (e.drain.1.standaloneInsertion f).inserts = true := by
      unfold standaloneInsertion
      split
      · rfl
      · exact Draft.inserts_insertion _ f _
    have hadd := keepsCapacity_add hw ha hi
    exact capacityAfter_of_keeps hadd.1 (hd.trans hadd.2)
  · exact capacityAfter_of_keeps hw hd

/-- Once references were given up, a capacity that waits is tried again. -/
theorem capacityAfter_drain {α : Type} {u : Encoder} (hu : e.table.SameMeasures u.table) (result : Except Error α) :
    CapacityAfter e true ⟨result, u.drain.1, u.drain.2⟩ := by
  refine ⟨DynamicTable.waitsInUse_drain _, ?_⟩
  rcases drain_capacity u.table with hl | ⟨p, hp⟩
  · exact Or.inl (hu.keepsCapacity.trans hl)
  · exact Or.inr ⟨rfl, p, hu.keepsCapacity.applies hp⟩

theorem sameMeasures_foldl_retire (e : Encoder) (queue : SentQueue) :
    e.table.SameMeasures (queue.foldl retire e).table := by
  obtain ⟨n, hn⟩ := foldl_retire_eq e queue
  rw [hn]
  exact DynamicTable.sameMeasures_foldl_release e.table _

theorem capacityAfter_receive (h : e.table.WaitsInUse) (report : Feedback) :
    CapacityAfter e report.givesUp (e.receive report) := by
  cases report with
  | acknowledge stream =>
    unfold receive acknowledge
    dsimp only
    split
    · exact capacityAfter_refuse h _
    · next oldest queue _ =>
      exact capacityAfter_drain (DynamicTable.sameMeasures_foldl_release e.table oldest.references) _
  | cancel stream =>
    unfold receive cancel
    dsimp only
    split
    · exact capacityAfter_refuse h _
    · have hm := sameMeasures_foldl_retire { e with streams := e.streams.put stream [] } (e.streams.queue stream)
      exact capacityAfter_drain (e := e) hm _
  | increment count =>
    unfold receive increment
    dsimp only
    split
    · exact capacityAfter_refuse h _
    · split
      · exact capacityAfter_refuse h _
      · exact capacityAfter_of_keeps h (KeepsCapacity.refl _)

/-- At most one of several reports lets a capacity take effect, since then none waits any more. -/
theorem capacityAfter_receiveAll (h : e.table.WaitsInUse) (items : List Feedback) :
    CapacityAfter e (items.any Feedback.givesUp) (e.receiveAll items) := by
  induction items generalizing e with
  | nil => exact capacityAfter_of_keeps h (KeepsCapacity.refl _)
  | cons item rest ih =>
    have hnow := capacityAfter_receive h item
    unfold receiveAll
    rw [List.any_cons]
    dsimp only
    split
    · refine ⟨hnow.waits, hnow.capacity.imp_right fun ⟨hmay, hp⟩ => ⟨?_, hp⟩⟩
      rw [hmay, Bool.true_or]
    · have hlater := ih hnow.waits
      refine ⟨hlater.waits, ?_⟩
      rcases hnow.capacity with hl | ⟨hmay, p, hp⟩
      · rcases hlater.capacity with hl' | ⟨hmay, p, hp⟩
        · exact Or.inl (hl.trans hl')
        · exact Or.inr ⟨by rw [hmay, Bool.or_true], p, hl.applies hp⟩
      · rcases hlater.capacity with hl' | ⟨-, p', hp'⟩
        · exact Or.inr ⟨by rw [hmay, Bool.true_or], p, hp.keeps hl'⟩
        · have hnone := hp'.waited
          rw [hp.pending] at hnone
          cases hnone

theorem capacityAfter_feedback (h : e.table.WaitsInUse) (data : Octets) :
    CapacityAfter e ((Feedback.readAll data).1.any Feedback.givesUp) (e.feedback data) := by
  have hall := capacityAfter_receiveAll h (Feedback.readAll data).1
  unfold feedback
  dsimp only
  split <;> exact ⟨hall.waits, hall.capacity⟩

theorem CapacityAfter.map {α β : Type} {may : Bool} {o : Outcome α} (h : CapacityAfter e may o) (reply : α → β) :
    CapacityAfter e may (o.map reply) := ⟨h.waits, h.capacity⟩

/-- Whatever is not asked for a capacity leaves it, unless the peer gives up references. -/
theorem capacityAfter_perform (h : e.table.WaitsInUse) {op : Operation} (hop : ∀ c, op ≠ .setCapacity c) :
    CapacityAfter e op.givesUp (e.perform op) := by
  cases op with
  | setCapacity c => exact absurd rfl (hop c)
  | encode stream fields => exact (capacityAfter_encode h stream fields).map _
  | insert f => exact (capacityAfter_insert h f).map _
  | receive report => exact (capacityAfter_receive h report).map _
  | feedback data => exact (capacityAfter_feedback h data).map _
  | setValidation validate => exact capacityAfter_of_keeps h (KeepsCapacity.refl _)
  | setPolicy policy => exact capacityAfter_of_keeps h (KeepsCapacity.refl _)

/-! ## Asking for a capacity -/

/-- What is asked for takes effect or waits, in place of what waited before. The peer is told of a change. -/
structure Asks (e : Encoder) (c : Nat) (o : Outcome Unit) : Prop where
  result : o.result = .ok ()
  waits : o.encoder.table.WaitsInUse
  capacity : o.encoder.table.capacity = c ∧ o.encoder.table.pending = none ∧
      announced o.emitted = (if c = e.table.capacity then [] else [c]) ∨
    o.encoder.table.capacity = e.table.capacity ∧ o.encoder.table.pending = some c ∧ announced o.emitted = []

theorem setCapacity_of_lt {c : Nat} (hc : e.settings.maxTableCapacity < c) :
    e.setCapacity c = e.refuse (.capacityExceedsMaximum c e.settings.maxTableCapacity) := if_pos hc

theorem asks_setCapacity {c : Nat} (hc : c ≤ e.settings.maxTableCapacity) : Asks e c (e.setCapacity c) := by
  have hw := DynamicTable.waitsInUse_requestCapacity e.table c
  unfold setCapacity
  rw [if_neg (Nat.not_lt.2 hc)]
  obtain ⟨u, hu, hcases⟩ := e.table.requestCapacity_cases c
  rcases hcases with ⟨-, he⟩ | ⟨-, he⟩
  · rw [he] at hw ⊢
    exact ⟨rfl, hw, Or.inr ⟨hu.capacity, hu.pending, rfl⟩⟩
  · rw [he] at hw ⊢
    refine ⟨rfl, hw, Or.inl ⟨rfl, rfl, ?_⟩⟩
    simp only [Bool.true_and, bne_iff_ne, ne_eq, ite_not]
    split <;> rfl

theorem waitsInUse_perform (h : e.table.WaitsInUse) (op : Operation) : (e.perform op).encoder.table.WaitsInUse := by
  by_cases hop : ∃ c, op = .setCapacity c
  · obtain ⟨c, rfl⟩ := hop
    by_cases hc : c ≤ e.settings.maxTableCapacity
    · exact (asks_setCapacity hc).waits
    · show (e.setCapacity c).encoder.table.WaitsInUse
      rw [setCapacity_of_lt (Nat.lt_of_not_le hc)]
      exact h
  · exact (capacityAfter_perform h fun c hc => hop ⟨c, hc⟩).waits

theorem Reachable.waitsInUse (h : e.Reachable) : e.table.WaitsInUse := by
  obtain ⟨settings, start, ops, hstart, rfl⟩ := h
  have hrun : ∀ e : Encoder, e.table.WaitsInUse → (e.run ops).1.table.WaitsInUse := by
    induction ops with
    | nil => exact fun e he => he
    | cons op rest ih => exact fun e he => ih _ (waitsInUse_perform he op)
  apply hrun
  rw [eq_new_of_ofSettings hstart]
  exact DynamicTable.waitsInUse_of_none rfl

/-! ## All operations -/

/-- A capacity waits for an entry in use and takes effect once that is given up, and the peer is told of
every change. -/
structure AnnouncesCapacity (e : Encoder) : Prop where
  /-- A capacity waits only while the entries do not fit it and an outstanding section needs the oldest. -/
  waits : ∀ c, e.table.pending = some c → c < e.table.used ∧
    ∃ x rest, e.table.entries = x :: rest ∧ ∃ stream, ∃ s ∈ e.streams.queue stream, x.index ∈ s.references
  idle : (∀ stream, e.outstanding stream = 0) → e.table.pending = none
  /-- The peer is told a capacity, and told it once, if and only if it is another one. -/
  announces : ∀ op, announced (e.perform op).emitted =
    if (e.perform op).encoder.table.capacity = e.table.capacity then []
    else [(e.perform op).encoder.table.capacity]
  /-- What is asked for takes effect or waits, in place of what waited before. -/
  replaces : ∀ c ≤ e.settings.maxTableCapacity,
    (e.setCapacity c).encoder.table.capacity = c ∧ (e.setCapacity c).encoder.table.pending = none ∨
    (e.setCapacity c).encoder.table.capacity = e.table.capacity ∧
      (e.setCapacity c).encoder.table.pending = some c
  refuses : ∀ c, e.settings.maxTableCapacity < c →
    (e.setCapacity c).encoder = e ∧ (e.setCapacity c).emitted = []
  /-- What waits takes effect by a report that gives up references. No other operation tries it again
  with success, neither between the fields of a section nor before an insertion. -/
  retries : ∀ op, (∀ c, op ≠ .setCapacity c) →
    KeepsCapacity e.table (e.perform op).emitted (e.perform op).encoder.table ∨
    op.givesUp = true ∧ ∃ p, AppliesPending e.table (e.perform op).emitted (e.perform op).encoder.table p
  /-- An insertion that is declined tells the peer nothing and brings no entry. -/
  declines : ∀ f, (e.insert f).result = .ok false → (e.insert f).emitted = [] ∧
    (e.insert f).encoder.table.inserted = e.table.inserted ∧
    (e.insert f).encoder.table.entries <:+ e.table.entries

theorem Sound.oldest_needed (h : Sound e .empty) (hw : e.table.WaitsInUse) {c : Nat}
    (hc : e.table.pending = some c) :
    ∃ x rest, e.table.entries = x :: rest ∧ ∃ stream, ∃ s ∈ e.streams.queue stream, x.index ∈ s.references := by
  obtain ⟨hlt, hend⟩ := hw c hc
  rcases he : e.table.entries with _ | ⟨x, rest⟩
  · rw [h.valid.used_eq, he] at hlt
    exact absurd hlt (Nat.not_lt_zero c)
  · have hpos := DynamicTable.evictOldest?_eq_none_iff.1 hend x rest he
    rw [h.counts.count x (he ▸ List.mem_cons_self)] at hpos
    obtain ⟨s, hs, hx⟩ := List.mem_flatMap.1 (List.count_pos_iff.1 hpos)
    obtain ⟨stream, hs⟩ := h.distinct.mem_sections_iff.1 hs
    exact ⟨x, rest, rfl, stream, s, hs, hx⟩

theorem Sound.announces (h : Sound e .empty) (hw : e.table.WaitsInUse) (op : Operation) :
    announced (e.perform op).emitted =
      if (e.perform op).encoder.table.capacity = e.table.capacity then []
      else [(e.perform op).encoder.table.capacity] := by
  by_cases hop : ∃ c, op = .setCapacity c
  · obtain ⟨c, rfl⟩ := hop
    show announced (e.setCapacity c).emitted = if (e.setCapacity c).encoder.table.capacity = _ then [] else
      [(e.setCapacity c).encoder.table.capacity]
    by_cases hc : c ≤ e.settings.maxTableCapacity
    · rcases (asks_setCapacity hc).capacity with ⟨hcap, -, hout⟩ | ⟨hcap, -, hout⟩
      · rw [hout, hcap]
      · rw [hout, if_pos hcap]
    · rw [setCapacity_of_lt (Nat.lt_of_not_le hc)]
      exact (if_pos rfl).symm
  · rcases (capacityAfter_perform hw fun c hc => hop ⟨c, hc⟩).capacity with hkeeps | ⟨-, p, happlies⟩
    · rw [hkeeps.silent, if_pos hkeeps.capacity]
    · -- what waits is below the capacity in effect
      have hlt := Nat.lt_of_lt_of_le (hw p happlies.waited).1 h.valid.used_le
      rw [happlies.told, happlies.capacity, if_neg (Nat.ne_of_lt hlt)]

theorem declines_insert (h : e.table.WaitsInUse) {f : Field} (hf : (e.insert f).result = .ok false) :
    (e.insert f).emitted = [] ∧ (e.insert f).encoder.table.inserted = e.table.inserted ∧
      (e.insert f).encoder.table.entries <:+ e.table.entries := by
  unfold insert at hf ⊢
  dsimp only at hf ⊢
  split at hf
  · cases Except.ok.inj hf
  · next ha =>
    have hnone := h.keeps_drain.silent
    rw [announced_setCapacity, Option.toList_eq_nil_iff] at hnone
    obtain ⟨u, hu, hc⟩ := e.table.drain_cases
    obtain ⟨gone, hgone, -⟩ := hu.entries
    rw [if_neg ha]
    unfold drain
    rcases hc with ⟨-, hd⟩ | ⟨c, -, -, hd⟩
    · rw [hd]
      exact ⟨rfl, hu.inserted, gone, hgone.symm⟩
    · rw [hd] at hnone
      cases hnone

/-- After any operations, the peer knows the capacity, and one that waits does so for a reason. -/
theorem Reachable.announcesCapacity (h : e.Reachable) : e.AnnouncesCapacity where
  waits c hc := ⟨(h.waitsInUse c hc).1, h.sound.oldest_needed h.waitsInUse hc⟩
  idle hidle := by
    rcases hp : e.table.pending with _ | c
    · rfl
    · obtain ⟨x, -, -, stream, s, hs, -⟩ := h.sound.oldest_needed h.waitsInUse hp
      rw [List.length_eq_zero_iff.1 (hidle stream)] at hs
      cases hs
  announces op := h.sound.announces h.waitsInUse op
  replaces c hc := (asks_setCapacity hc).capacity.imp (fun hnow => ⟨hnow.1, hnow.2.1⟩) fun hlater =>
    ⟨hlater.1, hlater.2.1⟩
  refuses c hc := by
    rw [setCapacity_of_lt hc]
    exact ⟨rfl, rfl⟩
  retries op hop := (capacityAfter_perform h.waitsInUse hop).capacity
  declines f hf := declines_insert h.waitsInUse hf

/-- A section needs the older of two entries, and the table was asked to hold but one. -/
def deferred : Encoder :=
  ((new ⟨200, 1, 0, true, false⟩).run [.setCapacity 200, .insert ⟨[97], []⟩, .insert ⟨[98], []⟩,
    .encode 0 [⟨[97], []⟩], .setCapacity 0, .setCapacity 40]).1

theorem deferred_announcesCapacity : deferred.Reachable ∧ deferred.AnnouncesCapacity ∧
    deferred.table.pending = some 40 ∧ deferred.table.capacity = 200 ∧
    (deferred.insert ⟨[99], []⟩).result = .ok false ∧
    (deferred.perform (.receive (.acknowledge 0))).emitted = [.setCapacity 40] := by
  have hr : deferred.Reachable := ⟨⟨200, 1, 0, true, false⟩, new _, _, rfl, rfl⟩
  exact ⟨hr, hr.announcesCapacity, by decide +kernel, by decide +kernel, by decide +kernel, by decide +kernel⟩

end Encoder
end Qpack
