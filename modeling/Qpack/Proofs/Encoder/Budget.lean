import Qpack.Proofs.Encoder.Run

/-!
# The budget for streams that may block

A section takes a unit of the budget with the first reference to an entry that the peer may not have.
The unit comes back when the peer acknowledges enough, on whatever stream, or when the section is given
up.

* `Encoder.Budgeted e s` : the units are those of the sections with the mark, and not too many;
* `Step.budgeted` : a step keeps that;
* `Draft.Marked d` : the section has the mark if and only if it needs more than the peer is known to
  have; so does every section that is drafted (`marked_ofFields`);
* `Encoder.KeepsBudget`, `Reachable.keepsBudget` : what holds after any operations.
-/

namespace Qpack
namespace Encoder

/-- Units of the budget are held by the sections that are marked, and not more than there are. -/
structure Budgeted (e : Encoder) (s : SentSection) : Prop where
  held : e.blocked = (s :: e.streams.sections).countP SentSection.blocked
  limit : e.blocked ≤ e.settings.maxBlockedStreams
  /-- An outstanding section is marked as long as the peer may lack insertions that it needs. -/
  marks : ∀ x ∈ e.streams.sections, x.blocked = true ↔ e.known < x.requiredInsertCount

section Budgeted
variable {e e₁ e₂ : Encoder} {s s₁ s₂ : SentSection} {out : List Instruction}

/-- Between the operations only outstanding sections hold units. -/
theorem budgeted_of_held (held : e.blocked = e.streams.sections.countP SentSection.blocked)
    (limit : e.blocked ≤ e.settings.maxBlockedStreams)
    (marks : ∀ x ∈ e.streams.sections, x.blocked = true ↔ e.known < x.requiredInsertCount) :
    Budgeted e .empty := by
  refine ⟨?_, limit, marks⟩
  rw [List.countP_cons_of_neg (by simp [SentSection.empty])]
  exact held

theorem budgeted_new (settings : Settings) : Budgeted (new settings) .empty :=
  ⟨rfl, Nat.zero_le _, fun _ hx => absurd hx List.not_mem_nil⟩

theorem Budgeted.held_empty (h : Budgeted e .empty) : e.blocked = e.streams.sections.countP SentSection.blocked := by
  have hheld := h.held
  rw [List.countP_cons_of_neg (by simp [SentSection.empty])] at hheld
  exact hheld

/-! ## Steps -/

theorem Budgeted.take (h : Budgeted e s) (hs : s.blocked = false)
    (hlt : e.blocked < e.settings.maxBlockedStreams) :
    Budgeted { e with blocked := e.blocked + 1 } s.block := by
  refine ⟨?_, hlt, h.marks⟩
  have hheld := h.held
  rw [List.countP_cons_of_neg (by simp [hs])] at hheld
  rw [List.countP_cons_of_pos rfl, ← hheld]

theorem Budgeted.retire (h : Budgeted e .empty) {stream : Nat} {x : SentSection} {rest : SentQueue}
    (hq : e.streams.queue stream = x :: rest) :
    Budgeted (({ e with streams := e.streams.put stream rest } : Encoder).retire x) .empty := by
  have hput := Streams.countP_put_add e.streams stream rest
  rw [hq, List.countP_cons, ← h.held_empty] at hput
  have hunit : x.blocked.toNat = if x.blocked = true then 1 else 0 := by cases x.blocked <;> rfl
  refine budgeted_of_held ?_ ((Nat.sub_le _ _).trans h.limit) fun y hy => h.marks y (mem_sections_pop hq hy)
  show e.blocked - x.blocked.toNat = (e.streams.put stream rest).sections.countP SentSection.blocked
  omega

/-- A section that needs nothing holds no unit. -/
theorem Budgeted.forget (h : Budgeted e .empty) {stream : Nat} {x : SentSection} {rest : SentQueue}
    (hq : e.streams.queue stream = x :: rest) (hx : x.requiredInsertCount = 0) :
    Budgeted { e with streams := e.streams.put stream rest } .empty := by
  have hmark : ¬ x.blocked = true := by
    rw [h.marks x (Streams.queue_subset_sections _ stream (hq ▸ List.mem_cons_self)), hx]
    exact Nat.not_lt_zero _
  have hput := Streams.countP_put_add e.streams stream rest
  rw [hq, List.countP_cons_of_neg hmark, ← h.held_empty] at hput
  refine budgeted_of_held ?_ h.limit fun y hy => h.marks y (mem_sections_pop hq hy)
  show e.blocked = (e.streams.put stream rest).sections.countP SentSection.blocked
  omega

theorem Budgeted.learn (h : Budgeted e .empty) {n : Nat} (hn : e.known ≤ n) :
    Budgeted ({ e with known := n } : Encoder).settle .empty := by
  have hsettled := Streams.settled_add n e.streams
  rw [← h.held_empty] at hsettled
  refine budgeted_of_held ?_ ((Nat.sub_le _ _).trans h.limit) fun y hy => ?_
  · show e.blocked - e.streams.settled n = (e.streams.settle n).sections.countP SentSection.blocked
    omega
  · have hy' : y ∈ (e.streams.settle n).sections := hy
    rw [Streams.sections_settle] at hy'
    obtain ⟨x, hx, rfl⟩ := List.mem_map.1 hy'
    have hmark := h.marks x hx
    show (x.settle n).blocked = true ↔ n < (x.settle n).requiredInsertCount
    unfold SentSection.settle
    split
    · next hle => simp [SentSection.unblock, hle]
    · next hlt => exact hmark.trans ⟨fun _ => by omega, fun _ => by omega⟩

theorem Step.budgeted (h : Budgeted e₁ s₁) (hstep : Step e₁ s₁ out e₂ s₂) : Budgeted e₂ s₂ := by
  cases hstep with
  | take hs hlt => exact h.take hs hlt
  | retire hq => exact h.retire hq
  | forget hq hx => exact h.forget hq hx
  | learn hn _ => exact h.learn hn
  | _ => exact ⟨h.held, h.limit, h.marks⟩

theorem Steps.budgeted (h : Budgeted e₁ s₁) (hsteps : Steps e₁ s₁ out e₂ s₂) : Budgeted e₂ s₂ := by
  induction hsteps with
  | refl => exact h
  | tail _ hstep ih => exact hstep.budgeted (ih h)

/-- What the peer is known to have never becomes less. -/
theorem Step.known_le (hstep : Step e₁ s₁ out e₂ s₂) : e₁.known ≤ e₂.known := by
  cases hstep with
  | learn hn _ => exact hn
  | _ => exact Nat.le_refl _

theorem Steps.known_le (hsteps : Steps e₁ s₁ out e₂ s₂) : e₁.known ≤ e₂.known := by
  induction hsteps with
  | refl => exact Nat.le_refl _
  | tail _ hstep ih => exact ih.trans hstep.known_le

end Budgeted
end Encoder

/-! ## Drafts -/

namespace Draft
open Encoder
variable {d d' : Draft}

/-- The section that is drafted is marked if and only if it needs more than the peer is known to have. -/
def Marked (d : Draft) : Prop := d.sent.blocked = true ↔ d.encoder.known < d.sent.requiredInsertCount

/-- The mark comes with the first entry that the peer may not have. -/
theorem Marked.depend (h : Marked d) {index : Nat} (hk : d.encoder.known ≤ index → d.sent.blocked = true) :
    Marked (d.depend index) := by
  unfold Marked at h ⊢
  show d.sent.blocked = true ↔ d.encoder.known < max d.sent.requiredInsertCount (index + 1)
  constructor
  · intro hb
    have hlt := h.1 hb
    omega
  · intro hlt
    by_cases hle : d.encoder.known ≤ index
    · exact hk hle
    · exact h.2 (by omega)

theorem Marked.refer? {entry : EntryRef} (h : Marked d) (hr : d.refer? entry = some d') : Marked d' := by
  rcases refer?_cases hr with ⟨_, -, rfl⟩ | ⟨index, -, -, ⟨hk, rfl⟩ | ⟨hk, -, -, rfl⟩⟩
  · exact h
  · exact h.depend hk
  · -- marked and depending on an entry that the peer may not have, both at once
    refine ⟨fun _ => ?_, fun _ => rfl⟩
    show d.encoder.known < max d.sent.requiredInsertCount (index + 1)
    omega

theorem kept_marked : Kept Marked where
  drain h := h
  insert h _ _ := h
  refer h hr := h.refer? hr
  line _ h := h

theorem marked_ofFields (e : Encoder) (fields : List Field) : Marked (ofFields e fields) := by
  apply kept_marked.ofFields
  simp [Marked, start, SentSection.empty]

end Draft

/-! ## All operations -/

namespace Encoder
variable {e : Encoder} {s : SentSection}

/-- A section that is sent keeps its unit. -/
theorem Budgeted.send (h : Budgeted e s) (hs : s.blocked = true ↔ e.known < s.requiredInsertCount)
    (stream : Nat) : Budgeted (e.send stream s) .empty := by
  have hput := Streams.countP_put_add e.streams stream ((e.streams.queue stream).add s)
  have hadd : ((e.streams.queue stream).add s).countP SentSection.blocked =
      (e.streams.queue stream).countP SentSection.blocked + if s.blocked = true then 1 else 0 := by
    rw [SentQueue.add, List.countP_append, List.countP_singleton]
  have hheld := h.held
  rw [List.countP_cons] at hheld
  refine budgeted_of_held ?_ h.limit fun x hx => ?_
  · show e.blocked = (e.streams.put stream ((e.streams.queue stream).add s)).sections.countP SentSection.blocked
    omega
  · rcases mem_sections_send hx with hx | rfl
    · exact h.marks x hx
    · exact hs

theorem Budgeted.perform (hb : Budgeted e .empty) (h : Sound e .empty) (op : Operation) :
    Budgeted (e.perform op).encoder .empty := by
  rcases perform_cases h op with ⟨stream, fields, -, -, hop⟩ | ⟨-, hsteps⟩
  · obtain ⟨out, hsteps, -⟩ := (Draft.says_ofFields h fields).1.steps
    rw [hop]
    exact (hsteps.budgeted hb).send (Draft.marked_ofFields e fields) stream
  · exact hsteps.budgeted hb

theorem Budgeted.run (hb : Budgeted e .empty) (h : Sound e .empty) (ops : List Operation) :
    Budgeted (e.run ops).1 .empty := by
  induction ops generalizing e with
  | nil => exact hb
  | cons op rest ih => exact ih (hb.perform h op) (h.perform op)

theorem Sound.known_le_perform (h : Sound e .empty) (op : Operation) : e.known ≤ (e.perform op).encoder.known := by
  rcases perform_cases h op with ⟨stream, fields, -, -, hop⟩ | ⟨-, hsteps⟩
  · rw [hop]
    exact (Draft.says_ofFields h fields).1.known.ge
  · exact hsteps.known_le

theorem Sound.known_le_run (h : Sound e .empty) (ops : List Operation) : e.known ≤ (e.run ops).1.known := by
  induction ops generalizing e with
  | nil => exact Nat.le_refl _
  | cons op rest ih => exact (h.known_le_perform op).trans (ih (h.perform op))

theorem Reachable.budgeted (h : e.Reachable) : Budgeted e .empty := by
  obtain ⟨settings, start, ops, hstart, rfl⟩ := h
  rw [eq_new_of_ofSettings hstart]
  exact (budgeted_new settings).run (sound_new settings) ops

/-- The encoder knows which outstanding sections the peer may have to wait for, and does not let more
streams wait than the peer allows. -/
structure KeepsBudget (e : Encoder) : Prop where
  known_le_run : ∀ ops, e.known ≤ (e.run ops).1.known
  known_le : e.known ≤ e.table.inserted
  required_le : ∀ stream, ∀ s ∈ e.streams.queue stream, s.requiredInsertCount ≤ e.table.inserted
  marks : ∀ stream, ∀ s ∈ e.streams.queue stream, s.blocked = true ↔ e.known < s.requiredInsertCount
  held : e.blocked = e.streams.sections.countP SentSection.blocked
  limit : e.blocked ≤ e.settings.maxBlockedStreams
  /-- What a report gives back is held: the units of the sections that go, and of those that are left
  and need no more than `known`. -/
  returned : ∀ stream gone rest, e.streams.queue stream = gone ++ rest → ∀ known,
    gone.countP SentSection.blocked + (e.streams.put stream rest).settled known ≤ e.blocked
  /-- Streams with a section that a peer cannot decode without more insertions are not more than it
  allows. -/
  waiting : ∀ ids : List Nat, ids.Nodup →
    (∀ id ∈ ids, ∃ s ∈ e.streams.queue id, e.known < s.requiredInsertCount) →
    ids.length ≤ e.settings.maxBlockedStreams

theorem Budgeted.returned (h : Budgeted e .empty) {stream : Nat} {gone rest : SentQueue}
    (hq : e.streams.queue stream = gone ++ rest) (known : Nat) :
    gone.countP SentSection.blocked + (e.streams.put stream rest).settled known ≤ e.blocked := by
  have hput := Streams.countP_put_add e.streams stream rest
  have hsettled := Streams.settled_add known (e.streams.put stream rest)
  rw [hq, List.countP_append, ← h.held_empty] at hput
  omega

theorem Budgeted.waiting (h : Budgeted e .empty) {ids : List Nat} (hn : ids.Nodup)
    (hids : ∀ id ∈ ids, ∃ s ∈ e.streams.queue id, e.known < s.requiredInsertCount) :
    ids.length ≤ e.settings.maxBlockedStreams := by
  have hle := Streams.length_le_countP SentSection.blocked e.streams hn fun id hid => by
    obtain ⟨s, hs, hlt⟩ := hids id hid
    exact ⟨s, hs, (h.marks s (Streams.queue_subset_sections _ id hs)).2 hlt⟩
  rw [← h.held_empty] at hle
  exact hle.trans h.limit

/-- After any operations, whatever the peer reports, the budget is kept. -/
theorem Reachable.keepsBudget (h : e.Reachable) : e.KeepsBudget where
  known_le_run ops := h.sound.known_le_run ops
  known_le := h.sound.known_le
  required_le stream _ hs := h.sound.required_le (Streams.queue_subset_sections _ stream hs)
  marks stream _ hs := h.budgeted.marks _ (Streams.queue_subset_sections _ stream hs)
  held := h.budgeted.held_empty
  limit := h.budgeted.limit
  returned _ _ _ hq known := h.budgeted.returned hq known
  waiting _ hn hids := h.budgeted.waiting hn hids

/-- One unit, which the first stream takes for two entries. The second has to do without references, and
the third refers to what the peer has by then. -/
def oneUnit : Encoder :=
  ((new ⟨200, 1, 0, true, false⟩).run [.setCapacity 200, .insert ⟨[97], []⟩, .insert ⟨[98], []⟩,
    .receive (.increment 1), .encode 0 [⟨[97], []⟩, ⟨[98], []⟩], .encode 4 [⟨[98], []⟩],
    .encode 8 [⟨[97], []⟩]]).1

theorem oneUnit_keepsBudget : oneUnit.Reachable ∧ oneUnit.KeepsBudget ∧ oneUnit.known = 1 ∧
    oneUnit.blocked = 1 ∧ oneUnit.streams.sections = [⟨2, true, [0, 1]⟩, .empty, ⟨1, false, [0]⟩] := by
  have hr : oneUnit.Reachable := ⟨⟨200, 1, 0, true, false⟩, new _, _, rfl, rfl⟩
  exact ⟨hr, hr.keepsBudget, by decide +kernel, by decide +kernel, by decide +kernel⟩

end Encoder
end Qpack
