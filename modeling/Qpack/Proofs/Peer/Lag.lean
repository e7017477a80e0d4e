import Qpack.Peer.Table
import Qpack.Proofs.Encoder.References
import Qpack.Proofs.Encoder.Transmission

/-!
# Peers that lag behind

A section may arrive before the insertions that it needs. The peer has to find its required insert
count again all the same, to know how long to wait. Entries leave the table whether or not the peer has
acknowledged them, so the encoder can be ahead of the peer by more than half a turn.

* `carries_encode` : a new section is outstanding, and carries its fields;
* `unwrap?_encode_iff` : which peers find the required insert count of a new section again, and when all
  do that have what they have acknowledged;
* `not_unwrap?_encode` : not all do.
-/

namespace Qpack.Encoder

variable {e : Encoder} {stream : Nat} {fields : List Field} {octets : Octets}

/-- A new section is the newest of its stream, and carries its fields. -/
theorem carries_encode (h : Sound e .empty) (hok : (e.encode stream fields).result = .ok octets) :
    ∃ s, ((e.encode stream fields).encoder.streams.queue stream).getLast? = some s ∧
      s ∈ (e.encode stream fields).encoder.streams.sections ∧
      Carries (e.encode stream fields).encoder s ⟨fields, octets⟩ := by
  have hencode := encode_eq (refusedName?_eq_none hok) stream
  rw [hencode] at hok ⊢
  obtain rfl := Except.ok.inj hok
  have hqueue := queue_send_self (Draft.ofFields e fields).encoder stream (Draft.ofFields e fields).sent
  refine ⟨(Draft.ofFields e fields).sent, ?_, ?_, carries_ofFields h fields⟩
  · show List.getLast? (Streams.queue (send _ stream _).streams stream) = _
    rw [hqueue, List.getLast?_concat]
  · apply Streams.queue_subset_sections _ stream
    show _ ∈ Streams.queue (send _ stream _).streams stream
    rw [hqueue]
    exact List.mem_append_right _ List.mem_cons_self

/-- A new section is the newest of its stream. A peer that is behind finds its required insert count
again if and only if it lacks no more insertions than the largest table can hold entries, and all peers
do that have the insertions known to have arrived if and only if that holds of those. -/
theorem unwrap?_encode_iff (h : e.Reachable) (hok : (e.encode stream fields).result = .ok octets) :
    ∃ (s : SentSection) (base : Nat) (lines : List FieldLine),
      ((e.encode stream fields).encoder.streams.queue stream).getLast? = some s ∧
      s.requiredInsertCount = needed (lines.filterMap FieldLine.index?) ∧
      octets = SectionHead.write e.settings.maxTableCapacity ⟨s.requiredInsertCount, base⟩ ++
        lines.flatMap (FieldLine.write base) ∧
      (0 < s.requiredInsertCount → ∀ T ≤ (e.encode stream fields).encoder.table.inserted,
        (InsertCount.unwrap? e.settings.maxTableCapacity T
            (InsertCount.wrap e.settings.maxTableCapacity s.requiredInsertCount) = some s.requiredInsertCount ↔
          s.requiredInsertCount ≤ T + InsertCount.maxEntries e.settings.maxTableCapacity)) ∧
      (0 < s.requiredInsertCount →
        ((∀ T, (e.encode stream fields).encoder.known ≤ T →
            T ≤ (e.encode stream fields).encoder.table.inserted →
            InsertCount.unwrap? e.settings.maxTableCapacity T
              (InsertCount.wrap e.settings.maxTableCapacity s.requiredInsertCount) =
                some s.requiredInsertCount) ↔
          s.requiredInsertCount ≤ (e.encode stream fields).encoder.known +
            InsertCount.maxEntries e.settings.maxTableCapacity)) := by
  have hafter : Sound (e.encode stream fields).encoder .empty := h.sound.perform (.encode stream fields)
  have hset : (e.encode stream fields).encoder.settings = e.settings :=
    settings_perform h.sound (.encode stream fields)
  obtain ⟨s, hlast, hmem, base, lines, -, -, hlines, hoctets, -⟩ := carries_encode h.sound hok
  rw [hset] at hoctets
  have hiff : 0 < s.requiredInsertCount → ∀ T ≤ (e.encode stream fields).encoder.table.inserted,
      (InsertCount.unwrap? e.settings.maxTableCapacity T
          (InsertCount.wrap e.settings.maxTableCapacity s.requiredInsertCount) = some s.requiredInsertCount ↔
        s.requiredInsertCount ≤ T + InsertCount.maxEntries e.settings.maxTableCapacity) := by
    intro hpos T hT
    rw [← hset]
    exact hafter.unwrap?_iff hmem hpos hT
  refine ⟨s, base, lines, hlast, by rw [hafter.required_of_mem hmem, hlines], hoctets, hiff, fun hpos => ?_⟩
  constructor
  · intro hall
    exact (hiff hpos _ hafter.known_le).1 (hall _ (Nat.le_refl _) hafter.known_le)
  · intro hknown T hT hle
    exact (hiff hpos T hle).2 (hknown.trans (Nat.add_le_add_right hT _))

/-- Five fields go through a table with room for two, and nothing is acknowledged. -/
def ahead : Encoder × List Instruction :=
  (new ⟨66, 1, 50, true, false⟩).run [.setCapacity 66, .insert ⟨[97], []⟩, .insert ⟨[98], []⟩,
    .insert ⟨[99], []⟩, .insert ⟨[100], []⟩, .insert ⟨[101], []⟩]

theorem reachable_ahead : ahead.1.Reachable := ⟨⟨66, 1, 50, true, false⟩, _, _, rfl, rfl⟩

theorem encode_ahead : (ahead.1.encode 0 [⟨[101], []⟩]).result = .ok [2, 0, 128] := by decide +kernel

theorem getLast?_ahead :
    ((ahead.1.encode 0 [⟨[101], []⟩]).encoder.streams.queue 0).getLast? = some ⟨5, true, [4]⟩ := by
  decide +kernel

/-- A section needs five insertions, and the largest table holds two entries. A peer with three
insertions finds the five again. -/
theorem unwrap?_encode_ahead : ahead.1.Reachable ∧ (ahead.1.encode 0 [⟨[101], []⟩]).result = .ok [2, 0, 128] ∧
    InsertCount.unwrap? ahead.1.settings.maxTableCapacity 3
      (InsertCount.wrap ahead.1.settings.maxTableCapacity 5) = some 5 := by
  refine ⟨reachable_ahead, encode_ahead, ?_⟩
  obtain ⟨s, base, lines, hlast, -, -, hiff, -⟩ := unwrap?_encode_iff reachable_ahead encode_ahead
  obtain rfl := Option.some.inj (hlast.symm.trans getLast?_ahead)
  exact (hiff (by decide) 3 (by decide +kernel)).2 (by decide +kernel)

/-- A peer that has all insertions known to have arrived may find another count, and take the section
for other fields: after the first insertion, `e` is read as `a`. -/
theorem not_unwrap?_encode :
    (¬ ∀ (e : Encoder) (stream : Nat) (fields : List Field) (octets : Octets) (s : SentSection) (T : Nat),
      e.Reachable → (e.encode stream fields).result = .ok octets →
      ((e.encode stream fields).encoder.streams.queue stream).getLast? = some s →
      0 < s.requiredInsertCount → (e.encode stream fields).encoder.known ≤ T →
      T ≤ (e.encode stream fields).encoder.table.inserted →
      InsertCount.unwrap? e.settings.maxTableCapacity T
        (InsertCount.wrap e.settings.maxTableCapacity s.requiredInsertCount) = some s.requiredInsertCount) ∧
    ((PeerTable.empty 66).followAll? (ahead.2.take 2)).bind (·.decode? [2, 0, 128]) =
      some ⟨1, [⟨[97], []⟩]⟩ := by
  refine ⟨fun hall => ?_, by decide +kernel⟩
  have hfound := hall ahead.1 0 [⟨[101], []⟩] [2, 0, 128] ⟨5, true, [4]⟩ 1 reachable_ahead encode_ahead
    getLast?_ahead (by decide) (by decide +kernel) (by decide +kernel)
  exact absurd hfound (by decide +kernel)

end Qpack.Encoder
