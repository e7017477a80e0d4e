import Qpack.Proofs.Encoder.Run
import Qpack.Proofs.Section.Line

/-!
# Sections and their records

What a section depends on is found twice: by its lines when the head is written, and while the lines are
chosen, for the record that stays behind until the peer reports the section as decoded.

* `FieldLine.le_head_write` : the first octet of a line that does not count on from the base;
* `Encoder.Records` : a record says of a section what its octets say;
* `Reachable.records` : so it is with the section that was encoded last.
-/

namespace Qpack

/-- A line that refers to nothing from the base on does not begin like one that counts on from the base. -/
theorem FieldLine.le_head_write {base : Nat} {l : FieldLine} (h : ∀ i, l.index? = some i → i < base)
    (rest : Octets) : ∃ b, (l.write base ++ rest).head? = some b ∧ 32 ≤ b.toNat := by
  rcases l with ⟨index | index⟩ | ⟨index | index, value, never, huffman⟩ | ⟨name, value, never, huffman⟩
  · exact Integer.le_head_write (by decide) (by decide) (by decide) index rest
  · rw [write, if_pos (h index rfl)]
    exact Integer.le_head_write (by decide) (by decide) (by decide) _ rest
  · rw [write, List.append_assoc]
    exact Integer.le_head_write (by decide) (by cases never <;> decide) (by cases never <;> decide) index _
  · rw [write, if_pos (h index rfl), List.append_assoc]
    exact Integer.le_head_write (by decide) (by cases never <;> decide) (by cases never <;> decide) _ _
  · have hflags : (0x20 ||| flag never 0x10 : UInt8).toNat % 2 ^ (3 + 1) = 0 ∧
        32 ≤ (0x20 ||| flag never 0x10 : UInt8).toNat := by
      cases never <;> decide
    obtain ⟨b, hb, hle, -⟩ := Literal.head?_write (by decide : 3 ≤ 7) hflags.1 name huffman
      (Literal.write 7 0x00 value huffman ++ rest)
    rw [write, List.append_assoc]
    exact ⟨b, hb, hflags.2.trans hle⟩

namespace Encoder

/-- The record of a section that `e` has encoded says what the octets of the section say. -/
structure Records (e : Encoder) (stream : Nat) (fields : List Field) (octets : Octets) (s : SentSection)
    (lines : List FieldLine) : Prop where
  /-- It is the last of the queue. -/
  queue : (e.encode stream fields).encoder.streams.queue stream = e.streams.queue stream ++ [s]
  /-- The queues of the other streams stay as they are. -/
  others : ∀ id, id ≠ stream →
    (e.encode stream fields).encoder.streams.queue id = e.streams.queue id
  /-- The required insert count of the record is on the wire, and the base is the insert count. -/
  octets : octets =
    SectionHead.write e.settings.maxTableCapacity
        ⟨s.requiredInsertCount, (e.encode stream fields).encoder.table.inserted⟩ ++
      lines.flatMap (FieldLine.write (e.encode stream fields).encoder.table.inserted)
  /-- The lines mean the fields. -/
  means : lines.mapM (FieldLine.meaning? (e.encode stream fields).encoder.table.field?) = some fields
  /-- The references are those of the lines, in their order. -/
  references : s.references = lines.filterMap FieldLine.index?
  /-- The last of the entries is needed. -/
  required : s.requiredInsertCount = (s.references.max?.map (· + 1)).getD 0
  /-- The base does not lie below the required insert count. -/
  sign : SectionHead.sign ⟨s.requiredInsertCount, (e.encode stream fields).encoder.table.inserted⟩ = false
  /-- The entries are in the table, before the base. -/
  live : ∀ i ∈ s.references, i < (e.encode stream fields).encoder.table.inserted ∧
    (e.encode stream fields).encoder.table.contains i = true
  /-- No line counts on from the base. -/
  back : ∀ l ∈ lines, ∀ rest, ∃ b,
    (l.write (e.encode stream fields).encoder.table.inserted ++ rest).head? = some b ∧ 32 ≤ b.toNat

variable {e : Encoder} {stream : Nat} {fields : List Field} {octets : Octets}

/-- The section that was encoded last is recorded as it went out. -/
theorem Reachable.records (h : e.Reachable) (hok : (e.encode stream fields).result = .ok octets) :
    ∃ s lines, Records e stream fields octets s lines := by
  obtain ⟨hm, hs⟩ := Draft.says_ofFields h.sound fields
  have hsound := hm.sound h.sound
  have hhead := Draft.requiredInsertCount_ofFields h.sound fields
  have hencode := encode_eq (refusedName?_eq_none hok) stream
  generalize Draft.ofFields e fields = d at hm hs hsound hhead hencode
  have hneeded : d.sent.requiredInsertCount = needed d.sent.references := hsound.required _ List.mem_cons_self
  have hlive : ∀ i ∈ d.sent.references, i < d.encoder.table.inserted ∧ d.encoder.table.contains i = true := by
    intro i hi
    have hmem := List.mem_append_left d.encoder.streams.references hi
    exact ⟨hsound.counts.lt hsound.valid hmem, hsound.counts.live i hmem⟩
  have hrequired : d.sent.requiredInsertCount ≤ d.encoder.table.inserted := by
    rw [hneeded]
    exact needed_le.2 fun i hi => (hlive i hi).1
  have hsettings : d.encoder.settings = e.settings := by
    obtain ⟨out, hsteps, -⟩ := hm.steps
    exact hsteps.settings
  have hstreams : d.encoder.streams = e.streams := hm.streams
  have hafter : (e.encode stream fields).encoder = d.encoder.send stream d.sent := by rw [hencode]
  refine ⟨d.sent, d.lines, ?_⟩
  constructor
  · rw [hafter, queue_send_self, hstreams]
  · intro id hid
    rw [hafter, queue_send_of_ne _ hid.symm, hstreams]
  · rw [hencode] at hok
    rw [hafter, ← Except.ok.inj hok, Draft.octets, Draft.head, hhead, hsettings]
    rfl
  · rw [hafter]
    exact hs.means
  · exact hs.references
  · rw [hneeded, needed_eq_max?]
  · rw [hafter]
    exact decide_eq_false (Nat.not_lt.2 hrequired)
  · rw [hafter]
    exact hlive
  · intro l hl rest
    rw [hafter]
    apply FieldLine.le_head_write
    intro i hi
    have hmem := FieldLine.mem_filterMap_index? hl hi
    rw [← hs.references] at hmem
    exact (hlive i hmem).1

/-- Three entries, the oldest of which drains. -/
def threeEntries : Encoder :=
  ((new .default).run [.setCapacity 160, .insert (.ofText "key" "value"), .insert (.ofText "name" "value"),
    .insert (.ofText "last" "value")]).1

/-- Two entries by field, one of them again by name, and an entry of the static table. -/
def mentions : List Field :=
  [.ofText "name" "value", .ofText "last" "value", .ofText "last" "other", .ofText ":method" "GET"]

/-- The name comes with an insertion, so that the base lies one above the required insert count. -/
theorem records_threeEntries : threeEntries.Reachable ∧
    (threeEntries.encode 4 mentions).result =
      .ok [4, 1, 130, 129, 65, 132, 58, 103, 45, 159, 209] ∧
    ∃ s lines, Records threeEntries 4 mentions [4, 1, 130, 129, 65, 132, 58, 103, 45, 159, 209] s lines ∧
      s = ⟨3, true, [1, 2, 2]⟩ ∧ (threeEntries.encode 4 mentions).encoder.table.inserted = 4 := by
  have hr : threeEntries.Reachable := ⟨.default, new .default, _, rfl, rfl⟩
  have hok : (threeEntries.encode 4 mentions).result =
      .ok [4, 1, 130, 129, 65, 132, 58, 103, 45, 159, 209] := by decide +kernel
  obtain ⟨s, lines, hrecords⟩ := hr.records hok
  have hqueue : (threeEntries.encode 4 mentions).encoder.streams.queue 4 = [⟨3, true, [1, 2, 2]⟩] := by
    decide +kernel
  have hbefore : threeEntries.streams.queue 4 = [] := by decide +kernel
  have hlast := hrecords.queue
  rw [hqueue, hbefore] at hlast
  exact ⟨hr, hok, s, lines, hrecords, (List.singleton_inj.1 hlast).symm, by decide +kernel⟩

end Encoder
end Qpack
