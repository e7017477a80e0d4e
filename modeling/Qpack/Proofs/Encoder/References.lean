import Qpack.Proofs.Encoder.Run
import Qpack.Proofs.Section.Head

/-!
# References from sections to entries

The counts are kept in the table, what is counted in the queues of the streams.

* `Encoder.TracksReferences` : the two agree, and what follows from that for the entries, for giving
  references up and taking new ones;
* `Sound.inserted_lt_of_mem` : how far the insert count can be ahead of an outstanding section;
* `Sound.unwrap?_iff` : which peers find its required insert count again;
* `Reachable.tracksReferences` : so it is after any operations.
-/

namespace Qpack.Encoder
variable {e : Encoder}

/-- The counts of the entries are those of the references that outstanding sections hold. -/
structure TracksReferences (e : Encoder) : Prop where
  /-- What an outstanding section refers to is in the table. -/
  live : ∀ stream, ∀ s ∈ e.streams.queue stream, ∀ i ∈ s.references, e.table.contains i = true
  /-- An entry counts how often its index occurs in all outstanding sections. -/
  exact : ∀ x ∈ e.table.entries, x.references = e.streams.references.count x.index
  /-- Sections can be given up from the front of a queue: each reference finds its entry, and a count
  above zero. -/
  release : ∀ stream gone, gone <+: e.streams.queue stream →
    (gone.flatMap (·.references)).foldlM DynamicTable.release? e.table =
      some ((gone.flatMap (·.references)).foldl DynamicTable.release e.table)
  /-- The references that a section takes while it is drafted find their entries as well, and are
  counted at once. -/
  refer : ∀ fields,
    (∀ i ∈ (Draft.ofFields e fields).sent.references,
      (Draft.ofFields e fields).encoder.table.contains i = true) ∧
    ∀ x ∈ (Draft.ofFields e fields).encoder.table.entries, x.references =
      (Draft.ofFields e fields).sent.references.count x.index + e.streams.references.count x.index
  /-- As long as something depends on an entry, it stays what it is. -/
  kept : ∀ ops i, i ∈ (e.run ops).1.streams.references → i < e.table.inserted →
    ∃ f, e.table.field? i = some f ∧ (e.run ops).1.table.field? i = some f
  /-- Without outstanding sections nothing is counted. -/
  idle : (∀ stream, e.outstanding stream = 0) → ∀ x ∈ e.table.entries, x.references = 0

/-- What an outstanding section refers to is among all that is referred to. -/
theorem mem_references {stream i : Nat} {s : SentSection} (hs : s ∈ e.streams.queue stream)
    (hi : i ∈ s.references) : i ∈ e.streams.references :=
  List.mem_flatMap.2 ⟨s, Streams.queue_subset_sections e.streams stream hs, hi⟩

theorem Sound.release_prefix (h : Sound e .empty) {stream : Nat} {gone : SentQueue}
    (hg : gone <+: e.streams.queue stream) :
    (gone.flatMap (·.references)).foldlM DynamicTable.release? e.table =
      some ((gone.flatMap (·.references)).foldl DynamicTable.release e.table) := by
  obtain ⟨rest, hrest⟩ := hg
  -- the references of the queue come first, in some order of all that is referred to
  have hp := Streams.references_put_perm e.streams stream []
  rw [List.flatMap_nil, List.append_nil, ← hrest, List.flatMap_append] at hp
  have hp' := hp.symm.trans List.perm_append_comm
  rw [List.append_assoc] at hp'
  exact ((h.counts.perm hp').foldl_release h.valid).2

theorem Sound.draft_counts (h : Sound e .empty) (fields : List Field) :
    (Draft.ofFields e fields).encoder.table.Counts
      ((Draft.ofFields e fields).sent.references ++ e.streams.references) := by
  have hm := (Draft.says_ofFields h fields).1
  have hc := (hm.sound h).counts
  rw [hm.streams] at hc
  exact hc

theorem Sound.kept (h : Sound e .empty) (ops : List Operation) {i : Nat}
    (hi : i ∈ (e.run ops).1.streams.references) (hlt : i < e.table.inserted) :
    ∃ f, e.table.field? i = some f ∧ (e.run ops).1.table.field? i = some f := by
  have hrun := h.run ops
  obtain ⟨x, hx, rfl⟩ := hrun.valid.contains_iff.1 (hrun.counts.live i hi)
  have hf := hrun.valid.field?_of_mem hx
  exact ⟨x.field, (agesTo_run h ops).keeps _ hlt _ hf, hf⟩

theorem Sound.references_eq_nil (h : Sound e .empty) (hidle : ∀ stream, e.outstanding stream = 0) :
    e.streams.references = [] := by
  have hsections : e.streams.sections = [] := by
    refine List.eq_nil_iff_forall_not_mem.2 fun s hs => ?_
    obtain ⟨id, hid⟩ := h.distinct.mem_sections_iff.1 hs
    rw [List.length_eq_zero_iff.1 (hidle id)] at hid
    cases hid
  rw [Streams.references, hsections, List.flatMap_nil]

/-! ## How old a reference can be -/

/-- Since then no more entries were inserted than a table of the largest capacity can hold. -/
theorem Sound.inserted_le_of_mem (h : Sound e .empty) {i : Nat} (hi : i ∈ e.streams.references) :
    e.table.inserted ≤ i + InsertCount.maxEntries e.settings.maxTableCapacity := by
  obtain ⟨x, hx, rfl⟩ := h.valid.contains_iff.1 (h.counts.live i hi)
  have hlen := h.valid.length_le_maxEntries.trans h.capacity_le
  have hle : e.table.entries.length ≤ e.settings.maxTableCapacity / Field.overhead :=
    (Nat.le_div_iff_mul_le (by decide)).2 (by rw [Nat.mul_comm]; exact hlen)
  exact (h.valid.inserted_le hx).trans (Nat.add_le_add_left hle _)

/-- The insert count is less than half a turn ahead of what an outstanding section needs. -/
theorem Sound.inserted_lt_of_mem (h : Sound e .empty) {s : SentSection} (hs : s ∈ e.streams.sections)
    (hpos : 0 < s.requiredInsertCount) :
    e.table.inserted < s.requiredInsertCount + InsertCount.maxEntries e.settings.maxTableCapacity := by
  have hr := h.required_of_mem hs
  obtain ⟨i, hi, hlast⟩ := exists_of_needed (hr ▸ hpos)
  have hle := h.inserted_le_of_mem (List.mem_flatMap.2 ⟨s, hs, hi⟩)
  omega

/-- A peer that is behind finds the required insert count of an outstanding section again if and only
if it lacks no more insertions than the largest table can hold entries. -/
theorem Sound.unwrap?_iff (h : Sound e .empty) {s : SentSection} (hs : s ∈ e.streams.sections)
    (hpos : 0 < s.requiredInsertCount) {inserted : Nat} (hle : inserted ≤ e.table.inserted) :
    InsertCount.unwrap? e.settings.maxTableCapacity inserted
        (InsertCount.wrap e.settings.maxTableCapacity s.requiredInsertCount) = some s.requiredInsertCount ↔
      s.requiredInsertCount ≤ inserted + InsertCount.maxEntries e.settings.maxTableCapacity := by
  have hlt := h.inserted_lt_of_mem hs hpos
  have hneed := h.required_le hs
  rw [InsertCount.unwrap?_wrap_iff (by omega) hpos]
  -- it is less than half a turn ahead in any case
  constructor
  · intro hw
    exact hw.1
  · intro hw
    exact ⟨hw, by omega⟩

/-! ## All operations -/

/-- After any operations, whatever the peer reports, the counts are those of the outstanding sections.
-/
theorem Reachable.tracksReferences (h : e.Reachable) : e.TracksReferences where
  live stream s hs i hi := h.sound.counts.live i (mem_references hs hi)
  exact := h.sound.counts.count
  release _ _ hg := h.sound.release_prefix hg
  refer fields := by
    have hc := h.sound.draft_counts fields
    refine ⟨fun i hi => hc.live i (List.mem_append_left _ hi), fun x hx => ?_⟩
    rw [hc.count x hx, List.count_append]
  kept ops i hi hlt := h.sound.kept ops hi hlt
  idle hidle x hx := by
    rw [h.sound.counts.count x hx]
    show (e.streams.references).count x.index = 0
    rw [h.sound.references_eq_nil hidle, List.count_nil]

/-- A section that refers to an entry twice, and counts twice. -/
def sentTwice : Encoder :=
  ((new .default).run [.setCapacity 200, .insert ⟨[97], [98]⟩, .encode 0 [⟨[97], [98]⟩, ⟨[97], [98]⟩]]).1

theorem sentTwice_tracksReferences : sentTwice.Reachable ∧ sentTwice.TracksReferences ∧
    sentTwice.streams.references = [0, 0] ∧ sentTwice.table.entries = [⟨⟨[97], [98]⟩, 0, 2⟩] := by
  have hr : sentTwice.Reachable := ⟨.default, new .default, _, rfl, rfl⟩
  exact ⟨hr, hr.tracksReferences, by decide +kernel, by decide +kernel⟩

end Qpack.Encoder
