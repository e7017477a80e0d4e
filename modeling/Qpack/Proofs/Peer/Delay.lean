import Qpack.Proofs.Encoder.References
import Qpack.Proofs.Encoder.Transmission
import Qpack.Proofs.Peer.Decode
import Qpack.Proofs.Peer.Mirror

/-!
# Decoding after a delay

A section arrives on its own stream, at any time before or after the instructions that the encoder has
sent since. The peer can decode it as soon as it has the insertions that the section needs, and as long
as the section is outstanding.

* `field?_of_reference` : what an outstanding section refers to is in the peer's table;
* `decode?_of_carries` : a peer that has followed enough instructions decodes an outstanding section;
* `decode?_inFlight` : so it is after any operations.
-/

namespace Qpack
open Encoder

variable {e : Encoder} {peer later : PeerTable} {s : SentSection} {x : Transmission}

/-- What an outstanding section refers to is in the table of a peer that is behind, if the peer has it
already. -/
theorem field?_of_reference (h : Sound e .empty) (hlater : Mirrors later e)
    (hages : Ages peer.inserted peer.field? later.inserted later.field?) {i : Nat}
    (hi : i ∈ e.streams.references) (hlt : i < peer.inserted) : peer.field? i = e.table.field? i := by
  obtain ⟨y, hy, rfl⟩ := h.valid.contains_iff.1 (h.counts.live i hi)
  rw [h.valid.field?_of_mem hy]
  exact hages.keeps _ hlt _ (hlater.field?_of_mem h.valid hy)

/-- The required insert count of an outstanding section is found again by every peer that has enough
insertions. -/
theorem unwrap?_of_outstanding (h : Sound e .empty) (hs : s ∈ e.streams.sections) {inserted : Nat}
    (hhas : s.requiredInsertCount ≤ inserted) (hle : inserted ≤ e.table.inserted) :
    InsertCount.unwrap? e.settings.maxTableCapacity inserted
      (InsertCount.wrap e.settings.maxTableCapacity s.requiredInsertCount) = some s.requiredInsertCount := by
  rcases Nat.eq_zero_or_pos s.requiredInsertCount with h0 | hpos
  · rw [h0]
    rfl
  · exact (h.unwrap?_iff hs hpos hle).2 (Nat.le_add_right_of_le hhas)

/-- A peer that is behind, but has the insertions that an outstanding section needs, decodes it to the
fields that it was made from. -/
theorem decode?_of_carries (h : Sound e .empty) (hs : s ∈ e.streams.sections) (hc : Carries e s x)
    (hlater : Mirrors later e) (hages : Ages peer.inserted peer.field? later.inserted later.field?)
    (hmax : peer.maxCapacity = e.settings.maxTableCapacity) (hhas : s.requiredInsertCount ≤ peer.inserted)
    (hcap : e.settings.maxTableCapacity < 2 ^ 56)
    (hshort : ∀ f ∈ x.fields, f.name.length ≤ Integer.maximum ∧ f.value.length ≤ Integer.maximum) :
    peer.decode? x.octets = some ⟨s.requiredInsertCount, x.fields⟩ := by
  obtain ⟨base, lines, hbase, hlt, hlines, hoctets, hmeans⟩ := hc
  have hreq : s.requiredInsertCount = needed (lines.filterMap FieldLine.index?) := by
    rw [h.required_of_mem hs, hlines]
  have hmem : ∀ i ∈ s.references, i ∈ e.streams.references := fun i hi => List.mem_flatMap.2 ⟨s, hs, hi⟩
  have hbelow : ∀ i ∈ s.references, i < s.requiredInsertCount := by
    rw [hlines]
    exact needed_le.1 (Nat.le_of_eq hreq.symm)
  have hmeans' : lines.mapM (FieldLine.meaning? peer.field?) = some x.fields := by
    rw [← hmeans]
    refine FieldLine.mapM_meaning?_congr fun i hi => ?_
    rw [← hlines] at hi
    exact field?_of_reference h hlater hages (hmem i hi) (Nat.lt_of_lt_of_le (hbelow i hi) hhas)
  have hfits : ∀ l ∈ lines, l.Fits base := by
    intro l hl
    obtain ⟨f, hf, hlf⟩ := exists_of_mapM hmeans' hl
    refine FieldLine.fits_of_meaning? hlf (hshort f hf) fun i hi => ?_
    have hi' : i ∈ s.references := by
      rw [hlines]
      exact FieldLine.mem_filterMap_index? hl hi
    have hnear := h.inserted_le_of_mem (hmem i hi')
    have hi'' := hlt i hi'
    have hM : InsertCount.maxEntries e.settings.maxTableCapacity ≤ e.settings.maxTableCapacity / 32 := Nat.le_refl _
    rw [Integer.maximum, Nat.one_shiftLeft]
    exact ⟨by omega, by omega⟩
  have hwrap := InsertCount.wrap_le_of_lt (hcap.trans (by decide)) s.requiredInsertCount
  have hunwrap := unwrap?_of_outstanding h hs hhas (hages.le.trans_eq hlater.inserted)
  rw [hoctets, ← hmax]
  rw [← hmax] at hwrap hunwrap
  exact PeerTable.decode?_write (show SectionHead.mk s.requiredInsertCount base = _ by rw [hreq]) hwrap hunwrap
    hhas hfits hmeans'

/-- So it is with whatever is outstanding after any operations, and the required insert count is the
least for the entries that the lines refer to. The peer may have followed the instructions up to any
point at which it has the insertions that the section needs. -/
theorem decode?_inFlight {settings : Settings} {start : Encoder} (hstart : ofSettings settings = .ok start)
    (hcap : settings.maxTableCapacity < 2 ^ 56) (ops : List Operation) (stream : Nat) :
    (start.inFlight ops stream).map Prod.snd = (start.run ops).1.streams.queue stream ∧
    ∀ x s, (x, s) ∈ start.inFlight ops stream →
      (∀ f ∈ x.fields, f.name.length < 2 ^ 62 ∧ f.value.length < 2 ^ 62) →
      (∃ (base : Nat) (lines : List FieldLine),
        x.octets = SectionHead.write settings.maxTableCapacity ⟨s.requiredInsertCount, base⟩ ++
          lines.flatMap (FieldLine.write base) ∧
        s.requiredInsertCount = needed (lines.filterMap FieldLine.index?)) ∧
      ∀ followed, followed <+: (start.run ops).2 →
        s.requiredInsertCount ≤ followed.countP Instruction.inserts →
        ∃ peer, (PeerTable.empty settings.maxTableCapacity).followAll? followed = some peer ∧
          peer.decode? x.octets = some ⟨s.requiredInsertCount, x.fields⟩ := by
  obtain rfl := eq_new_of_ofSettings hstart
  have h := (sound_new settings).run ops
  have hset := settings_run (sound_new settings) ops
  have hqueue := map_snd_inFlight settings ops stream
  refine ⟨hqueue, fun x s hx hshort => ?_⟩
  have hc := carries_inFlight hx
  have hs : s ∈ ((new settings).run ops).1.streams.sections :=
    Streams.queue_subset_sections _ stream (hqueue ▸ List.mem_map_of_mem hx)
  refine ⟨?_, fun followed hpre henough => ?_⟩
  · obtain ⟨base, lines, -, -, hlines, hoctets, -⟩ := hc
    rw [hset] at hoctets
    exact ⟨base, lines, hoctets, by rw [h.required_of_mem hs, hlines]⟩
  · obtain ⟨later, hlater, hmirrors⟩ := (Mirrors.empty settings).run (sound_new settings) ops
    obtain ⟨rest, hrest⟩ := hpre
    rw [← hrest, PeerTable.followAll?_append] at hlater
    obtain ⟨peer, hfollow, hlater⟩ := Option.bind_eq_some_iff.1 hlater
    have hvalid := (PeerTable.Valid.empty settings.maxTableCapacity).followAll? hfollow
    have hinserted := PeerTable.inserted_of_followAll? hfollow
    have hmax := PeerTable.maxCapacity_of_followAll? hfollow
    refine ⟨peer, hfollow, decode?_of_carries h hs hc hmirrors (hvalid.ages_of_followAll? hlater) ?_ ?_ ?_ ?_⟩
    · rw [hset]
      exact hmax
    · rw [hinserted]
      exact henough.trans (Nat.le_add_left _ _)
    · rw [hset]
      exact hcap
    · intro f hf
      exact ⟨Nat.le_sub_one_of_lt (hshort f hf).1, Nat.le_sub_one_of_lt (hshort f hf).2⟩

/-- A section that needs the first of two insertions. -/
def between : List Operation :=
  [.setCapacity 66, .insert ⟨[97], []⟩, .encode 0 [⟨[97], []⟩], .insert ⟨[98], []⟩]

/-- The peer decodes it before the second insertion arrives. -/
theorem decode?_inFlight_between :
    ((⟨[⟨[97], []⟩], [2, 0, 128]⟩, ⟨1, true, [0]⟩) : Transmission × SentSection) ∈
      (new ⟨66, 1, 50, true, false⟩).inFlight between 0 ∧
    ((new ⟨66, 1, 50, true, false⟩).run between).2.length = 3 ∧
    ∃ peer, (PeerTable.empty 66).followAll? (((new ⟨66, 1, 50, true, false⟩).run between).2.take 2) = some peer ∧
      peer.decode? [2, 0, 128] = some ⟨1, [⟨[97], []⟩]⟩ := by
  have hx : ((⟨[⟨[97], []⟩], [2, 0, 128]⟩, ⟨1, true, [0]⟩) : Transmission × SentSection) ∈
      (new ⟨66, 1, 50, true, false⟩).inFlight between 0 := by decide +kernel
  have hstart : ofSettings ⟨66, 1, 50, true, false⟩ = .ok (new ⟨66, 1, 50, true, false⟩) := rfl
  refine ⟨hx, by decide +kernel, ?_⟩
  exact ((decode?_inFlight hstart (by decide) between 0).2 _ _ hx (by decide +kernel)).2 _ (List.take_prefix 2 _)
    (by decide +kernel)

end Qpack
