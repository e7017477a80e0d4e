import Qpack.Proofs.Encoder.Guided
import Qpack.Proofs.Table.Copies
import Qpack.Proofs.Table.Lookup

/-!
# Copies that an encoder makes

An encoder changes its table by operations that the table allows, and those of encoding bring no second copy
of a field beyond the zone.

* `Draft.Gains d f i d'` : one entry comes, of the field `f`, by the instruction `i`;
* `Draft.Inserts d f d'` : what comes when `f` is written, and for what reason;
* `Wrote.inserts`, `Wrote.leads` : so it is with every way to write a field;
* `leads_ofFields`, `leads_receive` : a section, and a report of the peer, as operations on the table;
* `Reachable.table` : the table of an encoder is one that operations on tables lead to;
* `Encoder.Spares e op` : the operation is no insertion outside of sections, and asks for no higher capacity;
* `SparesCopies`, `Reachable.sparesCopies` : what holds after any operations.
-/

namespace Qpack
open DynamicTable (Leads Spares leads_add leads_drain)

theorem StaticTable.not_mem_of_indices {f : Field} (h : indices (· = f) = ∅) : f ∉ fields := by
  intro hf
  obtain ⟨j, hj⟩ := List.getElem?_of_mem hf
  exact Set.eq_empty_iff_forall_notMem.1 h j ⟨f, hj, rfl⟩

/-! ## What a field brings -/

namespace Draft
open Encoder
variable {d d' r : Draft} {f : Field} {i : Instruction} {e : Encoder}

/-- One entry comes, and the peer is told by one instruction. -/
structure Gains (d : Draft) (f : Field) (i : Instruction) (d' : Draft) : Prop where
  inserted : d'.encoder.table.inserted = d.encoder.table.inserted + 1
  entry : d'.encoder.table.field? d.encoder.table.inserted = some f
  emitted : d'.emitted = d.emitted ++ [i]

/-- What comes with a field, and for what reason. -/
inductive Inserts (d : Draft) (f : Field) (d' : Draft) : Prop where
  | nothing : d'.encoder.table.inserted = d.encoder.table.inserted → d'.emitted = d.emitted → Inserts d f d'
  /-- Neither table has the field. -/
  | fresh {i : Instruction} : f ∉ StaticTable.fields → (∀ x ∈ d.encoder.table.entries, x.field ≠ f) →
    (∀ distance, i ≠ .duplicate distance) → Gains d f i d' → Inserts d f d'
  /-- The newest entry of the field drains, and is copied. -/
  | copy {index : Nat} : f ∉ StaticTable.fields → IsGreatest (d.encoder.table.indices (· = f)) index →
    index < d.encoder.table.drainingIndex →
    Gains d f (.duplicate (d.encoder.table.inserted - 1 - index)) d' → Inserts d f d'

theorem gains_insert (h : Sound d.encoder d.sent) (ha : d.encoder.admits f = true) (i : Instruction) :
    Gains d f i (d.insert f i) := by
  have hf := (admits_eq_true.1 ha).2
  exact ⟨DynamicTable.inserted_add hf, h.valid.field?_add_self h.waits hf, rfl⟩

/-- A reference in between brings nothing. -/
theorem Gains.refer (hg : Gains d f i d') (h : Sound d'.encoder d'.sent) {entry : EntryRef}
    (hr : d'.refer? entry = some r) : Gains d f i r := by
  have hrefers := refers_of_refer? h hr
  refine ⟨hrefers.inserted.trans hg.inserted, ?_, (refer?_silent hr).1.trans hg.emitted⟩
  rw [hrefers.field?, hg.entry]

theorem Gains.line (hg : Gains d f i d') (l : FieldLine) : Gains d f i (d'.line l) :=
  ⟨hg.inserted, hg.entry, hg.emitted⟩

theorem gains_refer_insert (h : Sound d.encoder d.sent) {entry : EntryRef} (hr : d.refer? entry = some r)
    (ha : d.encoder.admits f = true) (i : Instruction) : Gains d f i (r.insert f i) := by
  have hrefers := refers_of_refer? h hr
  have hg := gains_insert (hrefers.toMoves.sound h) (admits_of_refer? hr ha) i
  refine ⟨?_, ?_, ?_⟩
  · rw [hg.inserted, hrefers.inserted]
  · rw [← hrefers.inserted, hg.entry]
  · rw [hg.emitted, (refer?_silent hr).1]

/-- A field that is wanted, where no entry serves, is in neither table. -/
theorem absent_of_wantsEntry (h : Sound d.encoder d.sent) (hi : d.indexed? f = none)
    (hwant : d.wantsEntry f = true) : f ∉ StaticTable.fields ∧ ∀ x ∈ d.encoder.table.entries, x.field ≠ f := by
  rcases hl : d.encoder.table.lookup f with _ | index | index
  · obtain ⟨hstatic, hdynamic⟩ := (h.valid.isBest_lookup f).none_iff.1 hl
    refine ⟨StaticTable.not_mem_of_indices hstatic, fun x hx hf => ?_⟩
    exact Set.eq_empty_iff_forall_notMem.1 hdynamic x.index ⟨x, hx, rfl, hf⟩
  · -- a static entry is always at hand
    unfold indexed? at hi
    rw [hl] at hi
    cases hi
  · unfold wantsEntry at hwant
    rw [hl] at hwant
    simp [EntryRef.isStatic] at hwant

/-- A dynamic entry that is found and must not be referred to is the newest copy, and drains. -/
theorem draining_of_lookup (h : Sound d.encoder d.sent) {index : Nat}
    (hl : d.encoder.table.lookup f = some (.dynamic index))
    (hc : d.encoder.table.canReference index = false) :
    f ∉ StaticTable.fields ∧ IsGreatest (d.encoder.table.indices (· = f)) index ∧
      index < d.encoder.table.drainingIndex := by
  obtain ⟨hstatic, hgreatest⟩ := ((h.valid.isBest_lookup f).dynamic_iff index).1 hl
  refine ⟨StaticTable.not_mem_of_indices hstatic, hgreatest, ?_⟩
  unfold DynamicTable.canReference at hc
  rw [h.valid.contains_of_isGreatest hgreatest, Bool.true_and] at hc
  exact Nat.not_le.1 (of_decide_eq_false hc)

theorem insertion_ne_duplicate (e : Encoder) (f : Field) (entry : Option EntryRef) (distance : Nat) :
    e.insertion f entry ≠ .duplicate distance := by
  rcases entry with _ | index | index
  · exact Instruction.noConfusion
  · exact Instruction.noConfusion
  · exact Instruction.noConfusion

/-- Whichever way is taken, a field brings an entry only where there is none or where the newest drains. -/
theorem Wrote.inserts (h : Sound d.encoder d.sent) (hw : Wrote d f d') : Inserts d f d' := by
  cases hw with
  | indexed _ hr => exact .nothing (refers_of_refer? h hr).inserted (refer?_silent hr).1
  | copied _ hl hc ha hr =>
    obtain ⟨hstatic, hgreatest, hlt⟩ := draining_of_lookup h hl hc
    have hm := moves_insert ha (duplicate_field? h.valid (DynamicTable.find?_of_lookup hl))
    exact .copy hstatic hgreatest hlt (((gains_insert h ha _).refer (hm.sound h) hr).line _)
  | copiedInVain _ hl hc ha _ =>
    -- the copy is there whether the section may wait for it or not
    obtain ⟨hstatic, hgreatest, hlt⟩ := draining_of_lookup h hl hc
    exact .copy hstatic hgreatest hlt ((gains_insert h ha _).line _)
  | named _ _ _ hr _ => exact .nothing (refers_of_refer? h hr).inserted (refer?_silent hr).1
  | namedInserted hi _ _ hr hwant =>
    obtain ⟨hstatic, habsent⟩ := absent_of_wantsEntry h hi hwant
    have ha := admits_of_wantsEntry hwant
    exact .fresh hstatic habsent (insertion_ne_duplicate _ f _) ((gains_refer_insert h hr ha _).line _)
  | literal _ _ _ _ => exact .nothing rfl rfl
  | literalInserted hi _ _ hwant =>
    obtain ⟨hstatic, habsent⟩ := absent_of_wantsEntry h hi hwant
    have ha := admits_of_wantsEntry hwant
    exact .fresh hstatic habsent (insertion_ne_duplicate _ f none) ((gains_insert h ha _).line _)

/-- Where an entry comes, all that were there of the field drain. -/
theorem Inserts.draining (hi : Inserts d f d') (hlt : d.encoder.table.inserted < d'.encoder.table.inserted)
    {x : Entry} (hx : x ∈ d.encoder.table.entries) (hf : x.field = f) :
    x.index < d.encoder.table.drainingIndex := by
  cases hi with
  | nothing hn _ => exact absurd hn (Nat.ne_of_gt hlt)
  | fresh _ habsent _ _ => exact absurd hf (habsent x hx)
  | copy _ hgreatest hzone _ => exact (hgreatest.2 ⟨x, hx, rfl, hf⟩).trans_lt hzone

/-! ## Drafting as operations on the table -/

theorem leads_refer? {entry : EntryRef} (hr : d.refer? entry = some d') :
    Leads Spares d.encoder.table d'.encoder.table := by
  rcases refer?_cases hr with ⟨_, -, rfl⟩ | ⟨index, -, hc, ⟨-, rfl⟩ | ⟨-, -, -, rfl⟩⟩
  · exact .refl _
  · exact DynamicTable.leads_refer hc trivial
  · exact DynamicTable.leads_refer hc trivial

/-- A copy is no second one beyond the zone. -/
theorem leads_copy (h : Sound d.encoder d.sent) {index : Nat}
    (hl : d.encoder.table.lookup f = some (.dynamic index))
    (hc : d.encoder.table.canReference index = false) (ha : d.encoder.admits f = true) :
    Leads Spares d.encoder.table (d.encoder.table.add f) := by
  obtain ⟨-, hgreatest, hlt⟩ := draining_of_lookup h hl hc
  apply leads_add (admits_eq_true.1 ha).2
  intro x hx hf
  exact (hgreatest.2 ⟨x, hx, rfl, hf⟩).trans_lt hlt

theorem Wrote.leads (h : Sound d.encoder d.sent) (hw : Wrote d f d') :
    Leads Spares d.encoder.table d'.encoder.table := by
  cases hw with
  | indexed _ hr =>
    have hl := leads_refer? hr
    exact hl
  | copied _ hl hc ha hr => exact (leads_copy h hl hc ha).trans (leads_refer? hr)
  | copiedInVain _ hl hc ha _ => exact leads_copy h hl hc ha
  | named _ _ _ hr _ =>
    have hl := leads_refer? hr
    exact hl
  | @namedInserted entry r hi _ _ hr hwant =>
    obtain ⟨-, habsent⟩ := absent_of_wantsEntry h hi hwant
    have hrefers := refers_of_refer? h hr
    have hf := (admits_eq_true.1 (admits_of_refer? hr (admits_of_wantsEntry hwant))).2
    refine (leads_refer? hr).trans (leads_add hf fun x hx hxf => ?_)
    -- the reference leaves the fields as they are
    have hfield := (hrefers.toMoves.sound h).valid.field?_of_mem hx
    rw [hrefers.field?] at hfield
    obtain ⟨y, hy, -, hyf⟩ := h.valid.field?_eq_some_iff.1 hfield
    exact absurd (hyf.trans hxf) (habsent y hy)
  | literal _ _ _ _ => exact .refl _
  | literalInserted hi _ _ hwant =>
    obtain ⟨-, habsent⟩ := absent_of_wantsEntry h hi hwant
    exact leads_add (admits_eq_true.1 (admits_of_wantsEntry hwant)).2 fun x hx hxf => absurd hxf (habsent x hx)

theorem sound_ofFields_drain (h : Sound e .empty) (fields : List Field) :
    Sound (ofFields e fields).drain.encoder (ofFields e fields).drain.sent := by
  have hs := (says_ofFields h fields).1.sound h
  exact (moves_drain hs).sound hs

theorem inserts_ofFields (h : Sound e .empty) (before : List Field) (f : Field) :
    Inserts (ofFields e before).drain f (ofFields e (before ++ [f])) := by
  rw [ofFields_append_singleton]
  exact (wrote_write _ f).inserts (sound_ofFields_drain h before)

theorem leads_ofFields (h : Sound e .empty) (fields : List Field) :
    Leads Spares e.table (ofFields e fields).encoder.table := by
  induction fields using List.reverseRecOn with
  | nil => exact .refl _
  | append_singleton fields f ih =>
    rw [ofFields_append_singleton]
    exact (ih.trans (leads_drain trivial)).trans ((wrote_write _ f).leads (sound_ofFields_drain h fields))

theorem Inserts.inserted_le (hi : Inserts d f d') :
    d'.encoder.table.inserted ≤ d.encoder.table.inserted + 1 := by
  cases hi with
  | nothing hn _ => omega
  | fresh _ _ _ hg => exact hg.inserted.le
  | copy _ _ _ hg => exact hg.inserted.le

theorem inserted_drain (d : Draft) : d.drain.encoder.table.inserted = d.encoder.table.inserted :=
  (DynamicTable.changes_drain d.encoder.table).inserted

theorem inserted_ofFields_le (h : Sound e .empty) (fields : List Field) :
    (ofFields e fields).encoder.table.inserted ≤ e.table.inserted + fields.length := by
  induction fields using List.reverseRecOn with
  | nil => exact Nat.le_refl _
  | append_singleton fields f ih =>
    have hle := (inserts_ofFields h fields f).inserted_le
    rw [inserted_drain] at hle
    rw [List.length_append, List.length_singleton]
    omega

end Draft

/-! ## Operations as operations on the table -/

namespace Encoder
open Draft
variable {e : Encoder} {stream : Nat} {op : Operation} {fit : DynamicTable → TableOperation → Prop}

/-- The capacity that is asked for is the one to keep. -/
theorem target_setCapacity {c : Nat} (hc : ¬ e.settings.maxTableCapacity < c) :
    (e.setCapacity c).encoder.table.target = c := by
  rw [encoder_setCapacity hc]
  exact e.table.target_requestCapacity c

theorem leads_setCapacity {c : Nat} (hfit : fit e.table (.requestCapacity c)) :
    Leads fit e.table (e.setCapacity c).encoder.table := by
  unfold setCapacity
  split
  · exact .refl _
  · exact DynamicTable.leads_requestCapacity hfit

/-- Sections of a queue can give up what they hold. -/
theorem Sound.leads_release (h : Sound e .empty) {before gone after : SentQueue}
    (hq : e.streams.queue stream = before ++ gone ++ after) :
    Leads Spares e.table ((gone.flatMap (·.references)).foldl DynamicTable.release e.table) := by
  have hput := Streams.references_put_perm e.streams stream []
  rw [hq, List.flatMap_nil, List.append_nil, List.flatMap_append, List.flatMap_append] at hput
  have hfirst : e.streams.references.Perm (gone.flatMap (·.references) ++
      ((e.streams.put stream []).references ++ (before.flatMap (·.references) ++ after.flatMap (·.references)))) := by
    rw [List.perm_iff_count] at hput ⊢
    intro i
    rw [← hput i]
    simp only [List.count_append]
    omega
  exact (h.counts.perm hfirst).leads_release h.valid fun _ _ => trivial

theorem Sound.leads_acknowledge (h : Sound e .empty) (stream : Nat) :
    Leads Spares e.table (e.acknowledge stream).encoder.table := by
  unfold acknowledge
  split
  · exact .refl _
  · next oldest queue hack =>
    obtain ⟨skipped, hq, -, -⟩ := SentQueue.acknowledge?_eq_some hack
    rw [List.append_cons] at hq
    have hrelease := h.leads_release hq
    rw [List.flatMap_singleton] at hrelease
    exact hrelease.trans (leads_drain trivial)

theorem Sound.leads_cancel (h : Sound e .empty) (stream : Nat) :
    Leads Spares e.table (e.cancel stream).encoder.table := by
  unfold cancel
  split
  · exact .refl _
  · obtain ⟨n, hn⟩ := foldl_retire_eq { e with streams := e.streams.put stream [] } (e.streams.queue stream)
    have hq : e.streams.queue stream = [] ++ e.streams.queue stream ++ [] := by rw [List.nil_append, List.append_nil]
    dsimp only
    rw [hn]
    exact (h.leads_release hq).trans (leads_drain trivial)

theorem leads_increment (count : Nat) : Leads Spares e.table (e.increment count).encoder.table := by
  unfold increment
  split
  · exact .refl _
  · split <;> exact .refl _

theorem Sound.leads_receive (h : Sound e .empty) (report : Feedback) :
    Leads Spares e.table (e.receive report).encoder.table := by
  cases report with
  | acknowledge stream => exact h.leads_acknowledge stream
  | cancel stream => exact h.leads_cancel stream
  | increment count => exact leads_increment count

theorem Sound.leads_receiveAll (h : Sound e .empty) (items : List Feedback) :
    Leads Spares e.table (e.receiveAll items).encoder.table := by
  induction items generalizing e with
  | nil => exact .refl _
  | cons item rest ih =>
    have hnow := h.leads_receive item
    unfold receiveAll
    dsimp only
    split
    · exact hnow
    · exact hnow.trans (ih ((steps_receive h item).sound h))

theorem Sound.leads_feedback (h : Sound e .empty) (data : Octets) :
    Leads Spares e.table (e.feedback data).encoder.table := by
  have hall := h.leads_receiveAll (Feedback.readAll data).1
  unfold feedback
  dsimp only
  split <;> exact hall

theorem Sound.leads_encode (h : Sound e .empty) (stream : Nat) (fields : List Field) :
    Leads Spares e.table (e.encode stream fields).encoder.table := by
  rcases hname : e.refusedName? fields with _ | f
  · rw [encode_eq hname]
    exact leads_ofFields h fields
  · unfold encode
    rw [hname]
    exact .refl _

/-- The operation inserts no field outside of sections, and asks for no higher capacity. -/
def Spares (e : Encoder) : Operation → Prop
  | .insert _ => False
  | .setCapacity c => (e.setCapacity c).encoder.table.target ≤ e.table.target
  | _ => True

instance decidableSpares (e : Encoder) : (op : Operation) → Decidable (e.Spares op)
  | .insert _ => inferInstanceAs (Decidable False)
  | .setCapacity c => inferInstanceAs (Decidable ((e.setCapacity c).encoder.table.target ≤ e.table.target))
  | .encode _ _ | .receive _ | .feedback _ | .setValidation _ | .setPolicy _ => inferInstanceAs (Decidable True)

/-- So it is with each of several operations, in the state that it finds. -/
def SparesAll (e : Encoder) : List Operation → Prop
  | [] => True
  | op :: rest => e.Spares op ∧ (e.perform op).encoder.SparesAll rest

instance decidableSparesAll : (e : Encoder) → (ops : List Operation) → Decidable (e.SparesAll ops)
  | _, [] => isTrue trivial
  | e, op :: rest =>
    have := decidableSparesAll (e.perform op).encoder rest
    inferInstanceAs (Decidable (e.Spares op ∧ (e.perform op).encoder.SparesAll rest))

theorem Sound.leads_perform_spares (h : Sound e .empty) (hop : e.Spares op) :
    Leads DynamicTable.Spares e.table (e.perform op).encoder.table := by
  cases op with
  | setCapacity c =>
    by_cases hc : e.settings.maxTableCapacity < c
    · have hrefused : e.setCapacity c = e.refuse _ := if_pos hc
      show Leads _ e.table (e.setCapacity c).encoder.table
      rw [hrefused]
      exact .refl _
    · apply leads_setCapacity
      exact target_setCapacity hc ▸ hop
  | encode stream fields => exact h.leads_encode stream fields
  | insert f => exact hop.elim
  | receive report => exact h.leads_receive report
  | feedback data => exact h.leads_feedback data
  | setValidation validate => exact .refl _
  | setPolicy policy => exact .refl _

/-- Every operation changes the table by operations that it allows. -/
theorem Sound.leads_perform (h : Sound e .empty) (op : Operation) :
    Leads (fun _ _ => True) e.table (e.perform op).encoder.table := by
  have hspares : e.Spares op → Leads (fun _ _ => True) e.table (e.perform op).encoder.table :=
    fun hop => (h.leads_perform_spares hop).mono fun _ _ _ => trivial
  cases op with
  | setCapacity c => exact leads_setCapacity trivial
  | insert f =>
    show Leads _ e.table (e.insert f).encoder.table
    unfold Encoder.insert
    dsimp only
    split
    · next ha => exact (leads_drain trivial).trans (leads_add (admits_eq_true.1 ha).2 trivial)
    · exact leads_drain trivial
  | _ => exact hspares trivial

theorem Sound.reachable_table_run (h : Sound e .empty) (ht : e.table.Reachable) (ops : List Operation) :
    (e.run ops).1.table.Reachable := by
  induction ops generalizing e with
  | nil => exact ht
  | cons op rest ih => exact ih (h.perform op) ((h.leads_perform op).reachable ht)

/-- The table of an encoder is one that operations on tables lead to. -/
theorem Reachable.table (h : e.Reachable) : e.table.Reachable := by
  obtain ⟨settings, start, ops, hstart, rfl⟩ := h
  rw [eq_new_of_ofSettings hstart]
  exact (sound_new settings).reachable_table_run (.empty _) ops

/-! ## Copies beyond the zone -/

/-- Where the peer allows no capacity that a word cannot count, the room of the table is counted exactly. -/
theorem Reachable.exact_table (h : e.Reachable) (hmax : e.settings.maxTableCapacity < 2 ^ 56) :
    e.table.Exact := by
  have hcapacity := h.sound.capacity_le
  have htarget := h.table.valid.2.target_le
  have hused := h.sound.valid.used_le
  exact h.table.exact (by omega) fun _ => by omega

theorem Reachable.noCopies_perform (h : e.Reachable) (hmax : e.settings.maxTableCapacity < 2 ^ 56)
    (hno : e.table.NoCopies) (hop : e.Spares op) : (e.perform op).encoder.table.NoCopies :=
  (h.sound.leads_perform_spares hop).noCopies (h.exact_table hmax) h.table.valid.2 hno

theorem Reachable.perform (h : e.Reachable) (op : Operation) : (e.perform op).encoder.Reachable := h.run [op]

theorem Reachable.noCopies_run (h : e.Reachable) (hmax : e.settings.maxTableCapacity < 2 ^ 56)
    (hno : e.table.NoCopies) {ops : List Operation} (hops : e.SparesAll ops) : (e.run ops).1.table.NoCopies := by
  induction ops generalizing e with
  | nil => exact hno
  | cons op rest ih =>
    have hmax' : (e.perform op).encoder.settings.maxTableCapacity < 2 ^ 56 := by rwa [settings_perform h.sound]
    exact ih (h.perform op) hmax' (h.noCopies_perform hmax hno hops.1) hops.2

/-- Encoding makes a copy of a field only where all copies drain. -/
structure SparesCopies (e : Encoder) : Prop where
  perform : e.table.NoCopies → ∀ op, e.Spares op → (e.perform op).encoder.table.NoCopies
  run : e.table.NoCopies → ∀ ops, e.SparesAll ops → (e.run ops).1.table.NoCopies
  /-- A section is drafted field by field. -/
  encode : ∀ stream fields octets, (e.encode stream fields).result = .ok octets →
    (e.encode stream fields).encoder.table = (Draft.ofFields e fields).encoder.table ∧
      (e.encode stream fields).emitted = (Draft.ofFields e fields).emitted
  /-- Draining comes first. Then there is one entry more or none, for a field in neither table or as the copy of
  an entry that drains. -/
  inserts : ∀ before f, Draft.Inserts (Draft.ofFields e before).drain f (Draft.ofFields e (before ++ [f]))
  /-- Of what draining takes, too, no entry of the field was beyond the zone. -/
  zone : ∀ before f,
    (Draft.ofFields e before).encoder.table.inserted <
      (Draft.ofFields e (before ++ [f])).encoder.table.inserted →
    ∀ x ∈ (Draft.ofFields e before).encoder.table.entries, x.field = f →
      x.index < (Draft.ofFields e before).encoder.table.drainingIndex
  inserted_le : ∀ fields, (Draft.ofFields e fields).encoder.table.inserted ≤ e.table.inserted + fields.length

theorem Reachable.zone_of_inserts (h : e.Reachable) (hmax : e.settings.maxTableCapacity < 2 ^ 56)
    {before : List Field} {f : Field} (hlt : (ofFields e before).encoder.table.inserted <
      (ofFields e (before ++ [f])).encoder.table.inserted) {x : Entry}
    (hx : x ∈ (ofFields e before).encoder.table.entries) (hf : x.field = f) :
    x.index < (ofFields e before).encoder.table.drainingIndex := by
  have hexact := ((leads_ofFields h.sound before).exact (h.exact_table hmax) h.table.valid.2).1
  rw [← inserted_drain] at hlt
  rcases hexact.mem_drain_or_lt hx with hleft | hzone
  · have hdrained := (inserts_ofFields h.sound before f).draining hlt hleft hf
    rwa [← hexact.drainingIndex_drain]
  · exact hzone

/-- After any operations, encoding makes no copy that the table could do without. -/
theorem Reachable.sparesCopies (h : e.Reachable) (hmax : e.settings.maxTableCapacity < 2 ^ 56) :
    e.SparesCopies where
  perform hno _ hop := h.noCopies_perform hmax hno hop
  run hno _ hops := h.noCopies_run hmax hno hops
  encode stream fields octets hok := by
    rw [encode_eq (refusedName?_eq_none hok)]
    exact ⟨rfl, rfl⟩
  inserts before f := inserts_ofFields h.sound before f
  zone _ _ hlt _ hx hf := h.zone_of_inserts hmax hlt hx hf
  inserted_le fields := inserted_ofFields_le h.sound fields

/-- Of two entries the older drains and is in use, and no section may wait for an insertion. -/
def crowded : Encoder :=
  ((new ⟨100, 0, 50, true, false⟩).run [.setCapacity 100, .insert ⟨[97], []⟩, .receive (.increment 1),
    .encode 0 [⟨[97], []⟩], .insert ⟨[98], []⟩]).1

/-- The older is copied, and the copy not used. The newer is neither copied nor used. -/
theorem crowded_sparesCopies : crowded.Reachable ∧ crowded.SparesCopies ∧ crowded.table.NoCopies ∧
    crowded.table.drainingIndex = 1 ∧
    (crowded.encode 4 [⟨[97], []⟩, ⟨[98], []⟩]).emitted = [.duplicate 1] ∧
    (crowded.encode 4 [⟨[97], []⟩, ⟨[98], []⟩]).encoder.outstanding 4 = 1 ∧
    crowded.SparesAll [.encode 4 [⟨[97], []⟩], .setCapacity 70, .receive (.acknowledge 0)] := by
  have hr : crowded.Reachable := ⟨⟨100, 0, 50, true, false⟩, new _, _, rfl, rfl⟩
  exact ⟨hr, hr.sparesCopies (by decide +kernel), by decide +kernel, by decide +kernel, by decide +kernel,
    by decide +kernel, by decide +kernel⟩

end Encoder
end Qpack
