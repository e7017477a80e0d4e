import Qpack.Encoder.Sending
import Qpack.Proofs.Encoder.Step
import Mathlib.Data.List.Induction

/-!
# What drafting a section does

* `EntryRef.field?`, `FieldLine.meaning?` : the field of an entry and of a line, where a function gives
  the fields of the dynamic table;
* `Draft.Moves d d'` : `d'` comes from `d` by steps of the encoder;
* `Draft.Wrote d f d'` : all the ways in which a field can be written, and what each of them asks for;
* `Draft.Writes d d' f l` : the steps write the line `l`, which means `f` in the table they lead to;
* `writes_add` : every field is written so, whichever way is taken;
* `Draft.Says d fields` : the lines mean `fields`, and the section depends on what they refer to;
* `says_ofFields` : so it is with a finished section;
* `Draft.Kept P` : the pieces that drafting is made of keep `P`, and so does drafting (`Kept.ofFields`).
-/

namespace Qpack

/-! ## The meaning of a line -/

/-- The field of an entry, where `look` gives the fields of the dynamic table. -/
def EntryRef.field? (look : Nat → Option Field) : EntryRef → Option Field
  | .static index => StaticTable.field? index
  | .dynamic index => look index

/-- The index of a dynamic entry. -/
def EntryRef.index? : EntryRef → Option Nat
  | .static _ => none
  | .dynamic index => some index

theorem mapM_congr {α β : Type} {g g' : α → Option β} {l : List α} (h : ∀ a ∈ l, g a = g' a) :
    l.mapM g = l.mapM g' := by
  induction l with
  | nil => rfl
  | cons x l ih =>
    rw [List.mapM_cons, List.mapM_cons, h x List.mem_cons_self, ih fun a ha => h a (List.mem_cons_of_mem x ha)]

theorem forall₂_of_mapM {α β : Type} {g : α → Option β} {l : List α} {l' : List β} (h : l.mapM g = some l') :
    List.Forall₂ (fun b a => g a = some b) l' l := by
  induction l generalizing l' with
  | nil =>
    obtain rfl := Option.some.inj h
    exact .nil
  | cons x l ih =>
    rw [List.mapM_cons] at h
    obtain ⟨y, hy, h⟩ := Option.bind_eq_some_iff.1 h
    obtain ⟨l'', hl, h⟩ := Option.bind_eq_some_iff.1 h
    obtain rfl := Option.some.inj h
    exact .cons hy (ih hl)

namespace FieldLine

/-- The index of the dynamic entry that a line refers to. -/
def index? (l : FieldLine) : Option Nat := l.entry?.bind EntryRef.index?

/-- The field that a line stands for, where `look` gives the fields of the dynamic table. -/
def meaning? (look : Nat → Option Field) : FieldLine → Option Field
  | .indexed entry => entry.field? look
  | .named entry value _ _ => (entry.field? look).map fun f => ⟨f.name, value⟩
  | .literal name value _ _ => some ⟨name, value⟩

theorem index?_of_dynamic {l : FieldLine} {index : Nat} (he : l.entry? = some (.dynamic index)) :
    l.index? = some index := by
  rw [index?, he]
  rfl

/-- Only the entry that a line refers to matters for its meaning. -/
theorem meaning?_congr {look look' : Nat → Option Field} {l : FieldLine}
    (h : ∀ i, l.index? = some i → look' i = look i) : l.meaning? look' = l.meaning? look := by
  have hentry : ∀ entry, l.entry? = some entry → entry.field? look' = entry.field? look := by
    intro entry he
    cases entry with
    | static index => rfl
    | dynamic index => exact h index (index?_of_dynamic he)
  cases l with
  | indexed entry => exact hentry entry rfl
  | named entry value never huffman => rw [meaning?, meaning?, hentry entry rfl]
  | literal name value never huffman => rfl

theorem mem_filterMap_index? {lines : List FieldLine} {l : FieldLine} {i : Nat} (hl : l ∈ lines)
    (hi : l.index? = some i) : i ∈ lines.filterMap index? :=
  List.mem_filterMap.2 ⟨l, hl, hi⟩

theorem mapM_meaning?_congr {look look' : Nat → Option Field} {lines : List FieldLine}
    (h : ∀ i ∈ lines.filterMap index?, look' i = look i) :
    lines.mapM (meaning? look') = lines.mapM (meaning? look) := by
  apply mapM_congr
  intro l hl
  exact meaning?_congr fun i hi => h i (mem_filterMap_index? hl hi)

/-- A line needs the insertion of the entry that it refers to, if it refers to any. -/
theorem requiredInsertCount_eq (l : FieldLine) :
    l.requiredInsertCount = (l.index?.map (· + 1)).getD 0 := by
  rw [requiredInsertCount, index?]
  rcases l.entry? with _ | entry
  · rfl
  · cases entry <;> rfl

/-- Lines need together what the entries need that they refer to. -/
theorem foldl_requiredInsertCount (lines : List FieldLine) :
    (lines.map requiredInsertCount).foldl max 0 = needed (lines.filterMap index?) := by
  induction lines using List.reverseRecOn with
  | nil => rfl
  | append_singleton lines l ih =>
    rw [List.map_append, List.foldl_append, ih, List.filterMap_append]
    show max (needed (lines.filterMap index?)) l.requiredInsertCount = _
    rw [requiredInsertCount_eq]
    rcases hi : l.index? with _ | i
    · rw [List.filterMap_cons_none hi, List.filterMap_nil, List.append_nil]
      exact Nat.max_zero _
    · rw [List.filterMap_cons_some hi, List.filterMap_nil, needed_append_singleton]
      rfl

end FieldLine

/-! ## Looking a field up -/

theorem StaticTable.find?_field {f : Field} {index : Nat} (h : StaticTable.find? f = some index) :
    StaticTable.field? index = some f := by
  rw [StaticTable.find?, List.findIdx?_eq_some_iff_getElem] at h
  obtain ⟨hlt, he, -⟩ := h
  rw [StaticTable.field?, List.getElem?_eq_getElem hlt, eq_of_beq he]

theorem StaticTable.findName?_field {name : Octets} {index : Nat}
    (h : StaticTable.findName? name = some index) :
    ∃ f, StaticTable.field? index = some f ∧ f.name = name := by
  rw [StaticTable.findName?, List.findIdx?_eq_some_iff_getElem] at h
  obtain ⟨hlt, he, -⟩ := h
  exact ⟨_, List.getElem?_eq_getElem hlt, eq_of_beq he⟩

namespace DynamicTable
variable {t : DynamicTable} {entry : EntryRef}

/-- A dynamic entry is found by its field. -/
theorem find?_of_lookup {f : Field} {index : Nat} (hl : t.lookup f = some (.dynamic index)) :
    t.find? f = some index := by
  rw [lookup, Option.or_eq_some_iff] at hl
  rcases hl with hs | ⟨-, hd⟩
  · obtain ⟨j, -, hj⟩ := Option.map_eq_some_iff.1 hs
    cases hj
  · obtain ⟨j, hj, he⟩ := Option.map_eq_some_iff.1 hd
    cases he
    exact hj

theorem Valid.lookup_field (h : t.Valid) {f : Field} (hl : t.lookup f = some entry) :
    entry.field? t.field? = some f := by
  rw [lookup, Option.or_eq_some_iff] at hl
  rcases hl with hs | ⟨-, hd⟩
  · obtain ⟨index, hi, rfl⟩ := Option.map_eq_some_iff.1 hs
    exact StaticTable.find?_field hi
  · obtain ⟨index, hi, rfl⟩ := Option.map_eq_some_iff.1 hd
    exact h.find?_field hi

theorem Valid.lookupName_field (h : t.Valid) {name : Octets} (hl : t.lookupName name = some entry) :
    ∃ f, entry.field? t.field? = some f ∧ f.name = name := by
  rw [lookupName, Option.or_eq_some_iff] at hl
  rcases hl with hs | ⟨-, hd⟩
  · obtain ⟨index, hi, rfl⟩ := Option.map_eq_some_iff.1 hs
    exact StaticTable.findName?_field hi
  · obtain ⟨index, hi, rfl⟩ := Option.map_eq_some_iff.1 hd
    exact h.findName?_field hi

theorem Valid.lt_of_field? (h : t.Valid) {i : Nat} {f : Field} (hf : t.field? i = some f) :
    i < t.inserted := by
  obtain ⟨x, hx, rfl, -⟩ := h.field?_eq_some_iff.1 hf
  exact h.index_lt hx

end DynamicTable

namespace Encoder
variable {e : Encoder} {f : Field}

/-- An insertion with the name of an entry brings the field, if the entry has its name. -/
theorem insertion_field? (h : e.table.Valid) {entry : Option EntryRef}
    (he : ∀ r, entry = some r → ∃ g, r.field? e.table.field? = some g ∧ g.name = f.name) :
    (e.insertion f entry).field? e.table.inserted e.table.field? = some f := by
  rcases entry with _ | ⟨index⟩ | ⟨index⟩
  · rfl
  · obtain ⟨g, hg, hn⟩ := he _ rfl
    rw [insertion, Instruction.field?]
    show (EntryRef.field? e.table.field? (.static index)).map _ = _
    rw [hg, Option.map_some, hn]
  · obtain ⟨g, hg, hn⟩ := he _ rfl
    rw [insertion, Instruction.field?, fieldBack_of_lt _ (h.lt_of_field? hg)]
    show (EntryRef.field? e.table.field? (.dynamic index)).map _ = _
    rw [hg, Option.map_some, hn]

/-- A copy of an entry brings its field. -/
theorem duplicate_field? (h : e.table.Valid) {index : Nat} (hf : e.table.find? f = some index) :
    (Instruction.duplicate (e.table.inserted - 1 - index)).field? e.table.inserted e.table.field? = some f := by
  have hi := h.find?_field hf
  rw [Instruction.field?, fieldBack_of_lt _ (h.lt_of_field? hi), hi]

/-- Draining is a step. -/
theorem steps_drain {s : SentSection} (h : Sound e s) : Steps e s e.drain.2 e.drain.1 s := by
  obtain ⟨u, hu, hc⟩ := e.table.drain_cases
  rcases hc with ⟨hw, hd⟩ | ⟨c, hp, hfit, hd⟩
  · rw [drain, hd]
    exact (Step.shed hu hw).steps
  · -- a capacity that waits is below the one in effect
    have hlt : c < e.table.capacity := Nat.lt_of_lt_of_le (h.waits c hp) h.valid.used_le
    have hstep := Step.resize (s := s) hu hfit (hlt.le.trans h.capacity_le)
    rw [if_neg hlt.ne] at hstep
    rw [drain, hd]
    exact hstep.steps

end Encoder

namespace Draft
open Encoder
variable {d d' d'' : Draft} {f : Field} {l : FieldLine}

/-! ## Steps of a draft -/

/-- `d'` comes from `d` by steps of the encoder, and the draft has the instructions that they send. -/
structure Moves (d d' : Draft) : Prop where
  steps : ∃ out, Steps d.encoder d.sent out d'.encoder d'.sent ∧ d'.emitted = d.emitted ++ out
  streams : d'.encoder.streams = d.encoder.streams
  known : d'.encoder.known = d.encoder.known

theorem Moves.refl (d : Draft) : Moves d d :=
  ⟨⟨[], Steps.refl _ _, (List.append_nil _).symm⟩, rfl, rfl⟩

theorem Moves.trans (h₁ : Moves d d') (h₂ : Moves d' d'') : Moves d d'' := by
  obtain ⟨out₁, hs₁, he₁⟩ := h₁.steps
  obtain ⟨out₂, hs₂, he₂⟩ := h₂.steps
  exact ⟨⟨out₁ ++ out₂, hs₁.trans hs₂, by rw [he₂, he₁, List.append_assoc]⟩,
    h₂.streams.trans h₁.streams, h₂.known.trans h₁.known⟩

theorem Moves.sound (h : Sound d.encoder d.sent) (hm : Moves d d') : Sound d'.encoder d'.sent := by
  obtain ⟨out, hs, -⟩ := hm.steps
  exact hs.sound h

theorem moves_drain (h : Sound d.encoder d.sent) : Moves d d.drain :=
  ⟨⟨_, steps_drain h, rfl⟩, rfl, rfl⟩

theorem moves_insert {i : Instruction} (ha : d.encoder.admits f = true)
    (hi : i.field? d.encoder.table.inserted d.encoder.table.field? = some f) : Moves d (d.insert f i) :=
  ⟨⟨[i], (Step.insert ha hi).steps, rfl⟩, rfl, rfl⟩

/-- `d'` is `d` with one more entry in use. -/
structure Refers (d d' : Draft) (entry : EntryRef) : Prop extends Moves d d' where
  lines : d'.lines = d.lines
  references : d'.sent.references = d.sent.references ++ entry.index?.toList
  inserted : d'.encoder.table.inserted = d.encoder.table.inserted
  field? : d'.encoder.table.field? = d.encoder.table.field?

theorem refers_depend (h : Sound d.encoder d.sent) {index : Nat}
    (hc : d.encoder.table.canReference index = true) (hk : d.encoder.known ≤ index → d.sent.blocked = true) :
    Refers d (d.depend index) (.dynamic index) :=
  ⟨⟨⟨[], (Step.depend hc hk).steps, (List.append_nil _).symm⟩, rfl, rfl⟩, rfl, rfl,
    (DynamicTable.sameMeasures_refer _ _).inserted, funext (h.valid.field?_refer index)⟩

/-- The section takes a unit of the budget. -/
def take (d : Draft) : Draft :=
  { d with encoder := { d.encoder with blocked := d.encoder.blocked + 1 }, sent := d.sent.block }

/-- A static entry is free to use. A dynamic one must not drain, and the section may have to take a unit
of the budget first. -/
theorem refer?_cases {entry : EntryRef} (hr : d.refer? entry = some d') :
    (∃ index, entry = .static index ∧ d' = d) ∨
    ∃ index, entry = .dynamic index ∧ d.encoder.table.canReference index = true ∧
      ((d.encoder.known ≤ index → d.sent.blocked = true) ∧ d' = d.depend index ∨
        d.encoder.known ≤ index ∧ d.sent.blocked = false ∧
          d.encoder.blocked < d.encoder.settings.maxBlockedStreams ∧ d' = d.take.depend index) := by
  cases entry with
  | static index => exact Or.inl ⟨index, rfl, (Option.some.inj hr).symm⟩
  | dynamic index =>
    rw [refer?] at hr
    split at hr
    · next hc =>
      refine Or.inr ⟨index, rfl, hc, ?_⟩
      obtain ⟨b, hb, rfl⟩ := Option.map_eq_some_iff.1 hr
      split at hb
      · next hk =>
        rw [block?] at hb
        split at hb
        · next hs =>
          obtain rfl := Option.some.inj hb
          exact Or.inl ⟨fun _ => hs, rfl⟩
        · next hs =>
          split at hb
          · next hlt =>
            obtain rfl := Option.some.inj hb
            exact Or.inr ⟨hk, by simpa using hs, hlt, rfl⟩
          · cases hb
      · next hk =>
        obtain rfl := Option.some.inj hb
        exact Or.inl ⟨fun hle => absurd hle hk, rfl⟩
    · cases hr

/-- What fits the table still does. -/
theorem admits_of_refer? {entry : EntryRef} (hr : d.refer? entry = some d') (ha : d.encoder.admits f = true) :
    d'.encoder.admits f = true := by
  rw [admits_eq_true] at ha ⊢
  rcases refer?_cases hr with ⟨_, -, rfl⟩ | ⟨index, -, -, ⟨-, rfl⟩ | ⟨-, -, -, rfl⟩⟩
  · exact ha
  · exact ⟨ha.1, ha.2.trans_eq (DynamicTable.sameMeasures_refer d.encoder.table index).space.symm⟩
  · exact ⟨ha.1, ha.2.trans_eq (DynamicTable.sameMeasures_refer d.encoder.table index).space.symm⟩

/-- An entry that is taken into use is referred to, and nothing else changes. -/
theorem refers_of_refer? (h : Sound d.encoder d.sent) {entry : EntryRef}
    (hr : d.refer? entry = some d') : Refers d d' entry := by
  rcases refer?_cases hr with ⟨index, rfl, rfl⟩ | ⟨index, rfl, hc, ⟨hk, rfl⟩ | ⟨-, hs, hlt, rfl⟩⟩
  · exact ⟨Moves.refl _, rfl, (List.append_nil _).symm, rfl, rfl⟩
  · exact refers_depend h hc hk
  · -- the section takes a unit first, and depends on the entry then
    have htake := Step.take (e := d.encoder) (s := d.sent) hs hlt
    have hdep := Step.depend (e := d.take.encoder) (s := d.take.sent) hc fun _ => rfl
    exact ⟨⟨⟨[], htake.steps.tail hdep, (List.append_nil _).symm⟩, rfl, rfl⟩, rfl, rfl,
      (DynamicTable.sameMeasures_refer _ _).inserted, funext (h.valid.field?_refer index)⟩

/-! ## The ways to write a field -/

/-- How a field is written: in the first way that there is, with all that this way asks for. -/
inductive Wrote (d : Draft) (f : Field) : Draft → Prop where
  /-- An entry is taken into use. -/
  | indexed {entry : EntryRef} {r : Draft} :
    d.encoder.table.lookup f = some entry → d.refer? entry = some r → Wrote d f (r.line (.indexed entry))
  /-- An entry that drains is copied, and the copy is taken into use. -/
  | copied {index : Nat} {r : Draft} :
    d.indexed? f = none → d.encoder.table.lookup f = some (.dynamic index) →
    d.encoder.table.canReference index = false → d.encoder.admits f = true →
    (d.insert f (.duplicate (d.encoder.table.inserted - 1 - index))).refer?
      (.dynamic d.encoder.table.inserted) = some r →
    Wrote d f (r.line (.indexed (.dynamic d.encoder.table.inserted)))
  /-- An entry that drains is copied, and the section cannot wait for the copy. -/
  | copiedInVain {index : Nat} :
    d.indexed? f = none → d.encoder.table.lookup f = some (.dynamic index) →
    d.encoder.table.canReference index = false → d.encoder.admits f = true →
    (d.insert f (.duplicate (d.encoder.table.inserted - 1 - index))).refer?
      (.dynamic d.encoder.table.inserted) = none →
    Wrote d f ((d.insert f (.duplicate (d.encoder.table.inserted - 1 - index))).literalLine f)
  /-- An entry lends its name. -/
  | named {entry : EntryRef} {r : Draft} :
    d.indexed? f = none → d.duplicated? f = none → d.encoder.table.lookupName f.name = some entry →
    d.refer? entry = some r → d.wantsEntry f = false →
    Wrote d f (r.line (.named entry f.value (d.encoder.policy.neverIndex f) (d.encoder.policy.mayHuffman f)))
  /-- An entry lends its name to the line and to a new entry. -/
  | namedInserted {entry : EntryRef} {r : Draft} :
    d.indexed? f = none → d.duplicated? f = none → d.encoder.table.lookupName f.name = some entry →
    d.refer? entry = some r → d.wantsEntry f = true →
    Wrote d f ((r.insert f (d.encoder.insertion f (some entry))).line
      (.named entry f.value (d.encoder.policy.neverIndex f) (d.encoder.policy.mayHuffman f)))
  /-- Name and value stand for themselves. -/
  | literal :
    d.indexed? f = none → d.duplicated? f = none → d.named? f = none → d.wantsEntry f = false →
    Wrote d f (d.literalLine f)
  /-- Name and value stand for themselves, in the line and in a new entry. -/
  | literalInserted :
    d.indexed? f = none → d.duplicated? f = none → d.named? f = none → d.wantsEntry f = true →
    Wrote d f ((d.insert f (d.encoder.insertion f none)).literalLine f)

theorem wrote_indexed? (hw : d.indexed? f = some d') : Wrote d f d' := by
  obtain ⟨entry, hl, hw⟩ := Option.bind_eq_some_iff.1 hw
  obtain ⟨r, hr, hw⟩ := Option.bind_eq_some_iff.1 hw
  obtain rfl := Option.some.inj hw
  exact .indexed hl hr

theorem wrote_duplicated? (hi : d.indexed? f = none) (hw : d.duplicated? f = some d') : Wrote d f d' := by
  unfold duplicated? at hw
  split at hw
  · next index hl =>
    split at hw
    · next hc =>
      simp only [Bool.and_eq_true, Bool.not_eq_true'] at hc
      dsimp only at hw
      split at hw
      · next r hr =>
        obtain rfl := Option.some.inj hw
        exact .copied hi hl hc.1 hc.2 hr
      · next hr =>
        obtain rfl := Option.some.inj hw
        exact .copiedInVain hi hl hc.1 hc.2 hr
    · cases hw
  · cases hw

theorem wrote_named? (hi : d.indexed? f = none) (hd : d.duplicated? f = none) (hw : d.named? f = some d') :
    Wrote d f d' := by
  obtain ⟨entry, hl, hw⟩ := Option.bind_eq_some_iff.1 hw
  obtain ⟨r, hr, hw⟩ := Option.bind_eq_some_iff.1 hw
  obtain rfl := Option.some.inj hw
  rcases hwant : d.wantsEntry f with _ | _
  · exact .named hi hd hl hr hwant
  · exact .namedInserted hi hd hl hr hwant

theorem wrote_write (d : Draft) (f : Field) : Wrote d f (d.write f) := by
  unfold write
  rcases hi : d.indexed? f with _ | r
  · rcases hd : d.duplicated? f with _ | r
    · rcases hn : d.named? f with _ | r
      · show Wrote d f (d.literal f)
        unfold Draft.literal
        rcases hwant : d.wantsEntry f with _ | _
        · exact .literal hi hd hn hwant
        · exact .literalInserted hi hd hn hwant
      · exact wrote_named? hi hd hn
    · exact wrote_duplicated? hi hd
  · exact wrote_indexed? hi

/-! ## Writing a field -/

/-- Steps that write one more line, and what it means in the table they lead to. -/
structure Writes (d d' : Draft) (f : Field) (l : FieldLine) : Prop extends Moves d d' where
  lines : d'.lines = d.lines ++ [l]
  references : d'.sent.references = d.sent.references ++ l.index?.toList
  means : l.meaning? d'.encoder.table.field? = some f

/-- A literal depends on nothing. -/
theorem Moves.writes_literal (hm : Moves d d') (hl : d'.lines = d.lines)
    (hr : d'.sent.references = d.sent.references) (f : Field) :
    ∃ l, Writes d (d'.literalLine f) f l := by
  refine ⟨_, ⟨hm.steps, hm.streams, hm.known⟩, congrArg (· ++ [_]) hl, ?_, rfl⟩
  rw [FieldLine.index?, FieldLine.entry?, Option.bind_none]
  exact hr.trans (List.append_nil _).symm

/-- The line of an entry. -/
theorem Refers.writes_indexed {entry : EntryRef} (hr : Refers d d' entry)
    (hf : entry.field? d.encoder.table.field? = some f) :
    Writes d (d'.line (.indexed entry)) f (.indexed entry) := by
  refine ⟨⟨hr.steps, hr.streams, hr.known⟩, congrArg (· ++ [_]) hr.lines, hr.references, ?_⟩
  show entry.field? d'.encoder.table.field? = some f
  rw [hr.field?, hf]

/-- The name that an entry in use lends still makes the field. -/
theorem Refers.insertion_field? {entry : EntryRef} (hr : Refers d d' entry) (h : Sound d.encoder d.sent)
    (hl : d.encoder.table.lookupName f.name = some entry) :
    (d.encoder.insertion f (some entry)).field? d'.encoder.table.inserted d'.encoder.table.field? = some f := by
  rw [hr.inserted, hr.field?]
  apply Encoder.insertion_field? h.valid
  rintro e he
  obtain rfl := Option.some.inj he
  exact h.valid.lookupName_field hl

theorem literal_field? (f : Field) :
    (d.encoder.insertion f none).field? d.encoder.table.inserted d.encoder.table.field? = some f := rfl

theorem admits_of_wantsEntry (hw : d.wantsEntry f = true) : d.encoder.admits f = true :=
  (Bool.and_eq_true _ _ ▸ hw).1

/-- The line that takes the name of an entry, after more steps that leave the entry as it is. -/
theorem Refers.writes_named {entry : EntryRef} {g : Field} (h : Sound d.encoder d.sent)
    (hr : Refers d d' entry) (hm : Moves d' d'') (hl : d''.lines = d'.lines) (hs : d''.sent = d'.sent)
    (hg : entry.field? d.encoder.table.field? = some g) (hn : g.name = f.name) (never huffman : Bool) :
    Writes d (d''.line (.named entry f.value never huffman)) f (.named entry f.value never huffman) := by
  have hm' := hr.toMoves.trans hm
  refine ⟨⟨hm'.steps, hm'.streams, hm'.known⟩, congrArg (· ++ [_]) (hl.trans hr.lines), ?_, ?_⟩
  · show d''.sent.references = _
    rw [hs]
    exact hr.references
  · have hentry : entry.field? d''.encoder.table.field? = some g := by
      cases entry with
      | static index => exact hg
      | dynamic index =>
        -- the section depends on the entry, so no insertion can have evicted it
        have hmem : index ∈ d''.sent.references ++ d''.encoder.streams.references := by
          rw [hs, hr.references]
          exact List.mem_append_left _ (List.mem_append_right _ List.mem_cons_self)
        obtain ⟨out, hsteps, -⟩ := hm'.steps
        exact (hsteps.field?_eq h hmem (h.valid.lt_of_field? hg)).trans hg
    show (entry.field? d''.encoder.table.field?).map _ = _
    rw [hentry, Option.map_some, hn]

/-- Whichever way is taken, a field is written as one line that means it. -/
theorem Wrote.writes (h : Sound d.encoder d.sent) (hw : Wrote d f d') : ∃ l, Writes d d' f l := by
  cases hw with
  | indexed hl hr => exact ⟨_, (refers_of_refer? h hr).writes_indexed (h.valid.lookup_field hl)⟩
  | @copied index r _ hl _ ha hr =>
    have hm := moves_insert ha (duplicate_field? h.valid (DynamicTable.find?_of_lookup hl))
    have hcopy : EntryRef.field? (d.insert f (.duplicate (d.encoder.table.inserted - 1 - index))).encoder.table.field?
        (.dynamic d.encoder.table.inserted) = some f :=
      h.valid.field?_add_self h.waits (admits_eq_true.1 ha).2
    have hwr := (refers_of_refer? (hm.sound h) hr).writes_indexed hcopy
    exact ⟨_, hm.trans hwr.toMoves, hwr.lines, hwr.references, hwr.means⟩
  | copiedInVain _ hl _ ha _ =>
    exact (moves_insert ha (duplicate_field? h.valid (DynamicTable.find?_of_lookup hl))).writes_literal rfl rfl f
  | named _ _ hl hr _ =>
    obtain ⟨g, hg, hn⟩ := h.valid.lookupName_field hl
    exact ⟨_, (refers_of_refer? h hr).writes_named h (Moves.refl _) rfl rfl hg hn _ _⟩
  | namedInserted _ _ hl hr hwant =>
    obtain ⟨g, hg, hn⟩ := h.valid.lookupName_field hl
    have hrefers := refers_of_refer? h hr
    have hm := moves_insert (admits_of_refer? hr (admits_of_wantsEntry hwant)) (hrefers.insertion_field? h hl)
    exact ⟨_, hrefers.writes_named h hm rfl rfl hg hn _ _⟩
  | literal _ _ _ _ => exact (Moves.refl d).writes_literal rfl rfl f
  | literalInserted _ _ _ hwant =>
    exact (moves_insert (admits_of_wantsEntry hwant) (literal_field? f)).writes_literal rfl rfl f

theorem writes_add (h : Sound d.encoder d.sent) (f : Field) : ∃ l, Writes d (d.add f) f l := by
  have hm := moves_drain h
  obtain ⟨l, hw⟩ := (wrote_write d.drain f).writes (hm.sound h)
  exact ⟨l, hm.trans hw.toMoves, hw.lines, hw.references, hw.means⟩

/-! ## Whole sections -/

/-- The last field is written once the entries have left that drain by then. -/
theorem ofFields_append_singleton (e : Encoder) (fields : List Field) (f : Field) :
    ofFields e (fields ++ [f]) = (ofFields e fields).drain.write f := by
  unfold ofFields
  rw [List.foldl_append]
  rfl

/-- The lines of a draft mean the fields, and the section depends on the entries that they refer to. -/
structure Says (d : Draft) (fields : List Field) : Prop where
  references : d.sent.references = d.lines.filterMap FieldLine.index?
  means : d.lines.mapM (FieldLine.meaning? d.encoder.table.field?) = some fields

/-- One more line leaves the others with their meaning. -/
theorem Says.writes {fields : List Field} (h : Sound d.encoder d.sent) (hs : Says d fields)
    (hw : Writes d d' f l) : Says d' (fields ++ [f]) := by
  refine ⟨?_, ?_⟩
  · rw [hw.references, hs.references, hw.lines, List.filterMap_append]
    rcases hi : l.index? with _ | i
    · rw [List.filterMap_cons_none hi]
      rfl
    · rw [List.filterMap_cons_some hi]
      rfl
  · have hkept : d.lines.mapM (FieldLine.meaning? d'.encoder.table.field?) = some fields := by
      rw [← hs.means]
      refine FieldLine.mapM_meaning?_congr fun i hi => ?_
      rw [← hs.references] at hi
      have hmem : i ∈ d'.sent.references ++ d'.encoder.streams.references := by
        rw [hw.references, List.append_assoc]
        exact List.mem_append_left _ hi
      obtain ⟨out, hsteps, -⟩ := hw.steps
      exact hsteps.field?_eq h hmem (h.counts.lt h.valid (List.mem_append_left _ hi))
    rw [hw.lines, List.mapM_append, hkept, List.mapM_cons, hw.means]
    rfl

theorem says_foldl_add {fields done : List Field} (h : Sound d.encoder d.sent) (hs : Says d done) :
    Moves d (fields.foldl add d) ∧ Says (fields.foldl add d) (done ++ fields) := by
  induction fields generalizing d done with
  | nil =>
    rw [List.append_nil]
    exact ⟨Moves.refl d, hs⟩
  | cons f fields ih =>
    obtain ⟨l, hw⟩ := writes_add h f
    obtain ⟨hm, hsays⟩ := ih (hw.sound h) (hs.writes h hw)
    rw [List.append_assoc] at hsays
    exact ⟨hw.toMoves.trans hm, hsays⟩

/-- A finished section means its fields, and depends on the entries that its lines refer to. -/
theorem says_ofFields {e : Encoder} (h : Sound e .empty) (fields : List Field) :
    Moves (start e) (ofFields e fields) ∧ Says (ofFields e fields) fields :=
  says_foldl_add (d := start e) h ⟨rfl, rfl⟩

/-- The head of a section says how many insertions it needs. -/
theorem requiredInsertCount_ofFields {e : Encoder} (h : Sound e .empty) (fields : List Field) :
    (ofFields e fields).requiredInsertCount = (ofFields e fields).sent.requiredInsertCount := by
  obtain ⟨hm, hs⟩ := says_ofFields h fields
  rw [(hm.sound h).required _ List.mem_cons_self, hs.references, requiredInsertCount,
    FieldLine.foldl_requiredInsertCount]

/-! ## What drafting keeps -/

/-- A property that the pieces keep of which drafting is made. -/
structure Kept (P : Draft → Prop) : Prop where
  drain : ∀ {d : Draft}, P d → P d.drain
  insert : ∀ {d : Draft} {f : Field} {i : Instruction}, P d → d.encoder.admits f = true → i.inserts = true →
    P (d.insert f i)
  refer : ∀ {d d' : Draft} {entry : EntryRef}, P d → d.refer? entry = some d' → P d'
  line : ∀ {d : Draft} (l : FieldLine), P d → P (d.line l)

section Kept
variable {P : Draft → Prop}

theorem inserts_insertion (e : Encoder) (f : Field) (entry : Option EntryRef) :
    (e.insertion f entry).inserts = true := by
  rcases entry with _ | ⟨_ | _⟩ <;> rfl

theorem Kept.wrote (hk : Kept P) (h : P d) (hw : Wrote d f d') : P d' := by
  cases hw with
  | indexed _ hr => exact hk.line _ (hk.refer h hr)
  | copied _ _ _ ha hr => exact hk.line _ (hk.refer (hk.insert h ha rfl) hr)
  | copiedInVain _ _ _ ha _ => exact hk.line _ (hk.insert h ha rfl)
  | named _ _ _ hr _ => exact hk.line _ (hk.refer h hr)
  | namedInserted _ _ _ hr hwant =>
    have ha := admits_of_refer? hr (admits_of_wantsEntry hwant)
    exact hk.line _ (hk.insert (hk.refer h hr) ha (inserts_insertion _ f _))
  | literal _ _ _ _ => exact hk.line _ h
  | literalInserted _ _ _ hwant =>
    exact hk.line _ (hk.insert h (admits_of_wantsEntry hwant) (inserts_insertion _ f none))

theorem Kept.add (hk : Kept P) (h : P d) (f : Field) : P (d.add f) := hk.wrote (hk.drain h) (wrote_write d.drain f)

theorem Kept.ofFields {e : Encoder} (hk : Kept P) (h : P (start e)) (fields : List Field) :
    P (ofFields e fields) := by
  induction fields using List.reverseRecOn with
  | nil => exact h
  | append_singleton fields f ih =>
    rw [ofFields_append_singleton]
    exact hk.add ih f

end Kept

end Draft
end Qpack
