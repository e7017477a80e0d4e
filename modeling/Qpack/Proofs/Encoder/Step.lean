import Qpack.Encoder.Receiving
import Qpack.Proofs.Sent.Streams
import Qpack.Proofs.Table.References
import Mathlib.Data.List.Infix
import Mathlib.Order.Nat

/-!
# What an encoder can do

Every operation is made of a few kinds of steps. A step goes from an encoder and the section that it
drafts, empty while there is none, to another encoder and section, and sends instructions.

* `Instruction.field?` : the field that an instruction brings, for a table that is given by its
  insert count and its fields;
* `Encoder.Step`, `Encoder.Steps` : the steps, and any number of them;
* `Encoder.Sound` : what holds between the table, the section and the sections on their way;
* `Step.sound`, `Step.agesTo`, `Step.queue_suffix` : a step keeps an encoder sound, only ages its
  table, and takes sections from the front of the queues.
-/

namespace Qpack

/-! ## What an instruction brings -/

/-- The field counted back from the newest of `n`, where `look` finds the fields. -/
def fieldBack (n : Nat) (look : Nat → Option Field) (distance : Nat) : Option Field :=
  if distance < n then look (n - 1 - distance) else none

/-- The field that an instruction inserts after `n` insertions, where `look` finds the fields. -/
def Instruction.field? (n : Nat) (look : Nat → Option Field) : Instruction → Option Field
  | .setCapacity _ => none
  | .insertNamed (.static index) _ value =>
    (StaticTable.field? index).map fun f => ⟨f.name, value⟩
  | .insertNamed (.relative distance) _ value =>
    (fieldBack n look distance).map fun f => ⟨f.name, value⟩
  | .insertLiteral _ name _ value => some ⟨name, value⟩
  | .duplicate distance => fieldBack n look distance

/-- The distance of an index from the newest leads back to it. -/
theorem fieldBack_of_lt {n i : Nat} (look : Nat → Option Field) (hi : i < n) :
    fieldBack n look (n - 1 - i) = look i := by
  rw [fieldBack, if_pos (by omega), show n - 1 - (n - 1 - i) = i by omega]

/-- A table that has more fields finds the same. -/
theorem Instruction.field?_mono {n : Nat} {look look' : Nat → Option Field} {i : Instruction} {f : Field}
    (h : ∀ j g, look j = some g → look' j = some g) (hi : i.field? n look = some f) :
    i.field? n look' = some f := by
  have hback : ∀ distance g, fieldBack n look distance = some g → fieldBack n look' distance = some g := by
    intro distance g hg
    rw [fieldBack] at hg ⊢
    split at hg
    · next hlt =>
      rw [if_pos hlt]
      exact h _ g hg
    · cases hg
  rcases i with c | ⟨⟨index⟩ | ⟨distance⟩, huffman, value⟩ | _ | distance
  · cases hi
  · exact hi
  · obtain ⟨g, hg, hf⟩ := Option.map_eq_some_iff.1 hi
    exact Option.map_eq_some_iff.2 ⟨g, hback distance g hg, hf⟩
  · exact hi
  · exact hback distance f hi

/-! ## What a section needs -/

/-- How many insertions are needed for entries with the given indices. -/
def needed (indices : List Nat) : Nat := (indices.map (· + 1)).foldl max 0

theorem foldl_max_le {l : List Nat} {a n : Nat} : l.foldl max a ≤ n ↔ a ≤ n ∧ ∀ x ∈ l, x ≤ n := by
  induction l generalizing a with
  | nil => simp
  | cons x l ih =>
    rw [List.foldl_cons, ih, Nat.max_le, List.forall_mem_cons, and_assoc]

theorem needed_le {l : List Nat} {n : Nat} : needed l ≤ n ↔ ∀ i ∈ l, i < n := by
  rw [needed, foldl_max_le, List.forall_mem_map]
  exact ⟨fun h => h.2, fun h => ⟨Nat.zero_le n, h⟩⟩

theorem needed_append_singleton (l : List Nat) (i : Nat) : needed (l ++ [i]) = max (needed l) (i + 1) := by
  rw [needed, needed, List.map_append, List.foldl_append]
  rfl

/-- They are one more than the largest index, if there is one. -/
theorem needed_eq_max? (l : List Nat) : needed l = (l.max?.map (· + 1)).getD 0 := by
  rcases hmax : l.max? with _ | m
  · rw [List.max?_eq_none_iff.1 hmax]
    rfl
  · obtain ⟨hmem, hall⟩ := List.max?_eq_some_iff.1 hmax
    have hle : needed l ≤ m + 1 := needed_le.2 fun i hi => Nat.lt_succ_of_le (hall i hi)
    have hlt := needed_le.1 (Nat.le_refl (needed l)) m hmem
    simp
    omega

/-- Where insertions are needed, the last of them is. -/
theorem exists_of_needed {l : List Nat} (h : 0 < needed l) : ∃ i ∈ l, i + 1 = needed l := by
  by_contra hc
  push Not at hc
  have hle : needed l ≤ needed l - 1 := needed_le.2 fun i hi => by
    have hlt := needed_le.1 (Nat.le_refl (needed l)) i hi
    have hne := hc i hi
    omega
  omega

namespace Encoder

/-! ## Steps -/

/-- One step: from an encoder and the section that it drafts, with the instructions it sends. -/
inductive Step : Encoder → SentSection → List Instruction → Encoder → SentSection → Prop where
  /-- Entries leave, and a capacity may begin to wait. -/
  | shed {e : Encoder} {s : SentSection} {waiting : Option Nat} {u : DynamicTable} :
    DynamicTable.Sheds { e.table with pending := waiting } u → u.Waits →
    Step e s [] { e with table := u } s
  /-- A capacity takes effect, after entries have left. -/
  | resize {e : Encoder} {s : SentSection} {waiting : Option Nat} {u : DynamicTable} {c : Nat} :
    DynamicTable.Sheds { e.table with pending := waiting } u → u.used ≤ c →
    c ≤ e.settings.maxTableCapacity →
    Step e s (if c = e.table.capacity then [] else [.setCapacity c])
      { e with table := { u with capacity := c, pending := none } } s
  /-- A field enters the table. -/
  | insert {e : Encoder} {s : SentSection} {f : Field} {i : Instruction} :
    e.admits f = true → i.field? e.table.inserted e.table.field? = some f →
    Step e s [i] { e with table := e.table.add f } s
  /-- The section takes a unit of the budget. -/
  | take {e : Encoder} {s : SentSection} :
    s.blocked = false → e.blocked < e.settings.maxBlockedStreams →
    Step e s [] { e with blocked := e.blocked + 1 } s.block
  /-- The section depends on one more entry. -/
  | depend {e : Encoder} {s : SentSection} {i : Nat} :
    e.table.canReference i = true → (e.known ≤ i → s.blocked = true) →
    Step e s [] { e with table := e.table.refer i } (s.refer i)
  /-- The oldest section of a stream gives up what it held. -/
  | retire {e : Encoder} {stream : Nat} {x : SentSection} {rest : SentQueue} :
    e.streams.queue stream = x :: rest →
    Step e .empty [] (({ e with streams := e.streams.put stream rest } : Encoder).retire x) .empty
  /-- The oldest section of a stream, which needs nothing, is forgotten. -/
  | forget {e : Encoder} {stream : Nat} {x : SentSection} {rest : SentQueue} :
    e.streams.queue stream = x :: rest → x.requiredInsertCount = 0 →
    Step e .empty [] { e with streams := e.streams.put stream rest } .empty
  /-- The peer is known to have more insertions. -/
  | learn {e : Encoder} {n : Nat} : e.known ≤ n → n ≤ e.table.inserted →
    Step e .empty [] ({ e with known := n } : Encoder).settle .empty
  /-- Names are checked or not, and another policy answers. -/
  | configure {e : Encoder} {s : SentSection} (validate : Bool) (policy : Policy) :
    Step e s [] { e with validate, policy } s

/-- Any number of steps, and all instructions they send. -/
inductive Steps : Encoder → SentSection → List Instruction → Encoder → SentSection → Prop where
  | refl (e : Encoder) (s : SentSection) : Steps e s [] e s
  | tail {e₁ e₂ e₃ : Encoder} {s₁ s₂ s₃ : SentSection} {out more : List Instruction} :
    Steps e₁ s₁ out e₂ s₂ → Step e₂ s₂ more e₃ s₃ → Steps e₁ s₁ (out ++ more) e₃ s₃

section Steps
variable {e e₁ e₂ e₃ : Encoder} {s s₁ s₂ s₃ : SentSection} {out more : List Instruction}

theorem Step.steps (h : Step e₁ s₁ out e₂ s₂) : Steps e₁ s₁ out e₂ s₂ := (Steps.refl e₁ s₁).tail h

theorem Steps.trans (h₁ : Steps e₁ s₁ out e₂ s₂) (h₂ : Steps e₂ s₂ more e₃ s₃) :
    Steps e₁ s₁ (out ++ more) e₃ s₃ := by
  induction h₂ with
  | refl => rw [List.append_nil]; exact h₁
  | tail _ hstep ih =>
    rw [← List.append_assoc]
    exact (ih h₁).tail hstep

/-! ## Sound encoders -/

/-- The parts of an encoder and of the section that it drafts agree. -/
structure Sound (e : Encoder) (s : SentSection) : Prop where
  valid : e.table.Valid
  waits : e.table.Waits
  capacity_le : e.table.capacity ≤ e.settings.maxTableCapacity
  /-- The entries count the references of all sections, those of the one that is drafted as well. -/
  counts : e.table.Counts (s.references ++ e.streams.references)
  required : ∀ x ∈ s :: e.streams.sections, x.requiredInsertCount = needed x.references
  known_le : e.known ≤ e.table.inserted
  distinct : e.streams.Distinct

/-- A new encoder is sound. -/
theorem sound_new (settings : Settings) : Sound (new settings) .empty := by
  refine ⟨DynamicTable.Valid.empty _, fun c hc => ?_, Nat.zero_le _, DynamicTable.Counts.empty _,
    fun x hx => ?_, Nat.le_refl _, List.nodup_nil⟩
  · cases hc
  · obtain rfl := List.mem_singleton.1 hx
    rfl

/-- An outstanding section needs the entries that it refers to. -/
theorem Sound.required_of_mem (h : Sound e s) {x : SentSection} (hx : x ∈ e.streams.sections) :
    x.requiredInsertCount = needed x.references :=
  h.required x (List.mem_cons_of_mem s hx)

/-- They were inserted. -/
theorem Sound.required_le (h : Sound e s) {x : SentSection} (hx : x ∈ e.streams.sections) :
    x.requiredInsertCount ≤ e.table.inserted := by
  rw [h.required_of_mem hx, needed_le]
  intro i hi
  exact h.counts.lt h.valid (List.mem_append_right _ (List.mem_flatMap.2 ⟨x, hx, hi⟩))

theorem admits_eq_true {f : Field} : e.admits f = true ↔ e.policy.mayIndex f = true ∧ f.size ≤ e.table.space := by
  rw [admits, Bool.and_eq_true, decide_eq_true_eq]

theorem Sound.sheds (h : Sound e s) {waiting : Option Nat} {u : DynamicTable}
    (hu : DynamicTable.Sheds { e.table with pending := waiting } u) :
    u.Valid ∧ u.Counts (s.references ++ e.streams.references) ∧ e.table.AgesTo u := by
  have hv := h.valid.withPending waiting
  have hc : DynamicTable.Counts { e.table with pending := waiting } (s.references ++ e.streams.references) :=
    ⟨h.counts.live, h.counts.count⟩
  exact ⟨hu.valid hv, hc.sheds hv hu, hu.agesTo hv⟩

theorem Sound.resize (h : Sound e s) {waiting : Option Nat} {u : DynamicTable} {c : Nat}
    (hu : DynamicTable.Sheds { e.table with pending := waiting } u) (hfit : u.used ≤ c)
    (hc : c ≤ e.settings.maxTableCapacity) :
    Sound { e with table := { u with capacity := c, pending := none } } s := by
  obtain ⟨hv, hcounts, -⟩ := h.sheds hu
  refine ⟨⟨hv.position, hv.used_eq, hfit, hv.byField, hv.byName⟩, fun p hp => ?_, hc,
    ⟨hcounts.live, hcounts.count⟩, h.required, ?_, h.distinct⟩
  · cases hp
  · show e.known ≤ u.inserted
    rw [hu.inserted]
    exact h.known_le

theorem Sound.insert (h : Sound e s) {f : Field} (ha : e.admits f = true) :
    Sound { e with table := e.table.add f } s := by
  have hf := (admits_eq_true.1 ha).2
  have hs := overhead_le_size f
  rw [Field.overhead] at hs
  have hp := h.waits.pending_eq_none (by omega)
  refine ⟨h.valid.add h.waits hf, fun c hc => ?_, ?_, h.counts.add h.valid h.waits hf, h.required, ?_,
    h.distinct⟩
  · rw [DynamicTable.add_eq hf] at hc
    exact absurd (hp.symm.trans hc) (by simp)
  · show (e.table.add f).capacity ≤ _
    rw [DynamicTable.add_eq hf]
    exact h.capacity_le
  · show e.known ≤ (e.table.add f).inserted
    rw [DynamicTable.inserted_add hf]
    exact Nat.le_succ_of_le h.known_le

theorem Sound.depend (h : Sound e s) {i : Nat} (hi : e.table.canReference i = true) :
    Sound { e with table := e.table.refer i } (s.refer i) := by
  have hm := DynamicTable.sameMeasures_refer e.table i
  have hcon : e.table.contains i = true := (Bool.and_eq_true _ _ ▸ hi).1
  refine ⟨h.valid.refer i, hm.waits h.waits, hm.capacity.trans_le h.capacity_le, ?_, fun x hx => ?_,
    h.known_le.trans_eq hm.inserted.symm, h.distinct⟩
  · refine (h.counts.refer h.valid hcon).perm ?_
    show (i :: (s.references ++ e.streams.references)).Perm ((s.references ++ [i]) ++ e.streams.references)
    rw [List.append_assoc]
    exact List.perm_middle.symm
  · rcases List.mem_cons.1 hx with rfl | hx
    · show max s.requiredInsertCount (i + 1) = needed (s.references ++ [i])
      rw [needed_append_singleton, h.required s List.mem_cons_self]
    · exact h.required_of_mem hx

/-- What the oldest section of a stream depends on, among all that is depended on. -/
theorem references_pop_perm (streams : Streams) {stream : Nat} {x : SentSection} {rest : SentQueue}
    (hq : streams.queue stream = x :: rest) :
    streams.references.Perm (x.references ++ (streams.put stream rest).references) := by
  have hp := Streams.references_put_perm streams stream rest
  rw [hq, List.flatMap_cons, ← List.append_assoc] at hp
  exact ((List.perm_append_right_iff _).1 hp).symm.trans List.perm_append_comm

theorem mem_sections_pop {streams : Streams} {stream : Nat} {x y : SentSection} {rest : SentQueue}
    (hq : streams.queue stream = x :: rest) (hy : y ∈ (streams.put stream rest).sections) :
    y ∈ streams.sections := by
  have hp := Streams.sections_put_perm streams stream rest
  rcases List.mem_append.1 (hp.subset (List.mem_append_left _ hy)) with hy | hy
  · exact hy
  · exact Streams.queue_subset_sections streams stream (hq ▸ List.mem_cons_of_mem x hy)

theorem Sound.retire (h : Sound e .empty) {stream : Nat} {x : SentSection} {rest : SentQueue}
    (hq : e.streams.queue stream = x :: rest) :
    Sound (({ e with streams := e.streams.put stream rest } : Encoder).retire x) .empty := by
  have hm := DynamicTable.sameMeasures_foldl_release e.table x.references
  refine ⟨(h.valid.foldl_release x.references).1, hm.waits h.waits, hm.capacity.trans_le h.capacity_le,
    ?_, fun y hy => ?_, h.known_le.trans_eq hm.inserted.symm, h.distinct.put stream rest⟩
  · exact ((h.counts.perm (references_pop_perm e.streams hq)).foldl_release h.valid).1
  · rcases List.mem_cons.1 hy with rfl | hy
    · rfl
    · exact h.required_of_mem (mem_sections_pop hq hy)

theorem Sound.forget (h : Sound e .empty) {stream : Nat} {x : SentSection} {rest : SentQueue}
    (hq : e.streams.queue stream = x :: rest) (hx : x.requiredInsertCount = 0) :
    Sound { e with streams := e.streams.put stream rest } .empty := by
  have hnil : x.references = [] := by
    have hr := h.required_of_mem (
      (Streams.queue_subset_sections e.streams stream (hq ▸ List.mem_cons_self)))
    refine List.eq_nil_iff_forall_not_mem.2 fun i hi => ?_
    have hlt := needed_le.1 (Nat.le_of_eq (hr.symm.trans hx)) i hi
    exact Nat.not_lt_zero i hlt
  refine ⟨h.valid, h.waits, h.capacity_le, ?_, fun y hy => ?_, h.known_le, h.distinct.put stream rest⟩
  · have hp := references_pop_perm e.streams hq
    rw [hnil] at hp
    exact h.counts.perm hp
  · rcases List.mem_cons.1 hy with rfl | hy
    · rfl
    · exact h.required_of_mem (mem_sections_pop hq hy)

theorem Sound.learn (h : Sound e .empty) {n : Nat} (hn : n ≤ e.table.inserted) :
    Sound ({ e with known := n } : Encoder).settle .empty := by
  refine ⟨h.valid, h.waits, h.capacity_le, ?_, fun y hy => ?_, hn, h.distinct.settle n⟩
  · show e.table.Counts ([] ++ (e.streams.settle n).references)
    rw [Streams.references_settle]
    exact h.counts
  · rcases List.mem_cons.1 hy with rfl | hy
    · rfl
    · have hy' : y ∈ (e.streams.settle n).sections := hy
      rw [Streams.sections_settle] at hy'
      obtain ⟨x, hx, rfl⟩ := List.mem_map.1 hy'
      have hr := h.required_of_mem hx
      rw [SentSection.settle]
      split <;> exact hr

theorem Step.sound (h : Sound e₁ s₁) (hstep : Step e₁ s₁ out e₂ s₂) : Sound e₂ s₂ := by
  cases hstep with
  | shed hu hw =>
    obtain ⟨hv, hcounts, -⟩ := h.sheds hu
    exact ⟨hv, hw, hu.capacity.trans_le h.capacity_le, hcounts, h.required,
      h.known_le.trans_eq hu.inserted.symm, h.distinct⟩
  | resize hu hfit hc => exact h.resize hu hfit hc
  | insert ha _ => exact h.insert ha
  | take _ _ =>
    refine ⟨h.valid, h.waits, h.capacity_le, h.counts, fun x hx => ?_, h.known_le, h.distinct⟩
    rcases List.mem_cons.1 hx with rfl | hx
    · exact h.required s₁ List.mem_cons_self
    · exact h.required_of_mem hx
  | depend hi _ => exact h.depend hi
  | retire hq => exact h.retire hq
  | forget hq hx => exact h.forget hq hx
  | learn _ hn => exact h.learn hn
  | configure _ _ => exact ⟨h.valid, h.waits, h.capacity_le, h.counts, h.required, h.known_le, h.distinct⟩

theorem Steps.sound (h : Sound e₁ s₁) (hsteps : Steps e₁ s₁ out e₂ s₂) : Sound e₂ s₂ := by
  induction hsteps with
  | refl => exact h
  | tail _ hstep ih => exact hstep.sound (ih h)

/-! ## What steps keep -/

theorem Step.settings (hstep : Step e₁ s₁ out e₂ s₂) : e₂.settings = e₁.settings := by
  cases hstep <;> rfl

theorem Steps.settings (hsteps : Steps e₁ s₁ out e₂ s₂) : e₂.settings = e₁.settings := by
  induction hsteps with
  | refl => rfl
  | tail _ hstep ih => exact hstep.settings.trans ih

/-- A table with the same entries, up to their counts, is as old. -/
theorem agesTo_of_field? {t u : DynamicTable} (hn : u.inserted = t.inserted)
    (hf : ∀ i, u.field? i = t.field? i) : t.AgesTo u :=
  ⟨Nat.le_of_eq hn.symm, fun i _ _ h => (hf i).symm.trans h⟩

theorem Step.agesTo (h : Sound e₁ s₁) (hstep : Step e₁ s₁ out e₂ s₂) : e₁.table.AgesTo e₂.table := by
  cases hstep with
  | shed hu _ => exact (h.sheds hu).2.2
  | resize hu _ _ => exact ⟨(h.sheds hu).2.2.le, (h.sheds hu).2.2.keeps⟩
  | insert ha _ => exact h.valid.agesTo_add h.waits (admits_eq_true.1 ha).2
  | depend _ _ => exact agesTo_of_field? (DynamicTable.sameMeasures_refer _ _).inserted (h.valid.field?_refer _)
  | retire _ =>
    exact agesTo_of_field? (DynamicTable.sameMeasures_foldl_release _ _).inserted
      (h.valid.foldl_release _).2
  | _ => exact Ages.refl _ _

theorem Steps.agesTo (h : Sound e₁ s₁) (hsteps : Steps e₁ s₁ out e₂ s₂) : e₁.table.AgesTo e₂.table := by
  induction hsteps with
  | refl => exact Ages.refl _ _
  | tail hsteps hstep ih => exact (ih h).trans (hstep.agesTo (hsteps.sound h))

/-- An entry that was there before and is still depended on is the same. -/
theorem Steps.field?_eq (h : Sound e₁ s₁) (hsteps : Steps e₁ s₁ out e₂ s₂) {i : Nat}
    (hi : i ∈ s₂.references ++ e₂.streams.references) (hlt : i < e₁.table.inserted) :
    e₂.table.field? i = e₁.table.field? i := by
  have h₂ := hsteps.sound h
  obtain ⟨x, hx, rfl⟩ := h₂.valid.contains_iff.1 (h₂.counts.live i hi)
  have hf := h₂.valid.field?_of_mem hx
  rw [hf, (hsteps.agesTo h).keeps _ hlt _ hf]

/-! ## What steps leave of the queues -/

theorem queue_pop_suffix {streams : Streams} (hd : streams.Distinct) {stream : Nat} {x : SentSection}
    {rest : SentQueue} (hq : streams.queue stream = x :: rest) (id : Nat) :
    (streams.put stream rest).queue id <:+ streams.queue id := by
  by_cases hid : stream = id
  · rw [← hid, hd.queue_put_self, hq]
    exact List.suffix_cons x rest
  · rw [Streams.queue_put_of_ne streams hid]

/-- Sections leave a queue from its front, and of the others only the units of the budget change. -/
theorem Step.queue_suffix (h : Sound e₁ s₁) (hstep : Step e₁ s₁ out e₂ s₂) (stream : Nat) :
    (e₂.streams.queue stream).map SentSection.unblock <:+
      (e₁.streams.queue stream).map SentSection.unblock := by
  cases hstep with
  | retire hq => exact (queue_pop_suffix h.distinct hq stream).map _
  | forget hq _ => exact (queue_pop_suffix h.distinct hq stream).map _
  | learn _ _ =>
    show ((e₁.streams.settle _).queue stream).map SentSection.unblock <:+ _
    rw [Streams.queue_settle, List.map_map, show SentSection.unblock ∘ SentSection.settle _ = SentSection.unblock
      from funext (SentSection.unblock_settle _)]
  | _ => exact List.suffix_rfl

theorem Steps.queue_suffix (h : Sound e₁ s₁) (hsteps : Steps e₁ s₁ out e₂ s₂) (stream : Nat) :
    (e₂.streams.queue stream).map SentSection.unblock <:+
      (e₁.streams.queue stream).map SentSection.unblock := by
  induction hsteps with
  | refl => exact List.suffix_rfl
  | tail hsteps hstep ih => exact (hstep.queue_suffix (hsteps.sound h) stream).trans (ih h)

end Steps
end Encoder
end Qpack
