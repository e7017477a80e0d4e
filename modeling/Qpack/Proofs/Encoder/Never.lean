import Qpack.Proofs.Encoder.Guided
import Qpack.Proofs.Section.Line

/-!
# Fields that nobody is to index

A literal can say on the wire that nobody on its way may index the field. The encoder looks for an entry of the
field first, and only then asks whether a literal is to say so. So a field that nobody is to index goes out as an
entry where the table holds it, and it is the answer about the table that keeps it out.

* `ForbidsIndexing b`, `FieldLine.Forbids base l` : how a literal begins that forbids indexing;
* `forbids_iff` : the lines that begin so are those with the flag;
* `Draft.Answers p fields d` : each line is an entry, or has the flag that the policy asks for;
* `lines_ofFields` : so a line without the flag is a dynamic entry, if the static table lacks the field;
* `held p f`, `lines_held` : a table that holds just the field `f`, and the line for it then;
* `Marks e f` : the lines for `f` are such literals;
* `FollowsNever`, `followsNever` : what the lines are of a field that nobody is to index, and under which policies
  they are always such literals;
* `not_followsNever` : not under all.
-/

namespace Qpack

/-! ## How a line begins -/

/-- The first octet of a literal that forbids everyone on its way to index the field (RFC 9204, Sections 4.5.4 to
4.5.6): with the name of an entry, with a name of its own, or with the name of an entry from the base on. -/
def ForbidsIndexing (b : UInt8) : Prop :=
  (0x60 ≤ b.toNat ∧ b.toNat < 0x80) ∨ (0x30 ≤ b.toNat ∧ b.toNat < 0x40) ∨ (0x08 ≤ b.toNat ∧ b.toNat < 0x10)

namespace FieldLine
variable {base : Nat} {l : FieldLine}

def Forbids (base : Nat) (l : FieldLine) : Prop := ∃ b, (l.write base).head? = some b ∧ ForbidsIndexing b

/-- The flags of an integer decide whether it begins so. -/
theorem exists_head_integer {width : Nat} {flags : UInt8} {set : Bool} (hw : width ≤ 8)
    (hflags : flags.toNat % 2 ^ width = 0)
    (hrange : ∀ b : UInt8, flags.toNat ≤ b.toNat → b.toNat < flags.toNat + 2 ^ width →
      (ForbidsIndexing b ↔ set = true)) (v : Nat) (rest : Octets) :
    ∃ b, (Integer.write width flags v ++ rest).head? = some b ∧ (ForbidsIndexing b ↔ set = true) := by
  obtain ⟨b, hb, hle, hlt, -⟩ := Integer.head?_write hw hflags v rest
  exact ⟨b, hb, hrange b hle hlt⟩

theorem exists_head_write (base : Nat) (l : FieldLine) :
    ∃ b, (l.write base).head? = some b ∧ (ForbidsIndexing b ↔ l.never = true) := by
  rw [← List.append_nil (l.write base)]
  rcases l with ⟨index | index⟩ | ⟨index | index, value, never, huffman⟩ | ⟨name, value, never, huffman⟩
  · refine exists_head_integer (by decide) (by decide) (fun b hle hlt => ?_) index []
    simp [ForbidsIndexing, FieldLine.never] at hle hlt ⊢
    omega
  · rw [write]
    split
    · refine exists_head_integer (by decide) (by decide) (fun b hle hlt => ?_) _ []
      simp [ForbidsIndexing, FieldLine.never] at hle hlt ⊢
      omega
    · refine exists_head_integer (by decide) (by decide) (fun b hle hlt => ?_) _ []
      simp [ForbidsIndexing, FieldLine.never] at hle hlt ⊢
      omega
  · rw [write, List.append_assoc]
    refine exists_head_integer (by decide) (by cases never <;> decide) (fun b hle hlt => ?_) index _
    cases never <;> simp [flag, ForbidsIndexing, FieldLine.never] at hle hlt ⊢ <;> omega
  · rw [write]
    split
    · rw [List.append_assoc]
      refine exists_head_integer (by decide) (by cases never <;> decide) (fun b hle hlt => ?_) _ _
      cases never <;> simp [flag, ForbidsIndexing, FieldLine.never] at hle hlt ⊢ <;> omega
    · rw [List.append_assoc]
      refine exists_head_integer (by decide) (by cases never <;> decide) (fun b hle hlt => ?_) _ _
      cases never <;> simp [flag, ForbidsIndexing, FieldLine.never] at hle hlt ⊢ <;> omega
  · rw [write, List.append_assoc]
    obtain ⟨b, hb, hle, hlt, -⟩ := Literal.head?_write (by decide : 3 ≤ 7)
      (by cases never <;> decide : (0x20 ||| flag never 0x10 : UInt8).toNat % 2 ^ (3 + 1) = 0) name huffman
      (Literal.write 7 0x00 value huffman ++ [])
    refine ⟨b, hb, ?_⟩
    cases never <;> simp [flag, ForbidsIndexing, FieldLine.never] at hle hlt ⊢ <;> omega

theorem forbids_iff : l.Forbids base ↔ l.never = true := by
  obtain ⟨b, hb, hiff⟩ := exists_head_write base l
  rw [← hiff]
  constructor
  · rintro ⟨c, hc, hforbids⟩
    obtain rfl := Option.some.inj (hc.symm.trans hb)
    exact hforbids
  · exact fun hforbids => ⟨b, hb, hforbids⟩

end FieldLine

/-! ## Lines of a section -/

namespace Draft
open Encoder
variable {p : Policy} {e : Encoder} {fields : List Field} {d d' : Draft} {f : Field}

/-- The lines are entries, or have the flag if the policy asks for it. -/
structure Answers (p : Policy) (fields : List Field) (d : Draft) : Prop where
  policy : d.encoder.policy = p
  lines : List.Forall₂ (fun g l => l.never = p.neverIndex g ∨ ∃ entry, l = .indexed entry) fields d.lines

theorem lines_refer? {entry : EntryRef} (hr : d.refer? entry = some d') : d'.lines = d.lines := by
  rcases refer?_cases hr with ⟨_, -, rfl⟩ | ⟨index, -, -, ⟨-, rfl⟩ | ⟨-, -, -, rfl⟩⟩ <;> rfl

theorem Answers.refer (h : Answers p fields d) {entry : EntryRef} (hr : d.refer? entry = some d') :
    Answers p fields d' := by
  refine ⟨(refer?_silent hr).2.trans h.policy, ?_⟩
  rw [lines_refer? hr]
  exact h.lines

theorem Answers.indexed (h : Answers p fields d) (entry : EntryRef) :
    Answers p (fields ++ [f]) (d.line (.indexed entry)) :=
  ⟨h.policy, List.rel_append h.lines (.cons (Or.inr ⟨entry, rfl⟩) .nil)⟩

theorem Answers.named (h : Answers p fields d) (entry : EntryRef) (huffman : Bool) :
    Answers p (fields ++ [f]) (d.line (.named entry f.value (p.neverIndex f) huffman)) :=
  ⟨h.policy, List.rel_append h.lines (.cons (Or.inl rfl) .nil)⟩

theorem Answers.literalLine (h : Answers p fields d) (f : Field) : Answers p (fields ++ [f]) (d.literalLine f) := by
  refine ⟨h.policy, List.rel_append h.lines (.cons (Or.inl ?_) .nil)⟩
  rw [h.policy]
  rfl

theorem Answers.wrote (h : Answers p fields d) (hw : Wrote d f d') : Answers p (fields ++ [f]) d' := by
  have hinsert : ∀ i, Answers p fields (d.insert f i) := fun _ => ⟨h.policy, h.lines⟩
  cases hw with
  | indexed _ hr => exact (h.refer hr).indexed _
  | copied _ _ _ _ hr => exact ((hinsert _).refer hr).indexed _
  | copiedInVain _ _ _ _ _ => exact (hinsert _).literalLine f
  | named _ _ _ hr _ =>
    rw [h.policy]
    exact (h.refer hr).named _ _
  | @namedInserted entry r _ _ _ hr _ =>
    have hrefer := h.refer hr
    have hinserted : Answers p fields (r.insert f (d.encoder.insertion f (some entry))) :=
      ⟨hrefer.policy, hrefer.lines⟩
    rw [h.policy]
    exact hinserted.named _ _
  | literal _ _ _ _ => exact h.literalLine f
  | literalInserted _ _ _ _ => exact (hinsert _).literalLine f

theorem answers_ofFields (e : Encoder) (fields : List Field) : Answers e.policy fields (ofFields e fields) := by
  induction fields using List.reverseRecOn with
  | nil => exact ⟨rfl, .nil⟩
  | append_singleton fields f ih =>
    rw [ofFields_append_singleton]
    have hdrained : Answers e.policy fields (ofFields e fields).drain := ⟨ih.policy, ih.lines⟩
    exact hdrained.wrote (wrote_write _ f)

/-- A field that nobody is to index, and that the static table lacks, has a line that says so, or the dynamic table
holds it. -/
theorem lines_ofFields (h : Sound e .empty) (fields : List Field) :
    List.Forall₂ (fun g l => e.policy.neverIndex g = true → g ∉ StaticTable.fields →
      l.never = true ∨ ∃ i, l = .indexed (.dynamic i) ∧ (ofFields e fields).encoder.table.field? i = some g)
      fields (ofFields e fields).lines := by
  have hmeans := forall₂_of_mapM (says_ofFields h fields).2.means
  refine (answers_ofFields e fields).lines.mp (fun g l hl hfield hnever hstatic => ?_) hmeans
  rcases hl with hflag | ⟨entry, rfl⟩
  · exact Or.inl (hflag.trans hnever)
  · cases entry with
    | static index => exact absurd (List.mem_of_getElem? hfield) hstatic
    | dynamic index => exact Or.inr ⟨index, rfl, hfield⟩

end Draft

/-! ## A table that holds the field -/

namespace Encoder
variable {p : Policy} {f : Field}

/-- Room for a field, and one stream that may wait for it. -/
def roomFor (f : Field) : Settings := ⟨f.size, 1, 0, false, false⟩

/-- The table holds just the field, and the peer is not known to have it. -/
def held (p : Policy) (f : Field) : Encoder where
  settings := roomFor f
  policy := p
  validate := false
  table :=
    { DynamicTable.empty 0 with
      entries := [⟨f, 0, 0⟩], capacity := f.size, used := f.size, inserted := 1,
      byField := [(f, 0)], byName := [(f.name, 0)] }
  known := 0
  blocked := 0
  streams := []

theorem ofSettings_roomFor (f : Field) : ofSettings (roomFor f) = .ok (new (roomFor f)) := by
  have hsize := overhead_le_size f
  unfold ofSettings Settings.problems roomFor
  simp [Nat.not_lt.2 hsize]

/-- Nothing has been inserted yet. -/
def vacant (p : Policy) (f : Field) : Encoder :=
  { new (roomFor f) with policy := p, table := { DynamicTable.empty 0 with capacity := f.size } }

theorem setCapacity_vacant (p : Policy) (f : Field) :
    (({ new (roomFor f) with policy := p } : Encoder).setCapacity f.size).encoder = vacant p f := by
  have hrequest := DynamicTable.requestCapacity_empty 0 f.size
  rw [encoder_setCapacity (Nat.lt_irrefl f.size)]
  show { new (roomFor f) with policy := p, table := ((DynamicTable.empty 0).requestCapacity f.size).1 } = _
  rw [hrequest]
  rfl

theorem insert_vacant (hp : p.mayIndex f = true) : ((vacant p f).insert f).encoder = held p f := by
  have hdrain : (vacant p f).drain = (vacant p f, []) := by
    unfold drain
    rw [DynamicTable.drain_eq_self (t := (vacant p f).table) rfl rfl]
    rfl
  have hadmits : (vacant p f).admits f = true := by
    rw [admits_eq_true]
    exact ⟨hp, Nat.le_refl _⟩
  have hadd : (vacant p f).table.add f = (held p f).table := by
    rw [DynamicTable.add_eq (t := (vacant p f).table) (Nat.le_refl f.size)]
    simp [DynamicTable.append, vacant, held, DynamicTable.empty, Newest.record]
  unfold Encoder.insert
  rw [hdrain]
  dsimp only
  rw [if_pos hadmits, hadd]
  rfl

/-- A policy that lets the field enter the table has it there after one insertion. -/
theorem run_held (hp : p.mayIndex f = true) :
    ((new (roomFor f)).run [.setPolicy p, .setCapacity f.size, .insert f]).1 = held p f := by
  show (((({ new (roomFor f) with policy := p } : Encoder).setCapacity f.size).encoder).insert f).encoder = _
  rw [setCapacity_vacant, insert_vacant hp]

theorem lookup_held (hstatic : f ∉ StaticTable.fields) :
    (held p f).table.lookup f = some (.dynamic 0) := by
  have hnone : StaticTable.find? f = none := by
    unfold StaticTable.find?
    rw [List.findIdx?_eq_none_iff]
    intro g hg
    exact beq_eq_false_iff_ne.2 fun heq => hstatic (heq ▸ hg)
  have hsome : (held p f).table.find? f = some 0 := by
    simp [DynamicTable.find?, Newest.index?, held]
  unfold DynamicTable.lookup
  rw [hnone, hsome]
  rfl

theorem drainingIndex_held : (held p f).table.drainingIndex = 0 := by
  have hfree : (held p f).table.free = 0 := by
    show signed ((f.size : Int) - f.size) = 0
    rw [Int.sub_self]
    rfl
  have hthreshold : (held p f).table.threshold = 0 := by
    show ((f.size * 0 % UInt64.size / 100 : Nat) : Int) = 0
    rw [Nat.mul_zero]
    rfl
  exact DynamicTable.drainingIndex_of_threshold_le (hthreshold.trans_le hfree.ge)

/-- The section that asks for the field next waits for the entry. -/
theorem lines_held (hstatic : f ∉ StaticTable.fields) :
    (Draft.ofFields (held p f) [f]).lines = [.indexed (.dynamic 0)] := by
  have hdrain : (Draft.start (held p f)).drain = Draft.start (held p f) := by
    unfold Draft.drain drain
    show ({ Draft.start (held p f) with
      encoder := { held p f with table := (held p f).table.drain.1 }
      emitted := [] ++ (held p f).table.drain.2.toList.map .setCapacity } : Draft) = _
    rw [DynamicTable.drain_eq_self (t := (held p f).table) drainingIndex_held rfl]
    rfl
  have hreference : (held p f).table.canReference 0 = true := by
    unfold DynamicTable.canReference
    rw [drainingIndex_held]
    rfl
  have hrefer : (Draft.start (held p f)).refer? (.dynamic 0) = some ((Draft.start (held p f)).take.depend 0) := by
    show (if (held p f).table.canReference 0 then _ else _) = _
    rw [hreference]
    rfl
  have hindexed : (Draft.start (held p f)).indexed? f =
      some (((Draft.start (held p f)).take.depend 0).line (.indexed (.dynamic 0))) := by
    show ((held p f).table.lookup f).bind _ = _
    rw [lookup_held hstatic, Option.bind_some, hrefer]
    rfl
  show (Draft.write (Draft.start (held p f)).drain f).lines = _
  rw [hdrain]
  unfold Draft.write
  rw [hindexed]
  rfl

/-! ## What becomes of such fields -/

/-- Each line for the field is a literal that forbids indexing, in any section that is encoded next. -/
def Marks (e : Encoder) (f : Field) : Prop :=
  ∀ stream fields octets, (e.encode stream fields).result = .ok octets →
    List.Forall₂ (fun g l => g = f → l.Forbids (Draft.ofFields e fields).head.base)
      fields (Draft.ofFields e fields).lines

/-- What becomes of a field that nobody is to index. -/
structure FollowsNever (p : Policy) (f : Field) : Prop where
  /-- In any state with the policy, each line for the field is such a literal or an entry of the field. The octets are
  those of the lines. -/
  lines : ∀ e : Encoder, e.Reachable → e.policy = p → ∀ stream fields octets,
    (e.encode stream fields).result = .ok octets →
    octets = (Draft.ofFields e fields).octets ∧
    List.Forall₂ (fun g l => g = f → l.Forbids (Draft.ofFields e fields).head.base ∨
      ∃ i, l = .indexed (.dynamic i) ∧ (e.encode stream fields).encoder.table.field? i = some f)
      fields (Draft.ofFields e fields).lines
  /-- It is such a literal whatever the settings and the operations are, exactly under a policy that keeps the field
  out of the table. -/
  runs : (∀ settings start ops, ofSettings settings = .ok start → (∀ op ∈ ops, op.Keeps p) →
    Marks (start.run (.setPolicy p :: ops)).1 f) ↔ p.mayIndex f = false

theorem Under.marks {e : Encoder} (h : Under p e) (hnever : p.neverIndex f = true)
    (hstatic : f ∉ StaticTable.fields) (hmay : p.mayIndex f = false) : Marks e f := by
  intro stream fields octets _
  refine (Draft.obeys_ofFields h fields).lines.mp ?_ (Draft.lines_ofFields h.sound fields)
  rintro g l hpermits hl rfl
  rw [FieldLine.forbids_iff]
  rw [h.policy] at hl
  rcases hl hnever hstatic with hflag | ⟨i, rfl, -⟩
  · exact hflag
  · rw [hpermits.index i rfl] at hmay
    cases hmay

/-- The field goes out as the entry that the table holds. -/
theorem not_marks_held (hstatic : f ∉ StaticTable.fields) : ¬ Marks (held p f) f := by
  intro hmarks
  have hlines := hmarks 0 [f] _ (congrArg Outcome.result (encode_eq rfl 0))
  rw [lines_held hstatic] at hlines
  cases hlines with
  | cons hforbids _ =>
    have hflag := FieldLine.forbids_iff.1 (hforbids rfl)
    cases hflag

theorem followsNever (hnever : p.neverIndex f = true) (hstatic : f ∉ StaticTable.fields) : FollowsNever p f := by
  refine ⟨?_, ?_, ?_⟩
  · rintro e he rfl stream fields octets hok
    have hencode := encode_eq (refusedName?_eq_none hok) stream
    rw [hencode] at hok ⊢
    refine ⟨(Except.ok.inj hok).symm, (Draft.lines_ofFields he.sound fields).imp ?_⟩
    rintro g l hl rfl
    rw [FieldLine.forbids_iff]
    exact hl hnever hstatic
  · intro hall
    by_contra hmay
    rw [Bool.not_eq_false] at hmay
    have hmarks := hall (roomFor f) (new (roomFor f)) [.setCapacity f.size, .insert f] (ofSettings_roomFor f)
      (by simp [Operation.Keeps])
    rw [run_held hmay] at hmarks
    exact not_marks_held hstatic hmarks
  · intro hmay settings start ops hstart hops
    obtain rfl := eq_new_of_ofSettings hstart
    have hunder : Under p ((new settings).run (.setPolicy p :: ops)).1 := (under_new settings p).run hops
    exact hunder.marks hnever hstatic hmay

/-- Even a policy with one answer for all fields may let in what nobody is to index. -/
theorem followsNever_uniform : (Policy.uniform true true false).neverIndex ⟨[97], []⟩ = true ∧
    ⟨[97], []⟩ ∉ StaticTable.fields ∧ FollowsNever (.uniform true true false) ⟨[97], []⟩ :=
  ⟨rfl, by decide, followsNever rfl (by decide)⟩

/-- Under such a policy, a field that was inserted goes out as an entry. -/
theorem not_followsNever : ¬ ∀ (e : Encoder) (f : Field), e.Reachable → e.policy.neverIndex f = true →
    f ∉ StaticTable.fields → Marks e f := by
  intro hall
  have hreach : (held (.uniform true true false) ⟨[97], []⟩).Reachable :=
    ⟨roomFor ⟨[97], []⟩, new _, [.setPolicy (.uniform true true false), .setCapacity 33, .insert ⟨[97], []⟩],
      ofSettings_roomFor _, run_held rfl⟩
  exact not_marks_held (by decide) (hall _ _ hreach rfl (by decide))

end Encoder
end Qpack
