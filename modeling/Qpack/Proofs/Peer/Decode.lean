import Qpack.Peer.Table
import Qpack.Proofs.Encoder.Draft
import Qpack.Proofs.Section.Head
import Qpack.Proofs.Section.Line

/-!
# Decoding a section that was written

* `resolve?_eq_meaning?` : the peer takes a line for what it means in its own table;
* `fits_of_meaning?` : a line that means a short field can be written;
* `decode?_write` : a section is decoded to what its lines mean, if the peer finds the required insert
  count again and has that many insertions.
-/

namespace Qpack

/-! ## The meaning of lines -/

theorem exists_of_mapM {α β : Type} {g : α → Option β} {l : List α} {l' : List β} (h : l.mapM g = some l')
    {a : α} (ha : a ∈ l) : ∃ b ∈ l', g a = some b := by
  have hall := forall₂_of_mapM h
  clear h
  induction hall with
  | nil => cases ha
  | cons hy _ ih =>
    rcases List.mem_cons.1 ha with rfl | ha
    · exact ⟨_, List.mem_cons_self, hy⟩
    · obtain ⟨b, hb, hg⟩ := ih ha
      exact ⟨b, List.mem_cons_of_mem _ hb, hg⟩

theorem PeerTable.resolve?_sent (t : PeerTable) (required : Nat) (l : FieldLine) :
    t.resolve? required l.sent = t.resolve? required l := by
  cases l <;> rfl

/-- A line that needs no later insertions is taken for what it means in the table. -/
theorem PeerTable.resolve?_eq_meaning? (t : PeerTable) {required : Nat} {l : FieldLine}
    (h : ∀ i, l.index? = some i → i < required) : t.resolve? required l = l.meaning? t.field? := by
  have hentry : ∀ entry, l.entry? = some entry → t.entry? required entry = entry.field? t.field? := by
    intro entry he
    cases entry with
    | static index => rfl
    | dynamic index => exact if_pos (h index (FieldLine.index?_of_dynamic he))
  cases l with
  | indexed entry => exact hentry entry rfl
  | named entry value never huffman => rw [resolve?, FieldLine.meaning?, hentry entry rfl]
  | literal name value never huffman => rfl

theorem StaticTable.lt_of_field? {index : Nat} {f : Field} (h : StaticTable.field? index = some f) :
    index < 99 := (List.getElem?_eq_some_iff.1 h).1

/-- A line can be written if it means a field of short strings and its entry is near the base. -/
theorem FieldLine.fits_of_meaning? {look : Nat → Option Field} {base : Nat} {l : FieldLine} {f : Field}
    (hf : l.meaning? look = some f)
    (hshort : f.name.length ≤ Integer.maximum ∧ f.value.length ≤ Integer.maximum)
    (hnear : ∀ i, l.index? = some i → base - 1 - i ≤ Integer.maximum ∧ i - base ≤ Integer.maximum) :
    l.Fits base := by
  have hentry : ∀ entry g, l.entry? = some entry → entry.field? look = some g → entry.Fits base := by
    intro entry g he hg
    cases entry with
    | static index => exact (StaticTable.lt_of_field? hg).le.trans (by decide)
    | dynamic index => exact hnear index (index?_of_dynamic he)
  cases l with
  | indexed entry => exact hentry entry f rfl hf
  | named entry value never huffman =>
    obtain ⟨g, hg, rfl⟩ := Option.map_eq_some_iff.1 hf
    exact ⟨hentry entry g rfl hg, hshort.2⟩
  | literal name value never huffman =>
    obtain rfl := Option.some.inj hf
    exact hshort

/-! ## The section -/

/-- A section that needs `needed` insertions and no more is decoded to what its lines mean. -/
theorem PeerTable.decode?_write {t : PeerTable} {base : Nat} {lines : List FieldLine} {fields : List Field}
    {head : SectionHead} (hhead : head = ⟨needed (lines.filterMap FieldLine.index?), base⟩)
    (hwrap : InsertCount.wrap t.maxCapacity head.requiredInsertCount ≤ Integer.maximum)
    (hunwrap : InsertCount.unwrap? t.maxCapacity t.inserted
      (InsertCount.wrap t.maxCapacity head.requiredInsertCount) = some head.requiredInsertCount)
    (hhas : head.requiredInsertCount ≤ t.inserted)
    (hfits : ∀ l ∈ lines, l.Fits base) (hmeans : lines.mapM (FieldLine.meaning? t.field?) = some fields) :
    t.decode? (head.write t.maxCapacity ++ lines.flatMap (FieldLine.write base)) =
      some ⟨head.requiredInsertCount, fields⟩ := by
  have hresolve : (lines.map FieldLine.sent).mapM (t.resolve? head.requiredInsertCount) = some fields := by
    rw [List.mapM_map, ← hmeans]
    refine mapM_congr fun l hl => ?_
    rw [Function.comp_apply, t.resolve?_sent]
    refine t.resolve?_eq_meaning? fun i hi => ?_
    rw [hhead]
    exact needed_le.1 (Nat.le_refl _) i (FieldLine.mem_filterMap_index? hl hi)
  have hbase : (head.toWire t.maxCapacity).base? head.requiredInsertCount = some base := by
    rw [head.base?_toWire, hhead]
  have hread := WireHead.read_write (h := head.toWire t.maxCapacity) hwrap
    (lines.flatMap (FieldLine.write base))
  rw [decode?, SectionHead.write, hread]
  show (InsertCount.unwrap? _ _ _).bind _ = _
  rw [show (head.toWire t.maxCapacity).wrapped = InsertCount.wrap t.maxCapacity head.requiredInsertCount from rfl,
    hunwrap]
  show ((head.toWire t.maxCapacity).base? head.requiredInsertCount).bind _ = _
  rw [hbase]
  show (FieldLine.readAll base _).bind _ = _
  rw [FieldLine.readAll_write hfits]
  show (if t.inserted < head.requiredInsertCount then none else _) = _
  rw [if_neg (Nat.not_lt.2 hhas), hresolve]
  rfl

end Qpack
