import Qpack.Section.Line
import Qpack.Stream.Instruction

/-!
# What a policy permits

* `Policy.PermitsInsertion p i f` : the instruction `i`, which inserts `f`, keeps to the policy `p`;
* `Policy.PermitsAll p list` : so do several, each with its field;
* `Policy.PermitsLine p f l` : so does the line `l` for `f`;
* `isListed_eq_true_iff` : when a name is on a list;
* `unlisted_of_mayIndex`, `static_or_never` : what the standard answers mean by name.
-/

namespace Qpack.Policy

/-- The field may be in the table, and its strings are coded only if they may be. -/
structure PermitsInsertion (p : Policy) (i : Instruction) (f : Field) : Prop where
  index : p.mayIndex f = true
  coding : p.mayHuffman f = false → i.coded = false

/-- All of several instructions keep to a policy, each with its field. -/
def PermitsAll (p : Policy) (list : List (Instruction × Field)) : Prop :=
  ∀ i f, (i, f) ∈ list → p.PermitsInsertion i f

/-- The strings of the field are coded only if they may be. A dynamic entry stands for the field only if it
may be in the table, and a field that nobody is to index has a line that says so, or an entry. -/
structure PermitsLine (p : Policy) (f : Field) (l : FieldLine) : Prop where
  coding : p.mayHuffman f = false → l.coded = false
  index : ∀ i, l = .indexed (.dynamic i) → p.mayIndex f = true
  never : p.neverIndex f = true → l.never = true ∨ ∃ entry, l = .indexed entry

variable {p : Policy} {f : Field}

theorem permitsAll_nil (p : Policy) : p.PermitsAll [] := by
  simp [PermitsAll]

theorem PermitsAll.append {list more : List (Instruction × Field)} (h₁ : p.PermitsAll list)
    (h₂ : p.PermitsAll more) : p.PermitsAll (list ++ more) := by
  intro i f hif
  rcases List.mem_append.1 hif with hif | hif
  · exact h₁ i f hif
  · exact h₂ i f hif

/-- A field with a line of its own is forbidden to index if the policy says so. -/
theorem permitsLine_literal (p : Policy) (f : Field) :
    p.PermitsLine f (.literal f.name f.value (p.neverIndex f) (p.mayHuffman f)) := by
  constructor
  · intro h
    simp [FieldLine.coded, Literal.isCoded, h]
  · rintro i ⟨⟩
  · exact Or.inl

theorem permitsLine_named (p : Policy) (f : Field) (entry : EntryRef) :
    p.PermitsLine f (.named entry f.value (p.neverIndex f) (p.mayHuffman f)) := by
  constructor
  · intro h
    simp [FieldLine.coded, Literal.isCoded, h]
  · rintro i ⟨⟩
  · exact Or.inl

theorem permitsLine_indexed {entry : EntryRef} (h : ∀ i, entry = .dynamic i → p.mayIndex f = true) :
    p.PermitsLine f (.indexed entry) := by
  constructor
  · intro
    rfl
  · intro i hi
    exact h i (FieldLine.indexed.inj hi)
  · intro
    exact Or.inr ⟨entry, rfl⟩

/-! ## The answers by name -/

theorem isListed_eq_true_iff {names : List String} {name : Octets} :
    isListed names name = true ↔ ∃ s ∈ names, (Octets.ofText s).sameLetters name = true := by
  unfold isListed
  exact List.any_eq_true

theorem neverIndexed_subset : neverIndexed ⊆ unindexed := by decide

/-- A field that nobody is to index does not enter the table either. -/
theorem standard_mayIndex_of_neverIndex {huffman : Bool} (h : (standard huffman).neverIndex f = true) :
    (standard huffman).mayIndex f = false := by
  obtain ⟨s, hs, hsame⟩ := isListed_eq_true_iff.1 h
  have hlisted : isListed unindexed f.name = true :=
    isListed_eq_true_iff.2 ⟨s, neverIndexed_subset hs, hsame⟩
  simp [standard, hlisted]

/-- A field that may enter the table has none of the listed names. -/
theorem unlisted_of_mayIndex {huffman : Bool} (h : (standard huffman).mayIndex f = true) :
    ∀ name ∈ unindexed, (Octets.ofText name).sameLetters f.name = false := by
  intro name hname
  rcases hsame : (Octets.ofText name).sameLetters f.name with _ | _
  · rfl
  · have hlisted : isListed unindexed f.name = true := isListed_eq_true_iff.2 ⟨name, hname, hsame⟩
    simp [standard, hlisted] at h

/-- A field that nobody is to index is an entry of the static table, or its line forbids to index it. -/
theorem static_or_never {huffman : Bool} {l : FieldLine} (hl : (standard huffman).PermitsLine f l)
    (hf : isListed neverIndexed f.name = true) : (∃ index, l = .indexed (.static index)) ∨ l.never = true := by
  rcases hl.never hf with hnever | ⟨index | index, rfl⟩
  · exact Or.inr hnever
  · exact Or.inl ⟨index, rfl⟩
  · have hno := standard_mayIndex_of_neverIndex (show (standard huffman).neverIndex f = true from hf)
    rw [hl.index index rfl] at hno
    cases hno

end Qpack.Policy
