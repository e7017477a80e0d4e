import Qpack.Proofs.Wire.Integer
import Qpack.Stream.Feedback

/-!
# Reports that were written or go on

* `Feedback.value` : the number in a report;
* `form`, `read_of_head?` : the first octet tells the kind of a report, the integer that it begins all else;
* `read_write` : a report that was written is read again, whatever follows it;
* `read_append`, `read_part` : what is read, and the fault as well, depends on the octets of the report only;
* `readAll_of_ok`, `readAll_of_truncated`, `readAll_of_fault` : several reports are the first and the others.
-/

namespace Qpack.Feedback
variable {data rest : Octets} {item : Feedback}

/-- The stream that a report is about, or how many insertions it reports. -/
def value : Feedback → Nat
  | acknowledge stream => stream
  | cancel stream => stream
  | increment count => count

/-! ## The first octet -/

/-- How many bits an octet leaves for the number in a report, and which report it begins. -/
def form (b : UInt8) : Nat × (Nat → Feedback) :=
  if 128 ≤ b.toNat then (7, acknowledge) else if 64 ≤ b.toNat then (6, cancel) else (6, increment)

theorem read_of_head? {b : UInt8} (hb : data.head? = some b) :
    read data = (Integer.read (form b).1 data).map fun (v, rest) => ((form b).2 v, rest) := by
  cases data with
  | nil => cases hb
  | cons c tail =>
    obtain rfl := Option.some.inj hb
    unfold read form
    dsimp only
    split
    · rfl
    · split <;> rfl

/-- A number is read again below flags that tell the kind of the report. -/
theorem read_integer {width : Nat} {flags : UInt8} {make : Nat → Feedback} (hpos : 1 ≤ width) (hw : width ≤ 8)
    (hflags : flags.toNat % 2 ^ width = 0)
    (hform : ∀ b : UInt8, flags.toNat ≤ b.toNat → b.toNat < flags.toNat + 2 ^ width → form b = (width, make))
    {v : Nat} (hv : v ≤ Integer.maximum) (rest : Octets) :
    read (Integer.write width flags v ++ rest) = .ok (make v, rest) := by
  obtain ⟨b, hb, hle, hlt, -⟩ := Integer.head?_write hw hflags v rest
  rw [read_of_head? hb, hform b hle hlt, Integer.read_write hpos hw hflags hv]
  rfl

/-- A report that was written is read again, and what follows it is left. -/
theorem read_write (h : item.value ≤ Integer.maximum) (rest : Octets) :
    read (item.write ++ rest) = .ok (item, rest) := by
  cases item with
  | acknowledge stream =>
    refine read_integer (by decide) (by decide) (by decide) ?_ h rest
    intro b hle _
    exact if_pos hle
  | cancel stream =>
    refine read_integer (by decide) (by decide) (by decide) ?_ h rest
    intro b hle hlt
    exact (if_neg (Nat.not_le.2 hlt)).trans (if_pos hle)
  | increment count =>
    refine read_integer (by decide) (by decide) (by decide) ?_ h rest
    intro b _ hlt
    have hlt' : b.toNat < 64 := hlt
    unfold form
    rw [if_neg (by omega), if_neg (by omega)]

/-! ## Octets that go on -/

/-- Unless the octets end too early, it does not matter what follows them. -/
theorem read_append (h : read data ≠ .error .truncated) (more : Octets) :
    read (data ++ more) = (read data).map fun (item, rest) => (item, rest ++ more) := by
  cases data with
  | nil => exact absurd rfl h
  | cons b tail =>
    rw [read_of_head? rfl] at h
    have hint : Integer.read (form b).1 (b :: tail) ≠ .error .truncated := by
      intro hshort
      rw [hshort] at h
      exact h rfl
    have hlong := Integer.read_append hint more
    rw [List.cons_append] at hlong ⊢
    rw [read_of_head? rfl, read_of_head? rfl, hlong]
    rcases Integer.read (form b).1 (b :: tail) with fault | ⟨v, rest⟩
    · rfl
    · rfl

/-- A report that was read is a part of the octets that can be read alone. -/
theorem read_part (h : read data = .ok (item, rest)) :
    ∃ part, data = part ++ rest ∧ read part = .ok (item, []) := by
  cases data with
  | nil => cases h
  | cons b tail =>
    rw [read_of_head? rfl] at h
    rcases hint : Integer.read (form b).1 (b :: tail) with fault | ⟨v, rest'⟩
    · rw [hint] at h
      cases h
    · rw [hint] at h
      obtain ⟨rfl, rfl⟩ := Prod.mk.inj (Except.ok.inj h)
      obtain ⟨part, hdata, hne, hread⟩ := Integer.read_part hint
      refine ⟨part, hdata, ?_⟩
      obtain ⟨c, part, rfl⟩ := List.exists_cons_of_ne_nil hne
      obtain rfl := (List.cons.inj hdata).1
      rw [read_of_head? rfl, hread]
      rfl

/-! ## Several reports -/

theorem readAll_of_ok (h : read data = .ok (item, rest)) :
    readAll data = (item :: (readAll rest).1, (readAll rest).2) := by
  rw [readAll]
  split
  · next item' rest' h' =>
    rw [h] at h'
    obtain ⟨rfl, rfl⟩ := Prod.mk.inj (Except.ok.inj h')
    rfl
  · next h' =>
    rw [h] at h'
    cases h'
  · next h' =>
    rw [h] at h'
    cases h'

theorem readAll_of_truncated (h : read data = .error .truncated) : readAll data = ([], .waiting data) := by
  rw [readAll]
  split
  · next h' =>
    rw [h] at h'
    cases h'
  · rfl
  · next hne h' =>
    rw [h] at h'
    exact absurd (Except.error.inj h').symm hne

theorem readAll_of_fault {fault : Integer.Fault} (h : read data = .error fault) (hne : fault ≠ .truncated) :
    readAll data = ([], .malformed fault) := by
  rw [readAll]
  split
  · next h' =>
    rw [h] at h'
    cases h'
  · next h' =>
    rw [h] at h'
    exact absurd (Except.error.inj h') hne
  · next h' =>
    rw [h] at h'
    rw [Except.error.inj h']

end Qpack.Feedback
