import Qpack.Proofs.Encoder.Run
import Qpack.Proofs.Stream.Instruction

/-!
# The octets of the encoder stream

* `runWith_eq` : a handler takes the instructions of a run, in order;
* `Sound.fits_of_field?` : an insertion is of a field that finds room, and the entry that it names is in the
  table, so all its numbers are small;
* `Steps.fits`, `fits_run` : so are those of all instructions that are sent;
* `readAll_octets` : whoever reads the octets of instructions finds the instructions again, those of any run
  among them.
-/

namespace Qpack

theorem Handler.foldl_list (out taken : List Instruction) : out.foldl Handler.list taken = taken ++ out := by
  induction out generalizing taken with
  | nil => simp
  | cons i out ih => simp [ih, Handler.list]

theorem Handler.foldl_octets (out : List Instruction) (taken : Octets) :
    out.foldl Handler.octets taken = taken ++ Instruction.writeAll out := by
  induction out generalizing taken with
  | nil => simp [Instruction.writeAll]
  | cons i out ih => simp [ih, Handler.octets, Instruction.writeAll]

namespace Encoder
variable {e e' : Encoder} {s s' : SentSection} {out : List Instruction} {i : Instruction} {f : Field}

/-- A handler takes the instructions that are sent, one after another. -/
theorem runWith_eq {α : Type} (handler : Handler α) (e : Encoder) (taken : α) (ops : List Operation) :
    e.runWith handler taken ops = ((e.run ops).1, (e.run ops).2.foldl handler taken) := by
  induction ops generalizing e taken with
  | nil => rfl
  | cons op rest ih => simp [runWith, ih, run]

/-! ## Small numbers -/

/-- What is counted back to an entry is less than the number of entries. -/
theorem Sound.le_of_fieldBack (h : Sound e s) {distance : Nat} {g : Field}
    (hg : fieldBack e.table.inserted e.table.field? distance = some g) :
    distance ≤ e.settings.maxTableCapacity := by
  unfold fieldBack at hg
  split at hg
  · obtain ⟨x, hx, hindex, -⟩ := h.valid.field?_eq_some_iff.1 hg
    have hle := h.valid.inserted_le hx
    have hlen := h.valid.length_le_maxEntries
    have hcap := h.capacity_le
    rw [Field.overhead] at hlen
    omega
  · cases hg

/-- A field that finds room is not longer than the largest table. -/
theorem Sound.size_le (h : Sound e s) (ha : e.admits f = true) : f.size ≤ e.settings.maxTableCapacity := by
  have hf := (admits_eq_true.1 ha).2
  have hs := overhead_le_size f
  rw [Field.overhead] at hs
  have hp := h.waits.pending_eq_none (by omega)
  have hcap := h.capacity_le
  rw [DynamicTable.space, DynamicTable.target, hp, Option.getD_none] at hf
  omega

theorem Sound.fits_of_field? (h : Sound e s) (hmax : e.settings.maxTableCapacity ≤ Integer.maximum)
    (ha : e.admits f = true) (hi : i.field? e.table.inserted e.table.field? = some f) : i.Fits := by
  have hsize := h.size_le ha
  unfold Field.size Field.entrySize at hsize
  rcases i with capacity | ⟨index | distance, huffman, value⟩ | ⟨nameHuffman, name, valueHuffman, value⟩ | distance
  · cases hi
  · obtain ⟨g, hg, rfl⟩ := Option.map_eq_some_iff.1 hi
    have hlt := (List.getElem?_eq_some_iff.1 hg).1
    have hstatic : StaticTable.fields.length ≤ Integer.maximum := by decide
    refine ⟨?_, ?_⟩
    · omega
    · simp at hsize
      omega
  · obtain ⟨g, hg, rfl⟩ := Option.map_eq_some_iff.1 hi
    refine ⟨(h.le_of_fieldBack hg).trans hmax, ?_⟩
    simp at hsize
    omega
  · obtain rfl := Option.some.inj hi
    simp at hsize
    refine ⟨?_, ?_⟩
    · omega
    · omega
  · exact (h.le_of_fieldBack hi).trans hmax

theorem Step.fits (h : Sound e s) (hmax : e.settings.maxTableCapacity ≤ Integer.maximum)
    (hstep : Step e s out e' s') : ∀ i ∈ out, i.Fits := by
  intro i hi
  cases hstep with
  | resize _ _ hc =>
    split at hi
    · cases hi
    · obtain rfl := List.mem_singleton.1 hi
      exact hc.trans hmax
  | insert ha hfield =>
    obtain rfl := List.mem_singleton.1 hi
    exact h.fits_of_field? hmax ha hfield
  | _ => cases hi

theorem Steps.fits (h : Sound e s) (hmax : e.settings.maxTableCapacity ≤ Integer.maximum)
    (hsteps : Steps e s out e' s') : ∀ i ∈ out, i.Fits := by
  induction hsteps with
  | refl => simp
  | tail hsteps hstep ih =>
    intro i hi
    rcases List.mem_append.1 hi with hi | hi
    · exact ih h i hi
    · exact hstep.fits (hsteps.sound h) (hsteps.settings ▸ hmax) i hi

/-- All instructions that operations send have numbers and lengths of at most 62 bits. -/
theorem Sound.fits_run (h : Sound e .empty) (hmax : e.settings.maxTableCapacity ≤ Integer.maximum)
    (ops : List Operation) : ∀ i ∈ (e.run ops).2, i.Fits := by
  induction ops generalizing e with
  | nil => simp [Encoder.run]
  | cons op rest ih =>
    intro i hi
    obtain ⟨e', s, hsteps, -, -⟩ := perform_steps h op
    rcases List.mem_append.1 hi with hi | hi
    · exact hsteps.fits h hmax i hi
    · exact ih (h.perform op) (settings_perform h op ▸ hmax) i hi

/-! ## The encoder stream -/

/-- Octets of instructions, whatever these are, are read as these instructions, up to the flags for the
coding, and nothing is left. So it is with the octets that a handler has taken after any operations, compared
with the instructions that another one takes. -/
theorem readAll_octets :
    (∀ list : List Instruction, (∀ i ∈ list, i.Fits) →
      Instruction.readAll (Instruction.writeAll list) = some (list.map Instruction.sent)) ∧
    ∀ (settings : Settings) (start : Encoder) (ops : List Operation), ofSettings settings = .ok start →
      settings.maxTableCapacity ≤ Integer.maximum →
      Instruction.readAll (start.runWith Handler.octets [] ops).2 =
        some ((start.runWith Handler.list [] ops).2.map Instruction.sent) := by
  refine ⟨fun list h => Instruction.readAll_writeAll h, ?_⟩
  intro settings start ops hstart hmax
  obtain rfl := eq_new_of_ofSettings hstart
  have hfits := (sound_new settings).fits_run hmax ops
  rw [runWith_eq, runWith_eq, Handler.foldl_octets, Handler.foldl_list, List.nil_append, List.nil_append]
  exact Instruction.readAll_writeAll hfits

/-- All four instructions, with numbers of several octets, and strings that become shorter and that do not.
-/
def assorted : List Instruction :=
  [.setCapacity Integer.maximum, .insertNamed (.static 63) true (.ofText "/index.html"),
    .insertNamed (.relative 64) true [0xFF], .insertLiteral false (.ofText "key") true (.ofText "value"),
    .duplicate 31]

/-- A field is inserted, and comes back as a copy and by its name. -/
def inserting : List Operation :=
  [.setCapacity 220, .insert (.ofText "key" "value"), .insert (.ofText "key" "value"),
    .encode 0 [.ofText "key" "other value"]]

theorem readAll_octets_assorted :
    (∀ i ∈ assorted, i.Fits) ∧
    Instruction.readAll (Instruction.writeAll assorted) =
      some [.setCapacity Integer.maximum, .insertNamed (.static 63) true (.ofText "/index.html"),
        .insertNamed (.relative 64) false [0xFF], .insertLiteral false (.ofText "key") true (.ofText "value"),
        .duplicate 31] ∧
    Instruction.readAll ((new .default).runWith Handler.octets [] inserting).2 =
      some [.setCapacity 220, .insertLiteral false (.ofText "key") true (.ofText "value"), .duplicate 0,
        .insertNamed (.relative 0) true (.ofText "other value")] := by
  have hfits : ∀ i ∈ assorted, i.Fits := by decide +kernel
  refine ⟨hfits, ?_, ?_⟩
  · rw [readAll_octets.1 assorted hfits]
    decide +kernel
  · rw [readAll_octets.2 .default (new .default) inserting rfl (by decide)]
    decide +kernel

end Encoder
end Qpack
