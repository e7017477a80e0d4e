import Qpack.Proofs.Wire.Integer
import Qpack.Section.Head
import Mathlib.Data.Set.Function
import Mathlib.Order.Interval.Set.Defs

/-!
# Heads that were written

A count is written by its place in a turn, and a turn has twice as many places as the peer's table can hold
entries. A peer knows which turn is meant if the count is not too far from its own insertions.

* `wrap_eq`, `wrap_bounds`, `wrap_le_of_lt` : the count as it is written, and how large it is;
* `unwrap?_wrap` : the count that is found;
* `unwrap?_wrap_iff` : the count is found again from exactly the insert counts that are less than half
  a turn away;
* `window maxCapacity inserted` : the counts up to half a turn ahead of a peer, and less than half a turn
  behind it;
* `candidate maxCapacity inserted wrapped` : the first guess of the peer;
* `unwrap?_eq_some_iff` : what becomes of the guess where there is an answer;
* `injOn_wrap_window`, `injOn_wrap_Ico` : the counts of a window are written differently, and so are those
  of any turn;
* `Recovered`, `recovered_of_mem_window` : every count of the window is found again;
* `WireHead.read_write` : the three numbers of a head are read again, whatever follows them;
* `toWire_eq`, `base?_toWire` : which numbers these are, and the base again from the required insert count.
-/

/-! ## Wrapped counts -/

namespace Qpack.InsertCount

theorem wrap_eq {maxCapacity required : Nat} (hM : 0 < maxEntries maxCapacity) (hr : 0 < required) :
    wrap maxCapacity required = required % (2 * maxEntries maxCapacity) + 1 := by
  rw [wrap, if_neg (by omega), Nat.max_eq_left hM]

/-- A count that is not zero is written as one of as many numbers as there are in a turn. -/
theorem wrap_bounds {maxCapacity required : Nat} (hM : 0 < maxEntries maxCapacity) (hr : 0 < required) :
    1 ≤ wrap maxCapacity required ∧ wrap maxCapacity required ≤ 2 * maxEntries maxCapacity := by
  have hlt := Nat.mod_lt required (show 0 < 2 * maxEntries maxCapacity by omega)
  rw [wrap_eq hM hr]
  omega

/-- A count has at most 62 bits when it is wrapped for a capacity of at most 64. -/
theorem wrap_le_of_lt {maxCapacity : Nat} (h : maxCapacity < 2 ^ 64) (required : Nat) :
    wrap maxCapacity required ≤ Integer.maximum := by
  have hentries : maxEntries maxCapacity < 2 ^ 59 := by
    unfold maxEntries Field.overhead
    omega
  have hlt : required % (2 * max (maxEntries maxCapacity) 1) < 2 * max (maxEntries maxCapacity) 1 := by
    apply Nat.mod_lt
    omega
  unfold wrap Integer.maximum
  rw [Nat.one_shiftLeft]
  split
  · omega
  · omega

/-- Two numbers in the same turn, or one turn apart. -/
theorem turns_eq_iff {D p q s t : Nat} (hs : s < D) (ht : t < D) :
    (D * p + t ≤ D * q + s ∧ D * q + s < D * p + t + D) ↔ if t ≤ s then p = q else p + 1 = q := by
  rcases Nat.lt_trichotomy p q with hlt | rfl | hgt
  · obtain ⟨d, rfl⟩ := Nat.exists_eq_add_of_lt hlt
    have hmul : D * (p + d + 1) = D * p + D * d + D := by
      rw [Nat.mul_add, Nat.mul_one, Nat.mul_add]
    rcases Nat.eq_zero_or_pos d with rfl | hd
    · rw [Nat.mul_zero] at hmul
      split <;> omega
    · have hge : D ≤ D * d := Nat.le_mul_of_pos_right D hd
      split <;> omega
  · split <;> omega
  · obtain ⟨d, rfl⟩ := Nat.exists_eq_add_of_lt hgt
    have hmul : D * (q + d + 1) = D * q + D * d + D := by
      rw [Nat.mul_add, Nat.mul_one, Nat.mul_add]
    split <;> omega

/-- The count is taken to be in the turn of the last insertion that it may need, `q` turns in, or in the
turn before. -/
theorem unwrap?_wrap {maxCapacity required inserted D q s t : Nat} (hD : 2 * maxEntries maxCapacity = D)
    (hpos : 0 < D) (hr : 0 < required) (hV : inserted + maxEntries maxCapacity = D * q + s) (hs : s < D)
    (ht : required % D = t) :
    unwrap? maxCapacity inserted (wrap maxCapacity required) =
      if t ≤ s then if D * q + t = 0 then none else some (D * q + t)
      else if q = 0 then none else some (D * (q - 1) + t) := by
  have hlt : t < D := ht ▸ Nat.mod_lt required hpos
  have hq : (D * q + s) / D = q := by
    rw [Nat.mul_add_div hpos, Nat.div_eq_of_lt hs, Nat.add_zero]
  rw [unwrap?, wrap_eq (by omega) hr, hD, ht, hV]
  dsimp only
  rw [hq, if_neg (Nat.succ_ne_zero t), if_neg (by omega), ← Nat.add_assoc, Nat.add_sub_cancel, Nat.mul_comm q]
  by_cases hts : t ≤ s
  · rw [if_pos hts, if_pos (by omega)]
  · rw [if_neg hts, if_neg (by omega)]
    rcases q with _ | n
    · rw [if_pos rfl, Nat.mul_zero, if_pos (by omega)]
    · have hmul : D * (n + 1) = D * n + D := Nat.mul_succ D n
      rw [if_neg (Nat.succ_ne_zero n), if_neg (by omega), Nat.add_sub_cancel]
      congr 1
      omega

/-- The count is found again by exactly the peers that are less than half a turn ahead and at most half
a turn behind. -/
theorem unwrap?_wrap_iff {maxCapacity required inserted : Nat} (hM : 0 < maxEntries maxCapacity)
    (hr : 0 < required) :
    unwrap? maxCapacity inserted (wrap maxCapacity required) = some required ↔
      required ≤ inserted + maxEntries maxCapacity ∧ inserted < required + maxEntries maxCapacity := by
  obtain ⟨D, hD⟩ : ∃ D, 2 * maxEntries maxCapacity = D := ⟨_, rfl⟩
  have hpos : 0 < D := by omega
  -- both numbers as turns and what is left of them
  have hV := Nat.div_add_mod (inserted + maxEntries maxCapacity) D
  have hR := Nat.div_add_mod required D
  have hs := Nat.mod_lt (inserted + maxEntries maxCapacity) hpos
  have ht := Nat.mod_lt required hpos
  have hwindow := turns_eq_iff (p := required / D) (q := (inserted + maxEntries maxCapacity) / D) hs ht
  rw [hV, hR] at hwindow
  have hiff : (required ≤ inserted + maxEntries maxCapacity ∧ inserted < required + maxEntries maxCapacity) ↔
      (required ≤ inserted + maxEntries maxCapacity ∧ inserted + maxEntries maxCapacity < required + D) := by
    omega
  rw [hiff, hwindow, unwrap?_wrap hD hpos hr hV.symm hs rfl]
  generalize (inserted + maxEntries maxCapacity) / D = q at *
  generalize required / D = p at *
  have hturn : ∀ n, D * n + required % D = required ↔ p = n := by
    intro n
    constructor
    · intro h
      exact Nat.eq_of_mul_eq_mul_left hpos (by omega)
    · rintro rfl
      exact hR
  by_cases hts : required % D ≤ (inserted + maxEntries maxCapacity) % D
  · rw [if_pos hts, if_pos hts, ← hturn q]
    split
    · next h0 =>
      refine ⟨fun h => ?_, fun h => by omega⟩
      cases h
    · exact Option.some_inj
  · rw [if_neg hts, if_neg hts]
    rcases q with _ | n
    · refine ⟨fun h => ?_, fun h => absurd h (Nat.succ_ne_zero p)⟩
      cases h
    · rw [if_neg (Nat.succ_ne_zero n), Nat.add_sub_cancel, Option.some_inj, hturn n, Nat.succ_inj]

end Qpack.InsertCount

/-! ## Counts that a peer tells apart -/

namespace Qpack.InsertCount
variable {maxCapacity required inserted wrapped : Nat}

/-- The counts that a peer with so many insertions can be meant to have: up to half a turn ahead of it, and
less than half a turn behind. -/
def window (maxCapacity inserted : Nat) : Set Nat :=
  {r | 0 < r ∧ r ≤ inserted + maxEntries maxCapacity ∧ inserted < r + maxEntries maxCapacity}

/-- What a written count means in the turn of the last count that the peer expects. -/
def candidate (maxCapacity inserted wrapped : Nat) : Nat :=
  (inserted + maxEntries maxCapacity) / (2 * maxEntries maxCapacity) * (2 * maxEntries maxCapacity) + wrapped - 1

theorem unwrap?_eq (hw : wrapped ≠ 0) :
    unwrap? maxCapacity inserted wrapped =
      if 2 * maxEntries maxCapacity < wrapped then none
      else if candidate maxCapacity inserted wrapped ≤ inserted + maxEntries maxCapacity then
        if candidate maxCapacity inserted wrapped = 0 then none else some (candidate maxCapacity inserted wrapped)
      else if candidate maxCapacity inserted wrapped ≤ 2 * maxEntries maxCapacity then none
      else some (candidate maxCapacity inserted wrapped - 2 * maxEntries maxCapacity) :=
  if_neg hw

/-- The guess is the answer, or it exceeds what the peer expects and the turn before is meant. -/
theorem unwrap?_eq_some_iff (hw : wrapped ≠ 0) (hr : 0 < required) :
    unwrap? maxCapacity inserted wrapped = some required ↔
      wrapped ≤ 2 * maxEntries maxCapacity ∧
        if candidate maxCapacity inserted wrapped ≤ inserted + maxEntries maxCapacity then
          candidate maxCapacity inserted wrapped = required
        else candidate maxCapacity inserted wrapped = required + 2 * maxEntries maxCapacity := by
  rw [unwrap?_eq hw]
  generalize candidate maxCapacity inserted wrapped = c
  split
  · next hlt => simp [Nat.not_le.2 hlt]
  · next hle =>
    rw [and_iff_right (Nat.not_lt.1 hle)]
    split
    · split
      · next hc =>
        subst hc
        simp [hr.ne]
      · exact Option.some_inj
    · split
      · next hc =>
        refine ⟨fun h => ?_, fun h => ?_⟩
        · cases h
        · omega
      · next hc =>
        rw [Option.some_inj]
        omega

theorem unwrap?_of_mem_window (hcap : Field.overhead ≤ maxCapacity) (h : required ∈ window maxCapacity inserted) :
    unwrap? maxCapacity inserted (wrap maxCapacity required) = some required :=
  (unwrap?_wrap_iff (Nat.div_pos hcap (by decide)) h.1).2 h.2

/-- What a peer can find again is written in a way of its own. -/
theorem injOn_wrap_window (hcap : Field.overhead ≤ maxCapacity) (inserted : Nat) :
    Set.InjOn (wrap maxCapacity) (window maxCapacity inserted) := by
  intro r hr s hs heq
  have hfound := unwrap?_of_mem_window hcap hr
  rw [heq, unwrap?_of_mem_window hcap hs] at hfound
  exact (Option.some.inj hfound).symm

/-- A turn is the window of a peer that has half of it. -/
theorem Ico_subset_window {start : Nat} (hstart : 0 < start) :
    Set.Ico start (start + 2 * maxEntries maxCapacity) ⊆
      window maxCapacity (start + maxEntries maxCapacity - 1) := by
  rintro r ⟨hle, hlt⟩
  unfold window
  refine ⟨by omega, by omega, by omega⟩

theorem injOn_wrap_Ico (hcap : Field.overhead ≤ maxCapacity) {start : Nat} (hstart : 0 < start) :
    Set.InjOn (wrap maxCapacity) (Set.Ico start (start + 2 * maxEntries maxCapacity)) :=
  (injOn_wrap_window hcap _).mono (Ico_subset_window hstart)

/-- A peer finds the count again, by way of its guess, and takes no other count for it. -/
structure Recovered (maxCapacity required inserted : Nat) : Prop where
  one_le : 1 ≤ wrap maxCapacity required
  le_turn : wrap maxCapacity required ≤ 2 * maxEntries maxCapacity
  /-- A guess that the peer can expect is the count. -/
  near : candidate maxCapacity inserted (wrap maxCapacity required) ≤ inserted + maxEntries maxCapacity →
    candidate maxCapacity inserted (wrap maxCapacity required) = required
  /-- A guess that is too far ahead lies beyond the first turn, and the count is one turn before it. -/
  far : inserted + maxEntries maxCapacity < candidate maxCapacity inserted (wrap maxCapacity required) →
    2 * maxEntries maxCapacity < candidate maxCapacity inserted (wrap maxCapacity required) ∧
      candidate maxCapacity inserted (wrap maxCapacity required) - 2 * maxEntries maxCapacity = required
  found : unwrap? maxCapacity inserted (wrap maxCapacity required) = some required
  /-- The counts that the peer can be meant to have are written differently, and so are those of any turn. -/
  apart : Set.InjOn (wrap maxCapacity) (window maxCapacity inserted)
  turn : ∀ start, 0 < start →
    Set.InjOn (wrap maxCapacity) (Set.Ico start (start + 2 * maxEntries maxCapacity))

theorem recovered_of_mem_window (hcap : Field.overhead ≤ maxCapacity) (hr : 0 < required)
    (hahead : required ≤ inserted + maxEntries maxCapacity) (hbehind : inserted < required + maxEntries maxCapacity) :
    Recovered maxCapacity required inserted := by
  have hfound := unwrap?_of_mem_window hcap (show required ∈ window maxCapacity inserted from ⟨hr, hahead, hbehind⟩)
  obtain ⟨hone, hle⟩ := wrap_bounds (Nat.div_pos hcap (by decide)) hr
  obtain ⟨-, hguess⟩ := (unwrap?_eq_some_iff (Nat.ne_of_gt hone) hr).1 hfound
  refine ⟨hone, hle, fun hnear => ?_, fun hfar => ?_, hfound, injOn_wrap_window hcap inserted,
    fun start hstart => injOn_wrap_Ico hcap hstart⟩
  · rwa [if_pos hnear] at hguess
  · rw [if_neg (Nat.not_le.2 hfar)] at hguess
    omega

/-- Three entries fit. The seventh insertion is written as the second place of a turn, and a peer with nine
guesses the thirteenth first. -/
theorem recovered_seventh : wrap 100 7 = 2 ∧ candidate 100 9 2 = 13 ∧ Recovered 100 7 9 :=
  ⟨by decide, by decide, recovered_of_mem_window (by decide) (by decide) (by decide) (by decide)⟩

end Qpack.InsertCount

/-! ## Heads -/

namespace Qpack

/-- A head that was written is read again, and what follows it is left. -/
theorem WireHead.read_write {h : WireHead} (hw : h.wrapped ≤ Integer.maximum) (rest : Octets) :
    read (h.write ++ rest) = some (h, rest) := by
  have hsign : (if h.sign then 0x80 else 0x00 : UInt8).toNat % 2 ^ 7 = 0 := by
    rcases h.sign with _ | _
    · rfl
    · rfl
  have hbit : (if h.sign then 0x80 else 0x00 : UInt8).toNat.testBit 7 = h.sign := by
    rcases h.sign with _ | _
    · rfl
    · rfl
  rw [write, List.append_assoc]
  have hcount := Integer.read_write (by decide : 1 ≤ 8) (by decide) (by decide : (0x00 : UInt8).toNat % 2 ^ 8 = 0) hw
    (Integer.write 7 (if h.sign then 0x80 else 0x00) h.deltaBase ++ rest)
  have hdelta := Integer.readAny?_write (by decide : 7 ≤ 8) hsign h.deltaBase rest
  obtain ⟨b, hb, -, -, hbits⟩ := Integer.head?_write (by decide) hsign h.deltaBase rest
  rw [read, hcount]
  show (List.head? _).bind _ = _
  rw [hb, Option.bind_some, hdelta]
  show some (WireHead.mk h.wrapped (b.toNat.testBit 7) h.deltaBase, rest) = _
  rw [hbits 7 (Nat.le_refl 7), hbit]

/-- The three numbers, where both that they are made of are known. -/
theorem SectionHead.toWire_eq (h : SectionHead) (maxCapacity : Nat) :
    h.toWire maxCapacity = {
      wrapped := InsertCount.wrap maxCapacity h.requiredInsertCount
      sign := decide (h.base < h.requiredInsertCount)
      deltaBase :=
        if h.base < h.requiredInsertCount then h.requiredInsertCount - h.base - 1
        else h.base - h.requiredInsertCount } := by
  simp [toWire, deltaBase, sign]

/-- The base is found again, on either side of the required insert count. -/
theorem SectionHead.base?_toWire (h : SectionHead) (maxCapacity : Nat) :
    (h.toWire maxCapacity).base? h.requiredInsertCount = some h.base := by
  rw [WireHead.base?, toWire]
  dsimp only
  rw [deltaBase, sign]
  by_cases hlt : h.base < h.requiredInsertCount
  · rw [decide_eq_true hlt, if_pos rfl, if_pos rfl, if_pos (by omega)]
    congr 1
    omega
  · rw [decide_eq_false hlt, if_neg Bool.false_ne_true, if_neg Bool.false_ne_true]
    congr 1
    omega

end Qpack
