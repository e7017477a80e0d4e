import Qpack.Proofs.Table.Zone
import Mathlib.Order.Bounds.Basic

/-!
# No word overflows

* `drainingIndex_of_drainingIndex?` : where no word overflows, the words find what the checks find, and then words
  hold the product and signed words the capacity;
* `Fits.drainingIndex?_eq` : none overflows where words hold the product and signed words the room;
* `roomBelow` : the room of the entries below an index;
* `Fits.isLeast_drainingIndex` : the zone ends at the least index below which there is enough room;
* `Fits.drainingIndex_eq_first` : without a share to keep free, and without a capacity that waits, there is no zone.
-/

namespace Qpack

theorem word?_eq_some {n k : Nat} : word? n = some k ↔ n < 2 ^ 64 ∧ n = k := by
  rw [word?, Option.ite_none_right_eq_some, Option.some_inj, show UInt64.size = 2 ^ 64 from rfl]

theorem signedWord?_eq_some {n k : Int} : signedWord? n = some k ↔ (-2 ^ 63 ≤ n ∧ n < 2 ^ 63) ∧ n = k := by
  have hmin : Int64.minValue.toInt = -2 ^ 63 := rfl
  have hmax : Int64.maxValue.toInt = 2 ^ 63 - 1 := rfl
  rw [signedWord?, Option.ite_none_right_eq_some, Option.some_inj, hmin, hmax, Int.le_sub_one_iff]

theorem less?_eq_some {m n k : Nat} : less? m n = some k ↔ n ≤ m ∧ m - n = k := by
  rw [less?, Option.ite_none_right_eq_some, Option.some_inj]

theorem signedWord?_eq {n : Int} (hle : -2 ^ 63 ≤ n) (hlt : n < 2 ^ 63) : signedWord? n = some n :=
  signedWord?_eq_some.2 ⟨⟨hle, hlt⟩, rfl⟩

namespace DynamicTable
variable {t : DynamicTable} {i : Nat}

/-! ## The checks and the words -/

theorem drainingCount_of_drainingCount? {threshold room : Int} {l : List Entry} {n : Nat}
    (h : drainingCount? threshold room l = some n) : drainingCount threshold room l = n := by
  induction l generalizing room n with
  | nil => exact Option.some.inj h
  | cons x l ih =>
    unfold drainingCount? at h
    unfold drainingCount
    split at h
    · next hfree =>
      rw [if_pos hfree]
      exact Option.some.inj h
    · next hshort =>
      simp only [Option.bind_eq_bind, Option.bind_eq_some_iff, Option.pure_def, Option.some.injEq,
        signedWord?_eq_some] at h
      obtain ⟨size, ⟨-, rfl⟩, more, ⟨⟨hle, hlt⟩, rfl⟩, count, hcount, rfl⟩ := h
      rw [if_neg hshort, signed_eq hle hlt, ih hcount]

/-- The words find what the checks find. -/
theorem drainingIndex_of_drainingIndex? (h : t.drainingIndex? = some i) :
    t.drainingIndex = i ∧ t.target * t.drainingPercent < 2 ^ 64 ∧ t.target < 2 ^ 63 := by
  unfold drainingIndex? at h
  simp only [Option.bind_eq_bind, Option.bind_eq_some_iff, Option.pure_def, Option.some.injEq, word?_eq_some,
    signedWord?_eq_some, less?_eq_some] at h
  obtain ⟨product, ⟨hproduct, rfl⟩, threshold, ⟨-, rfl⟩, target, ⟨⟨-, htarget⟩, rfl⟩, used, ⟨-, rfl⟩,
    room, ⟨⟨hle, hlt⟩, rfl⟩, first, ⟨-, rfl⟩, count, hcount, rfl⟩ := h
  refine ⟨?_, hproduct, by omega⟩
  have hmod : t.target * t.drainingPercent % UInt64.size = t.target * t.drainingPercent :=
    Nat.mod_eq_of_lt hproduct
  have hcount' := drainingCount_of_drainingCount? hcount
  unfold drainingIndex DynamicTable.threshold free DynamicTable.first
  rw [hmod, signed_eq hle hlt, hcount']

theorem drainingCount?_eq {l : List Entry} {target : Nat} (hl : roomOf l < 2 ^ 63) (htarget : target < 2 ^ 63)
    (threshold : Nat) : ∃ n, drainingCount? threshold (target - roomOf l) l = some n := by
  induction l with
  | nil => exact ⟨0, rfl⟩
  | cons x l ih =>
    have hcons := roomOf_cons x l
    obtain ⟨n, hn⟩ := ih (by omega)
    unfold drainingCount?
    split
    · exact ⟨0, rfl⟩
    · -- with the room of the entry, there is at most the target
      have hmore : (target - roomOf (x :: l) : Int) + x.size = target - roomOf l := by omega
      have hsize : signedWord? x.size = some x.size := signedWord?_eq (by omega) (by omega)
      have hroom : signedWord? (target - roomOf l) = some (target - roomOf l : Int) :=
        signedWord?_eq (by omega) (by omega)
      refine ⟨n + 1, ?_⟩
      simp only [hsize, hmore, hroom, hn, Option.bind_eq_bind, Option.bind_some, Option.pure_def]

theorem Fits.drainingIndex?_eq (h : t.Fits) : t.drainingIndex? = some t.drainingIndex := by
  have hshare := reserve_le_target h.percent_le
  have hcapacity := h.target_lt
  have hentries := h.used_lt
  have hentries' : roomOf t.entries < 2 ^ 63 := by rwa [← h.valid.used_eq]
  unfold reserve at hshare
  obtain ⟨count, hcount⟩ := drainingCount?_eq hentries' hcapacity (t.target * t.drainingPercent / 100)
  rw [← h.valid.used_eq] at hcount
  have hproduct : word? (t.target * t.drainingPercent) = some (t.target * t.drainingPercent) :=
    word?_eq_some.2 ⟨h.product_lt, rfl⟩
  have hthreshold : signedWord? (t.target * t.drainingPercent / 100 : Nat) =
    some ((t.target * t.drainingPercent / 100 : Nat) : Int) := signedWord?_eq (by omega) (by omega)
  have htarget : signedWord? t.target = some (t.target : Int) := signedWord?_eq (by omega) (by omega)
  have hused : signedWord? t.used = some (t.used : Int) := signedWord?_eq (by omega) (by omega)
  have hroom : signedWord? (t.target - t.used) = some (t.target - t.used : Int) :=
    signedWord?_eq (by omega) (by omega)
  have hfirst : less? t.inserted t.entries.length = some t.first := less?_eq_some.2 ⟨h.valid.length_le, rfl⟩
  have hsome : t.drainingIndex? = some (t.first + count) := by
    unfold drainingIndex?
    simp only [Option.bind_eq_bind, Option.pure_def]
    rw [hproduct, Option.bind_some, hthreshold, Option.bind_some, htarget, Option.bind_some, hused,
      Option.bind_some, hroom, Option.bind_some, hfirst, Option.bind_some, hcount, Option.bind_some]
  rw [hsome, (drainingIndex_of_drainingIndex? hsome).1]

/-! ## The exact zone -/

/-- The room that the entries take below an index. -/
def roomBelow (t : DynamicTable) (i : Nat) : Nat := roomOf (t.entries.filter fun x => decide (x.index < i))

theorem roomBelow_add_roomFrom (t : DynamicTable) (i : Nat) :
    t.roomBelow i + t.roomFrom i = roomOf t.entries := by
  unfold roomBelow roomFrom
  induction t.entries with
  | nil => rfl
  | cons x l ih =>
    rw [roomOf_cons, ← ih]
    by_cases hx : x.index < i
    · rw [List.filter_cons_of_pos (by simpa using hx), List.filter_cons_of_neg (by simpa using hx), roomOf_cons,
        Nat.add_assoc]
    · rw [List.filter_cons_of_neg (by simpa using hx), List.filter_cons_of_pos (by simpa using hx), roomOf_cons]
      omega

/-- What the zone leaves is at most what there is. -/
theorem Fits.drainingIndex_le (h : t.Fits) : t.drainingIndex ≤ t.inserted := by
  have hfirst : t.first ≤ t.inserted := Nat.sub_le _ _
  have hlen := h.valid.length_le
  rw [h.drainingIndex_le_iff, h.valid.roomFrom_eq hfirst, List.drop_eq_nil_of_le (by unfold first; omega)]
  exact ⟨hfirst, (Nat.zero_add _).trans_le (reserve_le_target h.percent_le)⟩

theorem Fits.isLeast_drainingIndex (h : t.Fits) :
    IsLeast {i | t.first ≤ i ∧ i ≤ t.inserted ∧
      ((t.target * t.drainingPercent / 100 : Nat) : Int) ≤ t.target - t.used + t.roomBelow i} t.drainingIndex := by
  have hiff : ∀ i, t.roomFrom i + t.reserve ≤ t.target ↔
      ((t.target * t.drainingPercent / 100 : Nat) : Int) ≤ t.target - t.used + t.roomBelow i := by
    intro i
    have hused := h.valid.used_eq
    have hsplit := t.roomBelow_add_roomFrom i
    show t.roomFrom i + t.reserve ≤ t.target ↔ (t.reserve : Int) ≤ _
    omega
  constructor
  · obtain ⟨hfirst, hroom⟩ := h.drainingIndex_le_iff.1 (Nat.le_refl _)
    exact ⟨hfirst, h.drainingIndex_le, (hiff _).1 hroom⟩
  · rintro i ⟨hfirst, -, hroom⟩
    exact h.drainingIndex_le_iff.2 ⟨hfirst, (hiff i).2 hroom⟩

theorem Fits.drainingIndex_eq_first (h : t.Fits) (hpercent : t.drainingPercent = 0) (hpending : t.pending = none) :
    t.drainingIndex = t.first := by
  have hused := h.valid.used_le
  have htarget : t.target = t.capacity := by rw [target, hpending, Option.getD_none]
  have hreserve : t.reserve = 0 := by rw [reserve, hpercent, Nat.mul_zero, Nat.zero_div]
  apply drainingIndex_of_threshold_le
  rw [h.threshold_eq, h.free_eq, hreserve, htarget]
  omega

end DynamicTable
end Qpack
