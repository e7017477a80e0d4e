import Qpack.Proofs.Table.Operation
import Mathlib.Algebra.Ring.Int.Defs
import Mathlib.Order.Nat

/-!
# Draining in between

Draining, then giving references up, then draining again leaves the table that draining leaves once they
are given up. Nothing that leaves early is missed later, since the zone stays where it is.

* `release_release`, `foldl_release_comm` : references can be given up in any order;
* `drainingIndex_foldl_release`, `drainingIndex_evictOldest?` : giving references up does not move the zone,
  and no entry that leaves from it does;
* `clear`, `adopted?`, `adopt` : the draining entries leave, then a capacity that waits takes effect if it
  can;
* `Measured t` : the room of the table can be counted in signed words;
* `drain_eq` : draining is no more than that;
* `drain_foldl_release_drain`, `drain_comm` : draining in between changes nothing.
-/

namespace Qpack

theorem signed_eq {n : Int} (hle : -2 ^ 63 ≤ n) (hlt : n < 2 ^ 63) : signed n = n := by
  unfold signed
  apply Int.bmod_eq_of_le
  · show -(18446744073709551616 / 2 : Int) ≤ _
    omega
  · show _ < ((18446744073709551616 + 1) / 2 : Int)
    omega

/-- What lies below the signed words comes back from above. -/
theorem signed_of_lt {n : Int} (hle : -3 * 2 ^ 63 ≤ n) (hlt : n < -2 ^ 63) : signed n = n + 2 ^ 64 := by
  have hsize : ((UInt64.size : Nat) : Int) = 2 ^ 64 := rfl
  have hwrap : signed (n + (UInt64.size : Nat)) = signed n := Int.add_bmod_right n UInt64.size
  rw [← hwrap, hsize, signed_eq (by omega) (by omega)]

namespace DynamicTable
variable {t u : DynamicTable} {c : Nat}

/-! ## References given up in another order -/

theorem first_modify (t : DynamicTable) (i : Nat) (change : Entry → Entry) : (t.modify i change).first = t.first := by
  unfold modify
  split
  · rfl
  · unfold first
    rw [List.length_modify]

theorem first_release (t : DynamicTable) (i : Nat) : (t.release i).first = t.first := t.first_modify i _

theorem first_foldl_release (t : DynamicTable) (refs : List Nat) : (refs.foldl release t).first = t.first := by
  induction refs generalizing t with
  | nil => rfl
  | cons i refs ih => exact (ih (t.release i)).trans (t.first_release i)

theorem release_of_lt {i : Nat} (hi : i < t.first) : t.release i = t := if_pos hi

theorem release_of_le {i : Nat} (hi : t.first ≤ i) :
    t.release i = { t with
      entries := t.entries.modify (i - t.first) fun x => { x with references := x.references - 1 } } :=
  if_neg (Nat.not_lt.2 hi)

theorem release_release (t : DynamicTable) (i j : Nat) : (t.release i).release j = (t.release j).release i := by
  rcases Nat.lt_or_ge i t.first with hi | hi
  · rw [release_of_lt hi, release_of_lt (t := t.release j) (by rwa [first_release])]
  · rcases Nat.lt_or_ge j t.first with hj | hj
    · rw [release_of_lt hj, release_of_lt (t := t.release i) (by rwa [first_release])]
    · by_cases hij : i = j
      · rw [hij]
      · rw [release_of_le (t := t.release i) (by rwa [first_release]),
          release_of_le (t := t.release j) (by rwa [first_release]), first_release, first_release,
          release_of_le hi, release_of_le hj]
        dsimp only
        rw [List.modify_modify_ne _ _ _ (by omega)]

theorem refer_first (t : DynamicTable) : t.refer t.first = { t with
    entries := t.entries.modify 0 fun x => { x with references := x.references + 1 } } := by
  unfold refer modify
  rw [if_neg (Nat.lt_irrefl _), Nat.sub_self]

/-- A reference that is given up again leaves nothing behind. -/
theorem release_refer (t : DynamicTable) (i : Nat) : (t.refer i).release i = t := by
  have hfirst : (t.refer i).first = t.first := t.first_modify i _
  rcases Nat.lt_or_ge i t.first with hi | hi
  · have hrefer : t.refer i = t := if_pos hi
    rw [hrefer, release_of_lt hi]
  · have hrefer : t.refer i = { t with
        entries := t.entries.modify (i - t.first) fun x => { x with references := x.references + 1 } } :=
      if_neg (Nat.not_lt.2 hi)
    rw [release_of_le (hfirst ▸ hi), hfirst, hrefer]
    dsimp only
    rw [List.modify_modify_eq]
    exact congrArg (fun l => { t with entries := l }) (List.modify_id _ _)

theorem Valid.release?_refer (h : t.Valid) {i : Nat} (hc : t.contains i = true) :
    (t.refer i).release? i = some t := by
  obtain ⟨x, hx, rfl⟩ := h.contains_iff.1 hc
  have hentry : DynamicTable.entry? (t.refer x.index) x.index = some { x with references := x.references + 1 } := by
    rw [(h.refer x.index).entry?_eq_some_iff]
    refine ⟨?_, rfl⟩
    unfold DynamicTable.refer
    rw [h.modify_eq]
    exact List.mem_map.2 ⟨x, hx, if_pos rfl⟩
  unfold release?
  rw [hentry]
  dsimp only
  rw [if_pos (Nat.succ_pos _), release_refer]

theorem foldl_release_comm (t : DynamicTable) (refs more : List Nat) :
    more.foldl release (refs.foldl release t) = refs.foldl release (more.foldl release t) := by
  rw [← List.foldl_append, ← List.foldl_append]
  apply List.perm_append_comm.foldl_eq'
  intro i _ j _ u
  exact release_release u i j

/-! ## The zone -/

theorem drainingCount_map {change : Entry → Entry} (hf : ∀ x, (change x).field = x.field) (threshold room : Int)
    (l : List Entry) : drainingCount threshold room (l.map change) = drainingCount threshold room l := by
  induction l generalizing room with
  | nil => rfl
  | cons x l ih =>
    have hsize : (change x).size = x.size := by rw [Entry.size, Entry.size, hf]
    rw [List.map_cons, drainingCount, drainingCount, hsize, ih]

/-- Changing counts does not move the zone. -/
theorem Valid.drainingIndex_modify (h : t.Valid) (change : Entry → Entry) (hf : ∀ x, (change x).field = x.field)
    (i : Nat) : (t.modify i change).drainingIndex = t.drainingIndex := by
  rw [h.modify_eq]
  unfold drainingIndex first
  dsimp only
  rw [List.length_map, drainingCount_map]
  · rfl
  · intro x
    split
    exacts [hf x, rfl]

theorem Valid.drainingIndex_release (h : t.Valid) (i : Nat) : (t.release i).drainingIndex = t.drainingIndex :=
  h.drainingIndex_modify (fun x => { x with references := x.references - 1 }) (fun _ => rfl) i

theorem Valid.drainingIndex_foldl_release (h : t.Valid) (refs : List Nat) :
    (refs.foldl DynamicTable.release t).drainingIndex = t.drainingIndex := by
  induction refs generalizing t with
  | nil => rfl
  | cons i refs ih => exact (ih (h.release i)).trans (h.drainingIndex_release i)

theorem exists_of_evictOldest? (hu : t.evictOldest? = some u) :
    ∃ x rest, t.entries = x :: rest ∧ x.references = 0 ∧
      u = { t with
        entries := rest
        used := t.used - x.size
        byField := t.byField.forget x.field x.index
        byName := t.byName.forget x.field.name x.index } := by
  unfold evictOldest? at hu
  rcases ht : t.entries with _ | ⟨x, rest⟩
  · simp [ht] at hu
  · simp only [ht] at hu
    split at hu
    · next hx => exact ⟨x, rest, rfl, hx, (Option.some.inj hu).symm⟩
    · cases hu

/-- An entry that leaves from the zone leaves the end of the zone where it is. -/
theorem Valid.drainingIndex_evictOldest? (h : t.Valid) (hfirst : t.first < t.drainingIndex)
    (hu : t.evictOldest? = some u) : u.drainingIndex = t.drainingIndex := by
  obtain ⟨x, rest, ht, -, rfl⟩ := exists_of_evictOldest? hu
  have hlen := h.length_le
  have hused := h.used_eq
  rw [ht, List.length_cons] at hlen
  rw [ht, roomOf_cons] at hused
  have hroom : signed (t.target - (t.used - x.size : Nat)) = signed (t.free + x.size) := by
    have hsub : (t.target : Int) - (t.used - x.size : Nat) = (t.target - t.used) + x.size := by omega
    unfold free signed
    rw [hsub, Int.bmod_add_bmod]
  unfold drainingIndex at hfirst ⊢
  rw [ht, drainingCount] at hfirst ⊢
  split at hfirst
  · omega
  · next hlt =>
    rw [if_neg hlt, ← hroom]
    unfold first
    rw [ht, List.length_cons]
    show t.inserted - rest.length +
      drainingCount t.threshold (signed (t.target - (t.used - x.size : Nat))) rest = _
    omega

/-! ## The zone is cleared -/

/-- The table after the draining entries have left that may leave. -/
def clear (t : DynamicTable) : DynamicTable := t.evictWhile fun u => decide (u.first < t.drainingIndex)

theorem sheds_clear (t : DynamicTable) : Sheds t t.clear := sheds_evictWhile _ t

theorem Valid.drainingIndex_evictWhile (h : t.Valid) :
    (t.evictWhile fun u => decide (u.first < t.drainingIndex)).drainingIndex = t.drainingIndex := by
  generalize hlimit : t.drainingIndex = limit
  fun_induction evictWhile (fun u => decide (u.first < limit)) t with
  | case1 t hmore u hu ih =>
    have hfirst : t.first < t.drainingIndex := hlimit ▸ of_decide_eq_true hmore
    exact ih ((sheds_of_evictOldest? hu).valid h) ((h.drainingIndex_evictOldest? hfirst hu).trans hlimit)
  | case2 t => exact hlimit
  | case3 t => exact hlimit

theorem Valid.drainingIndex_clear (h : t.Valid) : t.clear.drainingIndex = t.drainingIndex :=
  h.drainingIndex_evictWhile

/-- The oldest entry can leave as well once references are given up, and leaves the same. -/
theorem Valid.evictOldest?_release (h : t.Valid) (hu : t.evictOldest? = some u) (i : Nat) :
    (t.release i).evictOldest? = some (u.release i) := by
  have hv := (sheds_of_evictOldest? hu).valid h
  obtain ⟨x, rest, ht, hx, rfl⟩ := exists_of_evictOldest? hu
  unfold DynamicTable.release
  rw [h.modify_eq, hv.modify_eq, ht, List.map_cons]
  have hfree : (if x.index = i then { x with references := x.references - 1 } else x) = x := by
    split
    · rw [hx, Nat.zero_sub, ← hx]
    · rfl
  rw [hfree]
  exact if_pos hx

theorem Valid.evictOldest?_foldl_release (h : t.Valid) (hu : t.evictOldest? = some u) (refs : List Nat) :
    (refs.foldl DynamicTable.release t).evictOldest? = some (refs.foldl DynamicTable.release u) := by
  induction refs generalizing t u with
  | nil => exact hu
  | cons i refs ih => exact ih (h.release i) (h.evictOldest?_release hu i)

/-- Entries that leave before references are given up would leave afterwards. -/
theorem Valid.evictWhile_foldl_release_evictWhile (h : t.Valid) (refs : List Nat) (limit : Nat) :
    (refs.foldl DynamicTable.release (t.evictWhile fun u => decide (u.first < limit))).evictWhile
        (fun u => decide (u.first < limit)) =
      (refs.foldl DynamicTable.release t).evictWhile fun u => decide (u.first < limit) := by
  fun_induction evictWhile (fun u => decide (u.first < limit)) t with
  | case1 t hmore u hu ih =>
    have hmore' : decide ((refs.foldl DynamicTable.release t).first < limit) = true := by rwa [first_foldl_release]
    have hu' := h.evictOldest?_foldl_release hu refs
    rw [ih ((sheds_of_evictOldest? hu).valid h),
      evictWhile_of_evictOldest? (t := refs.foldl DynamicTable.release t) hmore' hu']
  | case2 t => rfl
  | case3 t => rfl

theorem Valid.clear_foldl_release_clear (h : t.Valid) (refs : List Nat) :
    (refs.foldl DynamicTable.release t.clear).clear = (refs.foldl DynamicTable.release t).clear := by
  have hlimit := (((sheds_clear t).valid h).drainingIndex_foldl_release refs).trans h.drainingIndex_clear
  have hlimit' := h.drainingIndex_foldl_release refs
  unfold clear at hlimit ⊢
  rw [hlimit, hlimit']
  exact h.evictWhile_foldl_release_evictWhile refs t.drainingIndex

/-! ## A capacity takes effect -/

/-- The capacity that waits, if the entries fit it. -/
def adopted? (t : DynamicTable) : Option Nat := t.pending.filter fun c => decide (t.used ≤ c)

def withCapacity (t : DynamicTable) (c : Nat) : DynamicTable := { t with capacity := c, pending := none }

/-- A capacity that waits takes effect if the entries fit it. -/
def adopt (t : DynamicTable) : DynamicTable :=
  match t.adopted? with
  | none => t
  | some c => t.withCapacity c

theorem adopt_of_none (h : t.adopted? = none) : t.adopt = t := by
  unfold adopt
  rw [h]

theorem adopt_of_some (h : t.adopted? = some c) : t.adopt = t.withCapacity c := by
  unfold adopt
  rw [h]

theorem adopted?_eq_some_iff : t.adopted? = some c ↔ t.pending = some c ∧ t.used ≤ c := by
  unfold adopted?
  rw [Option.filter_eq_some_iff, decide_eq_true_eq]

theorem adopted?_withCapacity (t : DynamicTable) (c : Nat) : (t.withCapacity c).adopted? = none := rfl

/-- Where the entries fit or the oldest of them has to stay, there is no more to be tried. -/
theorem applyPending_eq (h : t.used ≤ t.target ∨ t.evictOldest? = none) : t.applyPending = t.adopt := by
  unfold applyPending
  rcases hp : t.pending with _ | c
  · exact (adopt_of_none (by rw [adopted?, hp]; rfl)).symm
  · have htarget : t.target = c := by rw [target, hp, Option.getD_some]
    have hself : t.evictWhile (fun u => decide (c < u.used)) = t := by
      rcases h with hfits | hend
      · rw [htarget] at hfits
        exact evictWhile_of_not (decide_eq_false (Nat.not_lt.2 hfits))
      · exact evictWhile_eq_self hend _
    dsimp only
    rw [hself]
    split
    · next hlt =>
      refine (adopt_of_none (Option.eq_none_iff_forall_ne_some.2 fun c' hc' => ?_)).symm
      obtain ⟨hp', hle⟩ := adopted?_eq_some_iff.1 hc'
      obtain rfl := Option.some.inj (hp.symm.trans hp')
      exact Nat.not_lt.2 hle hlt
    · next hle => exact (adopt_of_some (adopted?_eq_some_iff.2 ⟨hp, Nat.not_lt.1 hle⟩)).symm

theorem evictOldest?_withCapacity (t : DynamicTable) (c : Nat) :
    (t.withCapacity c).evictOldest? = t.evictOldest?.map fun u => u.withCapacity c := by
  unfold evictOldest? withCapacity
  rcases t.entries with _ | ⟨x, rest⟩
  · rfl
  · dsimp only
    split <;> rfl

theorem evictWhile_withCapacity (t : DynamicTable) (c limit : Nat) :
    (t.withCapacity c).evictWhile (fun u => decide (u.first < limit)) =
      (t.evictWhile fun u => decide (u.first < limit)).withCapacity c := by
  fun_induction evictWhile (fun u => decide (u.first < limit)) t with
  | case1 t hmore u hu ih =>
    have hu' : (t.withCapacity c).evictOldest? = some (u.withCapacity c) := by
      rw [evictOldest?_withCapacity, hu, Option.map_some]
    rw [evictWhile_of_evictOldest? (t := t.withCapacity c) hmore hu', ih]
  | case2 t hmore hnone =>
    have hnone' : (t.withCapacity c).evictOldest? = none := by
      rw [evictOldest?_withCapacity, hnone, Option.map_none]
    exact evictWhile_eq_self hnone' _
  | case3 t hmore => exact evictWhile_of_not (t := t.withCapacity c) (Bool.eq_false_iff.2 hmore)

/-- A capacity that waits was the one to keep already, so the zone stays. -/
theorem drainingIndex_withCapacity (hp : t.pending = some c) :
    (t.withCapacity c).drainingIndex = t.drainingIndex := by
  unfold drainingIndex threshold free target
  rw [hp]
  rfl

theorem clear_withCapacity (hp : t.pending = some c) : (t.withCapacity c).clear = t.clear.withCapacity c := by
  unfold clear
  rw [drainingIndex_withCapacity hp]
  exact t.evictWhile_withCapacity c _

theorem release_withCapacity (t : DynamicTable) (c i : Nat) :
    (t.withCapacity c).release i = (t.release i).withCapacity c := by
  unfold release modify
  split
  · next hi => exact (if_pos hi).symm ▸ rfl
  · next hi => exact (if_neg hi).symm ▸ rfl

theorem foldl_release_withCapacity (t : DynamicTable) (c : Nat) (refs : List Nat) :
    refs.foldl release (t.withCapacity c) = (refs.foldl release t).withCapacity c := by
  induction refs generalizing t with
  | nil => rfl
  | cons i refs ih => rw [List.foldl_cons, release_withCapacity, ih, List.foldl_cons]

/-! ## Draining -/

/-- A valid table whose room can be counted in signed words. -/
structure Measured (t : DynamicTable) : Prop where
  valid : t.Valid
  shrinks : t.Shrinks
  capacity_lt : t.capacity < 2 ^ 63

theorem Measured.sheds (h : t.Measured) (hu : Sheds t u) : u.Measured := by
  refine ⟨hu.valid h.valid, fun c hc => ?_, hu.capacity.trans_lt h.capacity_lt⟩
  rw [hu.capacity]
  exact h.shrinks c (hu.pending ▸ hc)

theorem Measured.foldl_release (h : t.Measured) (refs : List Nat) :
    (refs.foldl DynamicTable.release t).Measured := by
  have hm := sameMeasures_foldl_release t refs
  exact ⟨(h.valid.foldl_release refs).1, hm.shrinks h.shrinks, hm.capacity.trans_lt h.capacity_lt⟩

theorem Measured.drain (h : t.Measured) : t.drain.1.Measured := by
  obtain ⟨hv, hs⟩ := h.valid.drain
  refine ⟨hv, hs, ?_⟩
  obtain ⟨u, hu, ⟨-, he⟩ | ⟨c, hp, -, he⟩⟩ := t.drain_cases
  · rw [he]
    exact hu.capacity.trans_lt h.capacity_lt
  · rw [he]
    exact (h.shrinks c hp).trans h.capacity_lt

/-- Once the zone is cleared, the entries fit the capacity to keep, or the oldest of them is in use. -/
theorem Measured.fits_clear (h : t.Measured) :
    t.clear.used ≤ t.clear.target ∨ t.clear.evictOldest? = none := by
  have hu := h.sheds (sheds_clear t)
  rcases evictWhile_stops (fun u => decide (u.first < t.drainingIndex)) t with hstop | hend
  · left
    have hfirst : ¬ t.clear.first < t.clear.drainingIndex := by
      rw [h.valid.drainingIndex_clear]
      exact of_decide_eq_false hstop
    have hused := hu.valid.used_eq
    have hle := hu.valid.used_le
    have htarget := hu.shrinks.target_le
    have hsmall := hu.capacity_lt
    unfold drainingIndex at hfirst
    rcases he : t.clear.entries with _ | ⟨x, rest⟩
    · rw [hused, he]
      exact Nat.zero_le _
    · rw [he, drainingCount] at hfirst
      split at hfirst
      · next hroom =>
        have hpos : 0 ≤ t.clear.threshold := Int.natCast_nonneg _
        have hfree : t.clear.free = t.clear.target - t.clear.used := signed_eq (by omega) (by omega)
        omega
      · omega
  · exact Or.inr hend

/-- Where the cleared table fits, or its oldest entry has to stay, draining is to clear the zone and to adopt
what fits. -/
theorem drain_eq_of_fits (h : t.clear.used ≤ t.clear.target ∨ t.clear.evictOldest? = none) :
    t.drain = (t.clear.adopt, t.clear.adopted?) := by
  have happly := applyPending_eq h
  unfold drain
  show (t.clear.applyPending,
    if (t.clear.pending.isSome && t.clear.applyPending.pending.isNone) = true then
      some t.clear.applyPending.capacity else none) = _
  rw [happly]
  rcases hc : t.clear.adopted? with _ | c
  · rw [adopt_of_none hc]
    rcases t.clear.pending with _ | c <;> rfl
  · rw [adopt_of_some hc, (adopted?_eq_some_iff.1 hc).1]
    rfl

theorem Measured.drain_eq (h : t.Measured) : t.drain = (t.clear.adopt, t.clear.adopted?) :=
  drain_eq_of_fits h.fits_clear

theorem Sheds.used_le (hu : Sheds t u) (ht : t.Valid) : u.used ≤ t.used := by
  obtain ⟨gone, he, -⟩ := hu.entries
  rw [ht.used_eq, (hu.valid ht).used_eq, he, roomOf_append]
  exact Nat.le_add_left _ _

/-- Draining before references are given up makes no difference to draining afterwards. A capacity that
takes effect does so once, earlier or later. -/
theorem Measured.drain_foldl_release_drain (h : t.Measured) (refs : List Nat) :
    (refs.foldl DynamicTable.release t.drain.1).drain.1 = (refs.foldl DynamicTable.release t).drain.1 ∧
      t.drain.2.toList ++ (refs.foldl DynamicTable.release t.drain.1).drain.2.toList =
        (refs.foldl DynamicTable.release t).drain.2.toList := by
  have hclear := h.valid.clear_foldl_release_clear refs
  have hm := sameMeasures_foldl_release t.clear refs
  rw [(h.drain.foldl_release refs).drain_eq, (h.foldl_release refs).drain_eq, h.drain_eq]
  rcases hc : t.clear.adopted? with _ | c
  · rw [adopt_of_none hc, hclear]
    exact ⟨rfl, rfl⟩
  · obtain ⟨hp, hle⟩ := adopted?_eq_some_iff.1 hc
    have hp' : (refs.foldl DynamicTable.release t.clear).pending = some c := hm.pending.trans hp
    have hwaits : (refs.foldl DynamicTable.release t).clear.adopted? = some c := by
      have hs := sheds_clear (refs.foldl DynamicTable.release t.clear)
      have hv := ((h.sheds (sheds_clear t)).foldl_release refs).valid
      rw [← hclear, adopted?_eq_some_iff]
      refine ⟨hs.pending.trans hp', (hs.used_le hv).trans ?_⟩
      rwa [hm.used]
    rw [adopt_of_some hc, foldl_release_withCapacity, clear_withCapacity hp', hclear, adopted?_withCapacity,
      adopt_of_none (adopted?_withCapacity _ c), hwaits, adopt_of_some hwaits]
    exact ⟨rfl, rfl⟩

/-- Two lists of references can be given up in either order, with draining after each. -/
theorem Measured.drain_comm (h : t.Measured) (refs more : List Nat) :
    (more.foldl DynamicTable.release (refs.foldl DynamicTable.release t).drain.1).drain.1 =
        (refs.foldl DynamicTable.release (more.foldl DynamicTable.release t).drain.1).drain.1 ∧
      (refs.foldl DynamicTable.release t).drain.2.toList ++
          (more.foldl DynamicTable.release (refs.foldl DynamicTable.release t).drain.1).drain.2.toList =
        (more.foldl DynamicTable.release t).drain.2.toList ++
          (refs.foldl DynamicTable.release (more.foldl DynamicTable.release t).drain.1).drain.2.toList := by
  obtain ⟨htable, hout⟩ := (h.foldl_release refs).drain_foldl_release_drain more
  obtain ⟨htable', hout'⟩ := (h.foldl_release more).drain_foldl_release_drain refs
  rw [htable, htable', hout, hout', foldl_release_comm]
  exact ⟨rfl, rfl⟩

end DynamicTable
end Qpack
