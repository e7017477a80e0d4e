import Qpack.Proofs.Table.Draining
import Mathlib.Data.List.TakeWhile

/-!
# The zone in exact numbers

As long as words hold what is counted, the zone is where the definition of room says.

* `reserve`, `roomFrom` : the room to keep free, the room of the entries from an index on;
* `Fits t`, `Exact t` : no count of room overflows, nor with any lower capacity;
* `Fits.drainingIndex_le_iff` : the zone ends at the first index from which on the entries leave the reserve
  free;
* `Exact.drainingIndex_mono` : and so it does not move back when entries come or go, or the capacity sinks;
* `Valid.entries_clear`, `Exact.clear_cases` : what leaves the zone, and what that achieves;
* `DrainsZone`, `Reachable.drainsZone` : what draining does to any table whose room a signed word counts;
* `Valid.run_wait` : a capacity can wait though nothing is in use;
* `overfull_cases`, `not_drainsZone` : so draining takes entries that are not in the zone, where a signed word is
  too small for their room.
-/

namespace Qpack

theorem roomOf_drop_le (l : List Entry) (k : Nat) : roomOf (l.drop k) ≤ roomOf l := by
  rw [← List.take_append_drop k l, roomOf_append, List.take_append_drop]
  exact Nat.le_add_left _ _

namespace DynamicTable
variable {t u : DynamicTable} {f : Field} {c i : Nat}

/-! ## The share to keep free -/

theorem drainingPercent_evictWhile (more : DynamicTable → Bool) (t : DynamicTable) :
    (t.evictWhile more).drainingPercent = t.drainingPercent := by
  fun_induction evictWhile more t with
  | case1 t _ u hu ih =>
    obtain ⟨x, rest, he, hx, rfl⟩ := exists_of_evictOldest? hu
    exact ih
  | case2 t => rfl
  | case3 t => rfl

theorem drainingPercent_applyPending (t : DynamicTable) :
    t.applyPending.drainingPercent = t.drainingPercent := by
  unfold applyPending
  split
  · rfl
  · dsimp only
    split
    · exact drainingPercent_evictWhile _ t
    · exact drainingPercent_evictWhile _ t

theorem drainingPercent_modify (t : DynamicTable) (i : Nat) (change : Entry → Entry) :
    (t.modify i change).drainingPercent = t.drainingPercent := by
  unfold modify
  split <;> rfl

theorem drainingPercent_perform (t : DynamicTable) (op : TableOperation) :
    (t.perform op).drainingPercent = t.drainingPercent := by
  cases op with
  | requestCapacity c => exact drainingPercent_applyPending _
  | add f => exact drainingPercent_evictWhile _ t
  | drain => exact (drainingPercent_applyPending _).trans (drainingPercent_evictWhile _ t)
  | refer i => exact drainingPercent_modify t i _
  | release i => exact drainingPercent_modify t i _

theorem Reachable.drainingPercent_le (h : t.Reachable) : t.drainingPercent ≤ 100 := by
  induction h with
  | empty percent => exact Nat.min_le_right _ _
  | perform _ _ ih => rwa [drainingPercent_perform]

/-! ## Room -/

/-- The room to keep free. -/
def reserve (t : DynamicTable) : Nat := t.target * t.drainingPercent / 100

/-- The room that the entries take from an index on. -/
def roomFrom (t : DynamicTable) (i : Nat) : Nat := roomOf (t.entries.filter fun x => decide (i ≤ x.index))

/-- A valid table whose zone is found without loss: words hold the product that the reserve is a share of, and
signed words the room. -/
structure Fits (t : DynamicTable) : Prop where
  valid : t.Valid
  percent_le : t.drainingPercent ≤ 100
  product_lt : t.target * t.drainingPercent < 2 ^ 64
  target_lt : t.target < 2 ^ 63
  used_lt : t.used < 2 ^ 63

/-- A valid table whose zone is found without loss, with this capacity or any lower one. -/
structure Exact (t : DynamicTable) : Prop where
  valid : t.Valid
  percent_le : t.drainingPercent ≤ 100
  target_lt : t.target < 2 ^ 56
  used_lt : t.used < 2 ^ 63

theorem reserve_le_target (h : t.drainingPercent ≤ 100) : t.reserve ≤ t.target := by
  apply Nat.div_le_of_le_mul
  rw [Nat.mul_comm 100]
  exact Nat.mul_le_mul_left _ h

/-- A lower capacity lowers the reserve by no more. -/
theorem reserve_add_le (hpercent : u.drainingPercent = t.drainingPercent) (hle : t.drainingPercent ≤ 100)
    (htarget : u.target ≤ t.target) : t.reserve + u.target ≤ u.reserve + t.target := by
  obtain ⟨d, hd⟩ := Nat.exists_eq_add_of_le htarget
  have hscaled : t.target * t.drainingPercent ≤ u.target * t.drainingPercent + d * 100 := by
    rw [hd, Nat.add_mul]
    exact Nat.add_le_add_left (Nat.mul_le_mul_left d hle) _
  have hdiv := Nat.div_le_div_right (c := 100) hscaled
  rw [Nat.add_mul_div_right _ _ (by decide)] at hdiv
  unfold reserve
  rw [hpercent]
  omega

/-- From an index on there are the entries at the end of the table. -/
theorem Valid.roomFrom_eq (h : t.Valid) (hi : t.first ≤ i) :
    t.roomFrom i = roomOf (t.entries.drop (i - t.first)) := by
  have hbelow : (t.entries.take (i - t.first)).filter (fun x => decide (i ≤ x.index)) = [] := by
    rw [List.filter_eq_nil_iff]
    intro x hx
    obtain ⟨k, hk, rfl⟩ := List.getElem_of_mem hx
    rw [List.length_take] at hk
    have hp := h.position k _ (List.getElem?_eq_getElem (by omega))
    have hfirst : t.first = t.inserted - t.entries.length := rfl
    rw [List.getElem_take, decide_eq_true_eq]
    omega
  have habove : (t.entries.drop (i - t.first)).filter (fun x => decide (i ≤ x.index)) =
      t.entries.drop (i - t.first) := by
    rw [List.filter_eq_self]
    intro x hx
    obtain ⟨k, hk, rfl⟩ := List.getElem_of_mem hx
    rw [List.length_drop] at hk
    have hp := h.position (i - t.first + k) _ (List.getElem?_eq_getElem (by omega))
    have hle := h.length_le
    have hfirst : t.first = t.inserted - t.entries.length := rfl
    rw [List.getElem_drop, decide_eq_true_eq]
    omega
  unfold roomFrom
  conv_lhs => rw [← List.take_append_drop (i - t.first) t.entries, List.filter_append, hbelow, habove]
  rfl

theorem Valid.roomFrom_first (h : t.Valid) : t.roomFrom t.first = t.used := by
  rw [h.roomFrom_eq (Nat.le_refl _), Nat.sub_self, List.drop_zero, h.used_eq]

/-- Beyond the entries that are gone there is what was there. -/
theorem Sheds.roomFrom_eq (hu : Sheds t u) (ht : t.Valid) (hi : u.first ≤ i) : u.roomFrom i = t.roomFrom i := by
  obtain ⟨gone, he, -⟩ := hu.entries
  have hgone : gone.filter (fun x => decide (i ≤ x.index)) = [] := by
    rw [List.filter_eq_nil_iff]
    intro x hx
    obtain ⟨k, hk⟩ := List.getElem?_of_mem hx
    have hlt := (List.getElem?_eq_some_iff.1 hk).1
    have hp := ht.position k x (by rw [he, List.getElem?_append_left hlt, hk])
    rw [first, hu.inserted] at hi
    rw [he, List.length_append] at hp
    rw [decide_eq_true_eq]
    omega
  unfold roomFrom
  rw [he, List.filter_append, hgone, List.nil_append]

/-! ## Where the zone ends -/

/-- The oldest `k` entries are enough to drain if and only if the others leave the reserve free. -/
theorem drainingCount_le_iff {l : List Entry} {threshold target : Nat} (hl : roomOf l < 2 ^ 63)
    (htarget : target < 2 ^ 63) (hthreshold : threshold ≤ target) (k : Nat) :
    drainingCount threshold (target - roomOf l) l ≤ k ↔ roomOf (l.drop k) + threshold ≤ target := by
  induction l generalizing k with
  | nil =>
    rw [List.drop_nil]
    simpa [drainingCount, roomOf] using hthreshold
  | cons x l ih =>
    have hcons := roomOf_cons x l
    unfold drainingCount
    split
    · next hfree =>
      have hdrop := roomOf_drop_le (x :: l) k
      have hfits : roomOf ((x :: l).drop k) + threshold ≤ target := by omega
      exact iff_of_true (Nat.zero_le k) hfits
    · next hshort =>
      -- the room is less than the reserve, and never more than the target, so the word holds it
      have hroom : signed ((target - roomOf (x :: l) : Int) + x.size) = target - roomOf l := by
        rw [signed_eq (by omega) (by omega)]
        omega
      rw [hroom]
      cases k with
      | zero =>
        rw [List.drop_zero]
        omega
      | succ k => rw [Nat.succ_le_succ_iff, List.drop_succ_cons, ih (by omega)]

theorem Fits.threshold_eq (h : t.Fits) : t.threshold = t.reserve := by
  have hproduct : t.target * t.drainingPercent % UInt64.size = t.target * t.drainingPercent :=
    Nat.mod_eq_of_lt h.product_lt
  unfold threshold reserve
  rw [hproduct]

theorem Fits.free_eq (h : t.Fits) : t.free = t.target - t.used := by
  have htarget := h.target_lt
  have hused := h.used_lt
  exact signed_eq (by omega) (by omega)

/-- The zone ends at the least index from which on the entries leave the reserve free. -/
theorem Fits.drainingIndex_le_iff (h : t.Fits) :
    t.drainingIndex ≤ i ↔ t.first ≤ i ∧ t.roomFrom i + t.reserve ≤ t.target := by
  have hused := h.valid.used_eq
  have hcount := drainingCount_le_iff (hused ▸ h.used_lt) h.target_lt (reserve_le_target h.percent_le) (i - t.first)
  unfold drainingIndex
  rw [h.threshold_eq, h.free_eq, hused]
  constructor
  · intro hle
    have hi : t.first ≤ i := Nat.le_trans (Nat.le_add_right _ _) hle
    rw [h.valid.roomFrom_eq hi, ← hcount]
    exact ⟨hi, by omega⟩
  · rintro ⟨hi, hroom⟩
    rw [h.valid.roomFrom_eq hi, ← hcount] at hroom
    omega

theorem Exact.fits (h : t.Exact) : t.Fits := by
  have hproduct : t.target * t.drainingPercent ≤ t.target * 100 := Nat.mul_le_mul_left _ h.percent_le
  have htarget := h.target_lt
  exact ⟨h.valid, h.percent_le, by omega, by omega, h.used_lt⟩

theorem Exact.drainingIndex_le_iff (h : t.Exact) :
    t.drainingIndex ≤ i ↔ t.first ≤ i ∧ t.roomFrom i + t.reserve ≤ t.target := h.fits.drainingIndex_le_iff

/-- The zone does not move back while the entries beyond it keep their room, unless the capacity rises. -/
theorem Exact.drainingIndex_mono (ht : t.Exact) (hu : u.Exact)
    (hpercent : u.drainingPercent = t.drainingPercent) (htarget : u.target ≤ t.target)
    (hfirst : t.first ≤ u.first) (hroom : ∀ i, u.first ≤ i → t.roomFrom i ≤ u.roomFrom i) :
    t.drainingIndex ≤ u.drainingIndex := by
  obtain ⟨hle, hfits⟩ := hu.drainingIndex_le_iff.1 (Nat.le_refl _)
  have hreserve := reserve_add_le hpercent ht.percent_le htarget
  have hkeeps := hroom _ hle
  exact ht.drainingIndex_le_iff.2 ⟨hfirst.trans hle, by omega⟩

/-! ## Insertions and lower capacities -/

theorem Exact.sheds (h : t.Exact) (hu : Sheds t u) (hpercent : u.drainingPercent = t.drainingPercent) :
    u.Exact :=
  ⟨hu.valid h.valid, hpercent ▸ h.percent_le, hu.target_eq ▸ h.target_lt,
    (hu.used_le h.valid).trans_lt h.used_lt⟩

theorem target_add (t : DynamicTable) (f : Field) : (t.add f).target = t.target := by
  obtain ⟨u, hu, hadd, -⟩ := t.add_cases f
  rw [hadd]
  exact hu.target_eq

theorem Exact.add (h : t.Exact) (hs : t.Shrinks) (ha : t.Allows (.add f)) : (t.add f).Exact := by
  have hused := h.valid.used_add_le ha
  have htarget := h.target_lt
  refine ⟨(h.valid.add_allowed hs ha).1, ?_, ?_, by omega⟩
  · exact (drainingPercent_perform t (.add f)).trans_le h.percent_le
  · rwa [target_add]

/-- An entry that there is room for, once others leave, does not move the zone back. -/
theorem Exact.drainingIndex_le_add (h : t.Exact) (hs : t.Shrinks) (ha : t.Allows (.add f)) :
    t.drainingIndex ≤ (t.add f).drainingIndex := by
  obtain ⟨u, hu, hadd, -⟩ := t.add_cases f
  have hfirst : (u.append f).first = u.first := by
    have hlen := (hu.valid h.valid).length_le
    unfold first
    rw [append_inserted, append_entries, List.length_append, List.length_singleton]
    omega
  refine h.drainingIndex_mono (h.add hs ha) (drainingPercent_perform t (.add f)) (t.target_add f).le ?_
    fun i hi => ?_
  · rw [hadd, hfirst]
    exact hu.first_le
  · rw [hadd] at hi ⊢
    rw [hfirst] at hi
    rw [← hu.roomFrom_eq h.valid hi, roomFrom, roomFrom, append_entries, List.filter_append, roomOf_append]
    exact Nat.le_add_right _ _

theorem target_requestCapacity (t : DynamicTable) (c : Nat) : (t.requestCapacity c).1.target = c := by
  obtain ⟨u, hu, ⟨-, he⟩ | ⟨-, he⟩⟩ := t.requestCapacity_cases c
  · rw [he]
    unfold target
    rw [hu.pending, Option.getD_some]
  · rw [he]
    rfl

/-- Asking for a capacity leaves of the entries what shedding does. -/
theorem Valid.sheds_requestCapacity (h : t.Valid) (c : Nat) : ∃ u, Sheds { t with pending := some c } u ∧
    Valid { t with pending := some c } ∧ (t.requestCapacity c).1.entries = u.entries ∧
    (t.requestCapacity c).1.inserted = u.inserted ∧ (t.requestCapacity c).1.used = u.used := by
  have hv := h.withPending (some c)
  obtain ⟨u, hu, ⟨-, he⟩ | ⟨-, he⟩⟩ := t.requestCapacity_cases c
  · rw [he]
    exact ⟨u, hu, hv, rfl, rfl, rfl⟩
  · rw [he]
    exact ⟨u, hu, hv, rfl, rfl, rfl⟩

theorem Exact.requestCapacity (h : t.Exact) (hc : c ≤ t.target) : (t.requestCapacity c).1.Exact := by
  obtain ⟨u, hu, hv, -, -, hused⟩ := h.valid.sheds_requestCapacity c
  refine ⟨(h.valid.requestCapacity c).1, ?_, ?_, ?_⟩
  · exact (drainingPercent_perform t (.requestCapacity c)).trans_le h.percent_le
  · rw [target_requestCapacity]
    exact hc.trans_lt h.target_lt
  · rw [hused]
    exact (hu.used_le hv).trans_lt h.used_lt

/-- A lower capacity does not move the zone back, whether it takes effect or waits. -/
theorem Exact.drainingIndex_le_requestCapacity (h : t.Exact) (hc : c ≤ t.target) :
    t.drainingIndex ≤ (t.requestCapacity c).1.drainingIndex := by
  obtain ⟨u, hu, hv, hentries, hinserted, -⟩ := h.valid.sheds_requestCapacity c
  have hfirst : (t.requestCapacity c).1.first = u.first := by rw [first, first, hentries, hinserted]
  refine h.drainingIndex_mono (h.requestCapacity hc) (drainingPercent_perform t (.requestCapacity c))
    ((t.target_requestCapacity c).trans_le hc) (hfirst ▸ hu.first_le) fun i hi => ?_
  have hkept := hu.roomFrom_eq hv (hfirst ▸ hi)
  unfold roomFrom at hkept ⊢
  rw [hentries, hkept]

/-! ## What leaves the zone -/

/-- The oldest entries leave up to the first that is in use or beyond the limit. -/
theorem Valid.entries_evictWhile_first (h : t.Valid) (limit : Nat) :
    (t.evictWhile fun u => decide (u.first < limit)).entries =
      t.entries.dropWhile fun x => decide (x.references = 0 ∧ x.index < limit) := by
  fun_induction evictWhile (fun u => decide (u.first < limit)) t with
  | case1 t hmore u hu ih =>
    obtain ⟨x, rest, he, hx, hu'⟩ := exists_of_evictOldest? hu
    have hrest : u.entries = rest := by rw [hu']
    have hlt : x.index < limit := h.index_head he ▸ of_decide_eq_true hmore
    rw [ih ((sheds_of_evictOldest? hu).valid h), hrest, he, List.dropWhile_cons_of_pos (by simp [hx, hlt])]
  | case2 t hmore hnone =>
    rcases he : t.entries with _ | ⟨x, rest⟩
    · rfl
    · have hpos := evictOldest?_eq_none_iff.1 hnone x rest he
      rw [List.dropWhile_cons_of_neg (by simp [Nat.ne_of_gt hpos])]
  | case3 t hmore =>
    rcases he : t.entries with _ | ⟨x, rest⟩
    · rfl
    · have hle : limit ≤ x.index := by
        rw [h.index_head he]
        simpa using hmore
      rw [List.dropWhile_cons_of_neg (by simp [Nat.not_lt.2 hle])]

theorem Valid.entries_clear (h : t.Valid) :
    t.clear.entries = t.entries.dropWhile fun x => decide (x.references = 0 ∧ x.index < t.drainingIndex) :=
  h.entries_evictWhile_first t.drainingIndex

/-- A second time, nothing more can leave. -/
theorem Valid.clear_clear (h : t.Valid) : t.clear.clear = t.clear := by
  have hlimit := h.drainingIndex_clear
  unfold clear at hlimit ⊢
  rw [hlimit]
  rcases evictWhile_stops (fun u => decide (u.first < t.drainingIndex)) t with hstop | hend
  · exact evictWhile_of_not hstop
  · exact evictWhile_eq_self hend _

theorem Exact.clear (h : t.Exact) : t.clear.Exact :=
  h.sheds (sheds_clear t) (drainingPercent_evictWhile _ t)

/-- The reserve is free in the end, or the oldest entry is in use and in the zone. -/
theorem Exact.clear_cases (h : t.Exact) : t.clear.used + t.clear.reserve ≤ t.clear.target ∨
    ∃ x rest, t.clear.entries = x :: rest ∧ 0 < x.references ∧ x.index < t.drainingIndex := by
  have hv := h.clear.valid
  by_cases hzone : t.drainingIndex ≤ t.clear.first
  · -- from the first entry on, all that is left counts
    rw [← h.valid.drainingIndex_clear, h.clear.drainingIndex_le_iff, hv.roomFrom_first] at hzone
    exact Or.inl hzone.2
  · rcases evictWhile_stops (fun u => decide (u.first < t.drainingIndex)) t with hstop | hend
    · exact absurd (Nat.not_lt.1 (of_decide_eq_false hstop)) hzone
    · rcases he : t.clear.entries with _ | ⟨x, rest⟩
      · left
        rw [hv.used_eq, he]
        exact (Nat.zero_add _).trans_le (reserve_le_target h.clear.percent_le)
      · refine Or.inr ⟨x, rest, rfl, evictOldest?_eq_none_iff.1 hend x rest he, ?_⟩
        rw [hv.index_head he]
        exact Nat.lt_of_not_le hzone

theorem Exact.clear_fits (h : t.Exact) : t.clear.used ≤ t.clear.target ∨ t.clear.evictOldest? = none := by
  rcases h.clear_cases with hfree | ⟨x, rest, he, hx, -⟩
  · exact Or.inl ((Nat.le_add_right _ _).trans hfree)
  · refine Or.inr (evictOldest?_eq_none_iff.2 fun y rest' he' => ?_)
    obtain ⟨rfl, -⟩ := List.cons.inj (he.symm.trans he')
    exact hx

theorem Exact.drain_eq (h : t.Exact) : t.drain = (t.clear.adopt, t.clear.adopted?) :=
  drain_eq_of_fits h.clear_fits

/-! ## A capacity that takes effect -/

theorem adopt_entries (t : DynamicTable) : t.adopt.entries = t.entries := by
  unfold adopt
  split <;> rfl

theorem adopt_used (t : DynamicTable) : t.adopt.used = t.used := by
  unfold adopt
  split <;> rfl

theorem adopt_target (t : DynamicTable) : t.adopt.target = t.target := by
  rcases hc : t.adopted? with _ | c
  · rw [adopt_of_none hc]
  · rw [adopt_of_some hc, target, target, (adopted?_eq_some_iff.1 hc).1]
    rfl

theorem adopt_drainingIndex (t : DynamicTable) : t.adopt.drainingIndex = t.drainingIndex := by
  rcases hc : t.adopted? with _ | c
  · rw [adopt_of_none hc]
  · rw [adopt_of_some hc, drainingIndex_withCapacity (adopted?_eq_some_iff.1 hc).1]

theorem evictOldest?_adopt (h : t.evictOldest? = none) : t.adopt.evictOldest? = none := by
  rw [evictOldest?_eq_none_iff] at h ⊢
  rwa [adopt_entries]

/-- A capacity takes effect once. -/
theorem adopted?_adopt (t : DynamicTable) : t.adopt.adopted? = none := by
  rcases hc : t.adopted? with _ | c
  · rw [adopt_of_none hc, hc]
  · rw [adopt_of_some hc, adopted?_withCapacity]

theorem clear_adopt (h : t.clear = t) : t.adopt.clear = t.adopt := by
  rcases hc : t.adopted? with _ | c
  · rw [adopt_of_none hc, h]
  · rw [adopt_of_some hc, clear_withCapacity (adopted?_eq_some_iff.1 hc).1, h]

/-! ## Draining -/

theorem Exact.drain (h : t.Exact) : t.drain.1.Exact := by
  refine ⟨h.valid.drain.1, ?_, ?_, ?_⟩
  · exact (drainingPercent_perform t .drain).trans_le h.percent_le
  · rw [h.drain_eq, adopt_target]
    exact h.clear.target_lt
  · rw [h.drain_eq, adopt_used]
    exact h.clear.used_lt

theorem Exact.entries_drain (h : t.Exact) : t.drain.1.entries =
    t.entries.dropWhile fun x => decide (x.references = 0 ∧ x.index < t.drainingIndex) := by
  rw [h.drain_eq, adopt_entries, h.valid.entries_clear]

/-- What draining takes is not beyond the zone. -/
theorem Exact.mem_drain_or_lt (h : t.Exact) {x : Entry} (hx : x ∈ t.entries) :
    x ∈ t.drain.1.entries ∨ x.index < t.drainingIndex := by
  rw [h.entries_drain]
  rw [← List.takeWhile_append_dropWhile (p := fun x => decide (x.references = 0 ∧ x.index < t.drainingIndex))
    (l := t.entries)] at hx
  rcases List.mem_append.1 hx with hx | hx
  · have hgone := List.mem_takeWhile_imp hx
    exact Or.inr (of_decide_eq_true hgone).2
  · exact Or.inl hx

theorem Exact.drainingIndex_drain (h : t.Exact) : t.drain.1.drainingIndex = t.drainingIndex := by
  rw [h.drain_eq, adopt_drainingIndex, h.valid.drainingIndex_clear]

/-- The reserve is free after draining, unless the oldest entry has to stay. -/
theorem Exact.drain_cases (h : t.Exact) : t.reserve ≤ t.drain.1.space ∨
    ∃ x rest, t.drain.1.entries = x :: rest ∧ 0 < x.references ∧ x.index < t.drain.1.drainingIndex := by
  have hreserve : t.clear.reserve = t.reserve := by
    rw [reserve, reserve, (sheds_clear t).target_eq, DynamicTable.clear, drainingPercent_evictWhile]
  rw [h.drainingIndex_drain, h.drain_eq, space, adopt_target, adopt_used, adopt_entries, ← hreserve]
  rcases h.clear_cases with hfree | hheld
  · exact Or.inl (by omega)
  · exact Or.inr hheld

/-- Draining a second time finds nothing to do. -/
theorem Exact.drain_drain (h : t.Exact) : t.drain.1.drain = (t.drain.1, none) := by
  have hclear := clear_adopt h.valid.clear_clear
  -- the table fits, or cannot be made to fit, for the same reason as before
  have hagain : t.clear.adopt.drain = (t.clear.adopt.clear.adopt, t.clear.adopt.clear.adopted?) := by
    apply drain_eq_of_fits
    rw [hclear, adopt_used, adopt_target]
    exact h.clear_fits.imp_right evictOldest?_adopt
  rw [h.drain_eq, hagain, hclear, adopted?_adopt, adopt_of_none (adopted?_adopt _)]

/-! ## All tables -/

/-- What leaves is what is not in use at the front of the zone, and the zone stays where it is. -/
structure DrainsZone (t : DynamicTable) : Prop where
  entries : t.drain.1.entries =
    t.entries.dropWhile fun x => decide (x.references = 0 ∧ x.index < t.drainingIndex)
  inserted : t.drain.1.inserted = t.inserted
  target : t.drain.1.target = t.target
  drainingIndex : t.drain.1.drainingIndex = t.drainingIndex
  /-- The reserve is free, unless the oldest entry is in use and in the zone. -/
  makesRoom : t.target * t.drainingPercent / 100 ≤ t.drain.1.space ∨
    ∃ x rest, t.drain.1.entries = x :: rest ∧ 0 < x.references ∧ x.index < t.drain.1.drainingIndex
  /-- A capacity that waits takes effect if and only if what is left fits it. -/
  adopts : ∀ c, t.drain.2 = some c ↔ t.pending = some c ∧ t.drain.1.used ≤ c
  capacity : (t.drain.1.capacity, t.drain.1.pending) =
    t.drain.2.elim (t.capacity, t.pending) fun c => (c, none)
  /-- There is nothing to do a second time. -/
  again : t.drain.1.drain = (t.drain.1, none)
  /-- A new entry that there is room for does not move the zone back. -/
  add : ∀ f, t.Allows (.add f) → t.drainingIndex ≤ (t.add f).drainingIndex
  /-- A lower capacity does not move the zone back. -/
  lower : ∀ c ≤ t.target, t.drainingIndex ≤ (t.requestCapacity c).1.drainingIndex

theorem Exact.drains (h : t.Exact) (hs : t.Shrinks) : t.DrainsZone where
  entries := h.entries_drain
  inserted := (changes_drain t).inserted
  target := by rw [h.drain_eq, adopt_target, (sheds_clear t).target_eq]
  drainingIndex := h.drainingIndex_drain
  makesRoom := h.drain_cases
  adopts c := by rw [h.drain_eq, adopt_used, adopted?_eq_some_iff, (sheds_clear t).pending]
  capacity := by
    rw [h.drain_eq]
    rcases hc : t.clear.adopted? with _ | c
    · rw [adopt_of_none hc, (sheds_clear t).capacity, (sheds_clear t).pending]
      rfl
    · rw [adopt_of_some hc]
      rfl
  again := h.drain_drain
  add _ ha := h.drainingIndex_le_add hs ha
  lower _ hc := h.drainingIndex_le_requestCapacity hc

/-- The entries fit the capacity, so only a table that is to shrink can hold more than a signed word counts. -/
theorem Reachable.exact (h : t.Reachable) (htarget : t.target < 2 ^ 56)
    (hused : t.pending ≠ none → t.used < 2 ^ 63) : t.Exact := by
  refine ⟨h.valid.1, h.drainingPercent_le, htarget, ?_⟩
  rcases hp : t.pending with _ | c
  · have hle := h.valid.1.used_le
    rw [target, hp, Option.getD_none] at htarget
    omega
  · exact hused (by simp [hp])

/-- After any operations, draining takes what the zone can give up, and nothing else, as long as the room that the
entries take can be counted in a signed word. -/
theorem Reachable.drainsZone (h : t.Reachable) (htarget : t.target < 2 ^ 56)
    (hused : t.pending ≠ none → t.used < 2 ^ 63) : t.DrainsZone :=
  (h.exact htarget hused).drains h.valid.2

/-- A table that is to shrink, of whose oldest three entries, all in the zone, the third is in use. -/
def shrinking : DynamicTable :=
  (empty 50).run [.requestCapacity 200, .add ⟨[97], []⟩, .add ⟨[98], []⟩, .add ⟨[99], []⟩, .add ⟨[100], []⟩,
    .add ⟨[101], []⟩, .refer 0, .refer 2, .requestCapacity 100, .release 0]

theorem shrinking_drainsZone : shrinking.Reachable ∧ shrinking.DrainsZone ∧
    shrinking.pending = some 100 ∧ shrinking.used = 165 ∧ shrinking.drainingIndex = 4 ∧
    shrinking.drain.2 = some 100 ∧ shrinking.drain.1.entries.map Entry.index = [2, 3, 4] := by
  have hr : shrinking.Reachable := (Reachable.empty 50).run (by decide +kernel)
  exact ⟨hr, hr.drainsZone (by decide +kernel) (by decide +kernel), by decide +kernel, by decide +kernel,
    by decide +kernel, by decide +kernel, by decide +kernel⟩

/-! ## Where signed words are too small -/

/-- A capacity that waits takes the oldest entry if that is not in use, even where nothing drains. -/
theorem Valid.not_drainsZone_of_threshold_le {x : Entry} {rest : List Entry} (h : t.Valid)
    (he : t.entries = x :: rest) (hx : x.references = 0) (hp : t.pending = some c) (hc : c < t.used)
    (hzone : t.threshold ≤ t.free) : ¬ t.DrainsZone := by
  intro hdrains
  have hindex : ¬ x.index < t.drainingIndex := by
    rw [drainingIndex_of_threshold_le hzone, h.index_head he]
    exact Nat.lt_irrefl _
  have hentries : t.drain.1.entries = x :: rest := by
    rw [hdrains.entries, he, List.dropWhile_cons_of_neg (by simp [hindex])]
  have hused : t.drain.1.used = t.used := by rw [h.drain.1.used_eq, hentries, ← he, h.used_eq]
  -- so the capacity has not taken effect, but then the oldest entry is in use
  have hnone : t.drain.2 = none := by
    rw [Option.eq_none_iff_forall_ne_some]
    intro c' hc'
    obtain ⟨hp', hfits⟩ := (hdrains.adopts c').1 hc'
    obtain rfl := Option.some.inj (hp.symm.trans hp')
    omega
  have hcapacity := hdrains.capacity
  rw [hnone] at hcapacity
  obtain ⟨-, hend⟩ := waitsInUse_drain t c ((Prod.mk.inj hcapacity).2.trans hp)
  have hpos := evictOldest?_eq_none_iff.1 hend x rest hentries
  omega

/-- A capacity that is asked for while the oldest entry is in use waits, and goes on waiting when that is given
up. -/
theorem Valid.run_wait {x : Entry} {rest : List Entry} (h : t.Valid) (he : t.entries = x :: rest)
    (hc : c < t.used) :
    t.AllowsAll [.refer t.first, .requestCapacity c, .release t.first] ∧
      t.run [.refer t.first, .requestCapacity c, .release t.first] = { t with pending := some c } := by
  have hcontains : t.contains t.first = true := h.contains_iff.2 ⟨x, he ▸ List.mem_cons_self, h.index_head he⟩
  have hentries : (t.refer t.first).entries = { x with references := x.references + 1 } :: rest := by
    rw [refer_first, he]
    rfl
  have hend : (t.refer t.first).evictOldest? = none := by
    rw [evictOldest?_eq_none_iff]
    intro y l hy
    obtain ⟨rfl, -⟩ := List.cons.inj (hentries.symm.trans hy)
    exact Nat.succ_pos _
  have hrequest : ((t.refer t.first).requestCapacity c).1 =
      DynamicTable.refer { t with pending := some c } t.first := by
    rw [requestCapacity_of_stuck hend ((sameMeasures_refer t t.first).used ▸ hc), refer_first]
    exact (refer_first { t with pending := some c }).symm
  refine ⟨⟨hcontains, trivial, ?_, trivial⟩, ?_⟩
  · show (((t.refer t.first).requestCapacity c).1.release? t.first).isSome = true
    rw [hrequest, (h.withPending (some c)).release?_refer hcontains]
    rfl
  · show ((t.refer t.first).requestCapacity c).1.release t.first = _
    rw [hrequest, release_refer]

/-- A table of capacity `c` that holds `n` copies of a field, none of them in use. -/
structure Stacked (c : Nat) (f : Field) (n : Nat) (t : DynamicTable) : Prop where
  capacity : t.capacity = c
  pending : t.pending = none
  used : t.used = n * f.size
  inserted : t.inserted = n
  length : t.entries.length = n
  unused : ∀ x ∈ t.entries, x.references = 0

theorem Stacked.append {n : Nat} (h : Stacked c f n t) : Stacked c f (n + 1) (t.append f) where
  capacity := h.capacity
  pending := h.pending
  used := by rw [append_used, h.used, Nat.succ_mul]
  inserted := by rw [append_inserted, h.inserted]
  length := by rw [append_entries, List.length_append, h.length, List.length_singleton]
  unused x hx := by
    rcases List.mem_append.1 hx with hx | hx
    · exact h.unused x hx
    · rw [List.mem_singleton.1 hx]

/-- As long as there is room, one more copy after another can be added. -/
theorem Stacked.run {m n : Nat} (h : Stacked c f m t) (hroom : (m + n) * f.size ≤ c) :
    t.AllowsAll (List.replicate n (.add f)) ∧ Stacked c f (m + n) (t.run (List.replicate n (.add f))) := by
  induction n generalizing t m with
  | zero => exact ⟨trivial, h⟩
  | succ n ih =>
    have htarget : t.target = c := by rw [target, h.pending, Option.getD_none, h.capacity]
    have hle : (m + 1) * f.size ≤ (m + (n + 1)) * f.size := Nat.mul_le_mul_right _ (by omega)
    rw [Nat.succ_mul] at hle
    have hadd : t.perform (.add f) = t.append f := by
      apply add_eq
      rw [space, htarget, h.used]
      omega
    have hallows : t.Allows (.add f) := by
      show t.used + f.size ≤ t.target + t.reclaimable
      rw [htarget, h.used]
      omega
    have hsum : m + (n + 1) = m + 1 + n := by omega
    rw [hsum] at hroom ⊢
    obtain ⟨hlater, hstacked⟩ := ih h.append hroom
    rw [List.replicate_succ]
    refine ⟨⟨hallows, ?_⟩, ?_⟩
    · rw [hadd]
      exact hlater
    · show Stacked c f (m + 1 + n) ((t.perform (.add f)).run _)
      rw [hadd]
      exact hstacked

theorem Stacked.first {n : Nat} (h : Stacked c f n t) : t.first = 0 := by
  unfold DynamicTable.first
  rw [h.inserted, h.length, Nat.sub_self]

/-- If it is to lose all of them, the room that is free wraps, and seems to be enough. -/
theorem Stacked.threshold_le_free {n : Nat} (h : Stacked c f n t) (hlt : 2 ^ 63 < n * f.size)
    (hfits : n * f.size < 2 ^ 64) :
    threshold { t with pending := some 0 } ≤ free { t with pending := some 0 } := by
  have hused := h.used
  have hthreshold : threshold { t with pending := some 0 } = 0 := by
    unfold threshold
    rw [show target { t with pending := some 0 } = 0 from rfl, Nat.zero_mul]
    rfl
  have hfree : free { t with pending := some 0 } = (-(t.used : Int)) + 2 ^ 64 := by
    have hroom : free { t with pending := some 0 } = signed (0 - t.used) := rfl
    rw [hroom, Int.zero_sub, signed_of_lt (by omega) (by omega)]
  rw [hthreshold, hfree]
  omega

/-- Copies of a field in a table of the largest capacity that a word holds. -/
def stack (f : Field) (n : Nat) : DynamicTable :=
  (empty 0).run (.requestCapacity (UInt64.size - 1) :: List.replicate n (.add f))

theorem stacked_stack {n : Nat} (hfits : n * f.size < 2 ^ 64) :
    (stack f n).Reachable ∧ Stacked (UInt64.size - 1) f n (stack f n) := by
  have hrequest : (empty 0).perform (.requestCapacity (UInt64.size - 1)) =
      { empty 0 with capacity := UInt64.size - 1 } := congrArg Prod.fst (requestCapacity_empty 0 _)
  have hempty : Stacked (UInt64.size - 1) f 0 { empty 0 with capacity := UInt64.size - 1 } :=
    ⟨rfl, rfl, (Nat.zero_mul _).symm, rfl, rfl, fun x hx => absurd hx List.not_mem_nil⟩
  rw [← hrequest] at hempty
  obtain ⟨hallows, hstacked⟩ := hempty.run (n := n) (by rw [Nat.zero_add]; exact Nat.le_pred_of_lt hfits)
  rw [Nat.zero_add] at hstacked
  exact ⟨(Reachable.empty 0).run ⟨trivial, hallows⟩, hstacked⟩

/-- Copies of a field in a table that is to lose all of them. The oldest was in use when that was asked for, and is
not any more. -/
def overfull (f : Field) (n : Nat) : DynamicTable := (stack f n).run [.refer 0, .requestCapacity 0, .release 0]

/-- The copies take room that a word can count, and a signed word cannot. -/
theorem overfull_cases {n : Nat} (hlt : 2 ^ 63 < n * f.size) (hfits : n * f.size < 2 ^ 64) :
    (overfull f n).Reachable ∧ (overfull f n).target = 0 ∧ ¬ (overfull f n).DrainsZone := by
  obtain ⟨hreach, hstacked⟩ := stacked_stack hfits
  have hvalid := hreach.valid.1
  have hused : 0 < (stack f n).used := by
    rw [hstacked.used]
    omega
  obtain ⟨x, rest, he⟩ : ∃ x rest, (stack f n).entries = x :: rest := by
    rcases hentries : (stack f n).entries with _ | ⟨x, rest⟩
    · rw [hvalid.used_eq, hentries] at hused
      exact absurd hused (Nat.lt_irrefl 0)
    · exact ⟨x, rest, rfl⟩
  have hunused := hstacked.unused x (he ▸ List.mem_cons_self)
  have hwait := hvalid.run_wait he hused
  rw [hstacked.first] at hwait
  have hover : overfull f n = { stack f n with pending := some 0 } := hwait.2
  have hreach' : (overfull f n).Reachable := hreach.run hwait.1
  refine ⟨hreach', ?_, ?_⟩
  · rw [hover]
    rfl
  · rw [hover]
    exact (hvalid.withPending (some 0)).not_drainsZone_of_threshold_le he hunused rfl hused
      (hstacked.threshold_le_free hlt hfits)

theorem size_replicate (n : Nat) : Field.size ⟨[97], List.replicate n 0⟩ = n + 33 := by
  unfold Field.size Field.entrySize Field.overhead
  rw [List.length_replicate, List.length_singleton]
  omega

/-- Without a bound on the room that the entries take, it is not so: copies of a field of `2 ^ 32` octets, one more
than `2 ^ 31`, are all taken, though none of them drains. -/
theorem not_drainsZone : ¬ ∀ t : DynamicTable, t.Reachable → t.target < 2 ^ 56 → t.DrainsZone := by
  intro hall
  have hsize : Field.size ⟨[97], List.replicate (2 ^ 32 - 33) 0⟩ = 2 ^ 32 :=
    (size_replicate _).trans (Nat.sub_add_cancel (by decide))
  obtain ⟨hreach, htarget, hnot⟩ := overfull_cases (f := ⟨[97], List.replicate (2 ^ 32 - 33) 0⟩) (n := 2 ^ 31 + 1)
    (by rw [hsize]; decide) (by rw [hsize]; decide)
  exact hnot (hall _ hreach (by rw [htarget]; decide))

end DynamicTable
end Qpack
