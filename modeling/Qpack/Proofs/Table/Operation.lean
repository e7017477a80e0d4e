import Qpack.Proofs.Table.References

/-!
# Tables after any operations

* `Changes t u added` : what `u` lacks of the entries of `t` was the oldest and not in use, the others are
  what they were, and `added` comes behind them;
* `changes_perform` : so it is with every operation that a table allows;
* `target_of_stopped` : an allowed insertion finds room for its entry;
* `Shrinks t` : a capacity waits only to make the table smaller;
* `Valid.perform`, `Valid.run` : allowed operations keep a table valid, and age it;
* `KeepsEntries`, `Reachable.keepsEntries` : what holds of every table that they lead to.
-/

namespace Qpack

/-- What an entry is, apart from how often it is in use. -/
def Entry.identity (x : Entry) : Nat × Field := (x.index, x.field)

/-- The entry that an operation brings, where `n` were inserted before. -/
def TableOperation.added (n : Nat) : TableOperation → List Entry
  | .add f => [⟨f, n, 0⟩]
  | _ => []

namespace DynamicTable
variable {t u : DynamicTable} {op : TableOperation} {ops : List TableOperation}

/-! ## What changes -/

/-- From `t` to `u`, the oldest entries may go if they are not in use, and `added` comes. The others stay
what they are. -/
structure Changes (t u : DynamicTable) (added : List Entry) : Prop where
  entries : ∃ gone kept, t.entries = gone ++ kept ∧ (∀ x ∈ gone, x.references = 0) ∧
    u.entries.map Entry.identity = (kept ++ added).map Entry.identity
  inserted : u.inserted = t.inserted + added.length

theorem Sheds.changes (h : Sheds t u) : Changes t u [] := by
  obtain ⟨gone, he, hgone⟩ := h.entries
  exact ⟨⟨gone, u.entries, he, hgone, by rw [List.append_nil]⟩, h.inserted⟩

/-- Another capacity is no change of the entries. -/
theorem Changes.withCapacity {added : List Entry} {c : Nat} (h : Changes t u added) :
    Changes t { u with capacity := c, pending := none } added :=
  ⟨h.entries, h.inserted⟩

theorem changes_requestCapacity (t : DynamicTable) (c : Nat) : Changes t (t.requestCapacity c).1 [] := by
  obtain ⟨u, hu, hc⟩ := t.requestCapacity_cases c
  have hchanges : Changes t u [] := ⟨hu.changes.entries, hu.changes.inserted⟩
  rcases hc with ⟨-, he⟩ | ⟨-, he⟩
  · rw [he]
    exact hchanges
  · rw [he]
    exact hchanges.withCapacity

theorem changes_drain (t : DynamicTable) : Changes t t.drain.1 [] := by
  obtain ⟨u, hu, hc⟩ := t.drain_cases
  rcases hc with ⟨-, he⟩ | ⟨c, -, -, he⟩
  · rw [he]
    exact hu.changes
  · rw [he]
    exact hu.changes.withCapacity

theorem changes_add (t : DynamicTable) (f : Field) : Changes t (t.add f) [⟨f, t.inserted, 0⟩] := by
  obtain ⟨u, hu, hadd, -⟩ := t.add_cases f
  obtain ⟨gone, he, hgone⟩ := hu.entries
  rw [hadd]
  refine ⟨⟨gone, _, he, hgone, ?_⟩, ?_⟩
  · rw [append_entries, hu.inserted]
  · rw [append_inserted, hu.inserted]
    rfl

theorem Valid.changes_modify (h : t.Valid) {change : Entry → Entry} (i : Nat)
    (hk : ∀ x, (change x).identity = x.identity) : Changes t (t.modify i change) [] := by
  refine ⟨⟨[], t.entries, rfl, by simp, ?_⟩, (sameMeasures_modify t i change).inserted⟩
  rw [h.map_modify i hk, List.append_nil]

theorem Valid.changes_perform (h : t.Valid) (op : TableOperation) :
    Changes t (t.perform op) (op.added t.inserted) := by
  cases op with
  | requestCapacity c => exact changes_requestCapacity t c
  | add f => exact changes_add t f
  | drain => exact changes_drain t
  | refer i => exact h.changes_modify i fun _ => rfl
  | release i => exact h.changes_modify i fun _ => rfl

/-! ## Room for a new entry -/

/-- Where eviction has come to an end, all that was not in use is gone. -/
theorem Sheds.used_add_reclaimable (hu : Sheds t u) (ht : t.Valid) (hend : u.evictOldest? = none) :
    u.used + t.reclaimable = t.used := by
  obtain ⟨gone, he, hgone⟩ := hu.entries
  have hrest : u.entries.takeWhile (·.references = 0) = [] := by
    rcases hx : u.entries with _ | ⟨x, rest⟩
    · rfl
    · have hpos := evictOldest?_eq_none_iff.1 hend x rest hx
      rw [List.takeWhile_cons_of_neg (by simpa using Nat.ne_of_gt hpos)]
  have hroom : t.reclaimable = roomOf gone := by
    unfold reclaimable
    rw [he, List.takeWhile_append_of_pos (by simpa using hgone), hrest, List.append_nil]
    rfl
  rw [hroom, ht.used_eq, (hu.valid ht).used_eq, he, roomOf_append, Nat.add_comm]

/-- An allowed insertion makes enough room. -/
theorem Valid.used_add_le (h : t.Valid) {f : Field} (ha : t.Allows (.add f)) : (t.add f).used ≤ t.target := by
  obtain ⟨u, hu, hadd, hroom⟩ := t.add_cases f
  rw [hadd, append_used, ← hu.target_eq]
  rcases hroom with hfits | hend
  · exact hfits
  · have hsum := hu.used_add_reclaimable h hend
    have htarget := hu.target_eq
    change t.used + f.size ≤ t.target + t.reclaimable at ha
    omega

/-! ## What operations keep -/

/-- A capacity that waits is below the one in effect. -/
def Shrinks (t : DynamicTable) : Prop := ∀ c, t.pending = some c → c < t.capacity

theorem Waits.shrinks (h : t.Waits) (ht : t.Valid) : t.Shrinks :=
  fun c hc => Nat.lt_of_lt_of_le (h c hc) ht.used_le

theorem Shrinks.target_le (h : t.Shrinks) : t.target ≤ t.capacity := by
  unfold target
  rcases hp : t.pending with _ | c
  · exact Nat.le_refl _
  · exact Nat.le_of_lt (h c hp)

theorem Valid.withCapacity {c : Nat} (h : t.Valid) (hc : t.used ≤ c) :
    Valid { t with capacity := c, pending := none } :=
  ⟨h.position, h.used_eq, hc, h.byField, h.byName⟩

theorem Valid.requestCapacity (h : t.Valid) (c : Nat) :
    (t.requestCapacity c).1.Valid ∧ (t.requestCapacity c).1.Shrinks := by
  obtain ⟨u, hu, hc⟩ := t.requestCapacity_cases c
  have hv : u.Valid := hu.valid (h.withPending (some c))
  rcases hc with ⟨hwait, he⟩ | ⟨hfit, he⟩
  · rw [he]
    refine ⟨hv, Waits.shrinks (fun p hp => ?_) hv⟩
    rw [hu.pending] at hp
    obtain rfl := Option.some.inj hp
    exact hwait
  · rw [he]
    exact ⟨hv.withCapacity hfit, fun p hp => by cases hp⟩

theorem Valid.drain (h : t.Valid) : t.drain.1.Valid ∧ t.drain.1.Shrinks := by
  obtain ⟨u, hu, hc⟩ := t.drain_cases
  have hv := hu.valid h
  rcases hc with ⟨hwaits, he⟩ | ⟨c, -, hfit, he⟩
  · rw [he]
    exact ⟨hv, hwaits.shrinks hv⟩
  · rw [he]
    exact ⟨hv.withCapacity hfit, fun p hp => by cases hp⟩

theorem Valid.add_allowed (h : t.Valid) (hs : t.Shrinks) {f : Field} (ha : t.Allows (.add f)) :
    (t.add f).Valid ∧ (t.add f).Shrinks := by
  have hroom := Nat.le_trans (h.used_add_le ha) hs.target_le
  obtain ⟨u, hu, hadd, -⟩ := t.add_cases f
  rw [hadd, append_used, ← hu.capacity] at hroom
  rw [hadd]
  refine ⟨(hu.valid h).append hroom, fun c hc => ?_⟩
  rw [append_pending, hu.pending] at hc
  rw [append_capacity, hu.capacity]
  exact hs c hc

theorem SameMeasures.shrinks (hm : SameMeasures t u) (h : t.Shrinks) : u.Shrinks := by
  intro c hc
  rw [hm.capacity]
  exact h c (hm.pending ▸ hc)

theorem Valid.perform (h : t.Valid) (hs : t.Shrinks) (ha : t.Allows op) :
    (t.perform op).Valid ∧ (t.perform op).Shrinks := by
  cases op with
  | requestCapacity c => exact h.requestCapacity c
  | add f => exact h.add_allowed hs ha
  | drain => exact h.drain
  | refer i => exact ⟨h.refer i, (sameMeasures_refer t i).shrinks hs⟩
  | release i => exact ⟨h.release i, (sameMeasures_modify t i _).shrinks hs⟩

theorem Reachable.valid (h : t.Reachable) : t.Valid ∧ t.Shrinks := by
  induction h with
  | empty percent => exact ⟨Valid.empty percent, fun c hc => by cases hc⟩
  | perform _ ha ih => exact ih.1.perform ih.2 ha

/-! ## Runs -/

/-- An entry that was there before is found at its index, or not at all. -/
theorem Changes.agesTo {added : List Entry} (hc : Changes t u added) (ht : t.Valid) (hu : u.Valid)
    (hnew : ∀ x ∈ added, t.inserted ≤ x.index) : t.AgesTo u := by
  obtain ⟨gone, kept, he, -, hidentity⟩ := hc.entries
  refine ⟨by rw [hc.inserted]; exact Nat.le_add_right _ _, fun i hi f hf => ?_⟩
  obtain ⟨y, hy, rfl, rfl⟩ := hu.field?_eq_some_iff.1 hf
  have hmem : y.identity ∈ (kept ++ added).map Entry.identity := by
    rw [← hidentity]
    exact List.mem_map_of_mem hy
  obtain ⟨x, hx, hxy⟩ := List.mem_map.1 hmem
  obtain ⟨hindex, hfield⟩ := Prod.mk.inj hxy
  rw [← hindex, ← hfield]
  rcases List.mem_append.1 hx with hx | hx
  · exact ht.field?_of_mem (he ▸ List.mem_append_right gone hx)
  · have hle := hnew x hx
    omega

theorem Valid.agesTo_perform (h : t.Valid) (hs : t.Shrinks) (ha : t.Allows op) : t.AgesTo (t.perform op) := by
  apply (h.changes_perform op).agesTo h (h.perform hs ha).1
  intro x hx
  cases op with
  | add f =>
    obtain rfl := List.mem_singleton.1 hx
    exact Nat.le_refl _
  | _ => cases hx

theorem Valid.agesTo_run (h : t.Valid) (hs : t.Shrinks) (ha : t.AllowsAll ops) : t.AgesTo (t.run ops) := by
  induction ops generalizing t with
  | nil => exact Ages.refl _ _
  | cons op rest ih =>
    obtain ⟨hnow, hlater⟩ := ha
    obtain ⟨hv, hs'⟩ := h.perform hs hnow
    exact (h.agesTo_perform hs hnow).trans (ih hv hs' hlater)

theorem Reachable.run (h : t.Reachable) (ha : t.AllowsAll ops) : (t.run ops).Reachable := by
  induction ops generalizing t with
  | nil => exact h
  | cons op rest ih => exact ih (h.perform ha.1) ha.2

instance decidableAllowsAll : (t : DynamicTable) → (ops : List TableOperation) → Decidable (t.AllowsAll ops)
  | _, [] => isTrue trivial
  | t, op :: rest =>
    have := decidableAllowsAll (t.perform op) rest
    inferInstanceAs (Decidable (t.Allows op ∧ (t.perform op).AllowsAll rest))

/-! ## All tables -/

theorem Valid.map_index (h : t.Valid) :
    t.entries.map Entry.index = List.range' t.first (t.inserted - t.first) := by
  have hle := h.length_le
  apply List.ext_getElem
  · rw [List.length_map, List.length_range', first]
    omega
  · intro k hk _
    rw [List.length_map] at hk
    have hp := h.position k _ (List.getElem?_eq_getElem hk)
    rw [List.getElem_map, List.getElem_range', first]
    omega

theorem Valid.contains_iff_lt (h : t.Valid) {i : Nat} : t.contains i = true ↔ t.first ≤ i ∧ i < t.inserted := by
  have hfirst : t.first ≤ t.inserted := Nat.sub_le _ _
  rw [h.contains_iff, ← List.mem_map, h.map_index, List.mem_range'_1]
  omega

/-- A table that was to shrink and could not: the second entry is in use. The first is gone. -/
def held : DynamicTable :=
  (empty 0).run [.requestCapacity 100, .add ⟨[97], []⟩, .add ⟨[98], []⟩, .add ⟨[99], []⟩, .refer 1,
    .requestCapacity 40]

end DynamicTable
end Qpack
