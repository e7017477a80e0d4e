import Qpack.Proofs.Table.Changes

/-!
# Reference counts

* `Counts t refs` : the indices `refs` are those that something refers to, each as often as its entry
  counts;
* `Counts.sheds`, `Counts.add`, `Counts.refer`, `Counts.release` : what the changes of a table do to
  the indices in use;
* `Counts.foldl_release` : all references of a list can be given up, one after another.
-/

namespace Qpack.DynamicTable

/-! ## Tables with other counts -/

/-- Two tables that differ in their entries at most. -/
structure SameMeasures (t u : DynamicTable) : Prop where
  inserted : u.inserted = t.inserted
  capacity : u.capacity = t.capacity
  pending : u.pending = t.pending
  used : u.used = t.used

theorem SameMeasures.trans {t u v : DynamicTable} (h₁ : SameMeasures t u) (h₂ : SameMeasures u v) :
    SameMeasures t v :=
  ⟨h₂.inserted.trans h₁.inserted, h₂.capacity.trans h₁.capacity, h₂.pending.trans h₁.pending,
    h₂.used.trans h₁.used⟩

theorem SameMeasures.target {t u : DynamicTable} (h : SameMeasures t u) : u.target = t.target := by
  rw [DynamicTable.target, DynamicTable.target, h.capacity, h.pending]

theorem SameMeasures.space {t u : DynamicTable} (h : SameMeasures t u) : u.space = t.space := by
  rw [DynamicTable.space, DynamicTable.space, h.target, h.used]

theorem SameMeasures.waits {t u : DynamicTable} (h : SameMeasures t u) (hw : t.Waits) : u.Waits := by
  intro c hc
  rw [h.used]
  exact hw c (h.pending ▸ hc)

theorem sameMeasures_modify (t : DynamicTable) (i : Nat) (change : Entry → Entry) :
    SameMeasures t (t.modify i change) := by
  rw [modify]
  split <;> exact ⟨rfl, rfl, rfl, rfl⟩

theorem sameMeasures_refer (t : DynamicTable) (i : Nat) : SameMeasures t (t.refer i) :=
  sameMeasures_modify t i _

theorem sameMeasures_foldl_release (t : DynamicTable) (l : List Nat) :
    SameMeasures t (l.foldl release t) := by
  induction l generalizing t with
  | nil => exact ⟨rfl, rfl, rfl, rfl⟩
  | cons i l ih => exact (sameMeasures_modify t i _).trans (ih (t.release i))

/-- One more reference does not free the oldest entry. -/
theorem WaitsInUse.refer {t : DynamicTable} (h : t.WaitsInUse) (i : Nat) : (t.refer i).WaitsInUse := by
  have hm := sameMeasures_refer t i
  intro c hc
  obtain ⟨hlt, hend⟩ := h c (hm.pending ▸ hc)
  refine ⟨hm.used ▸ hlt, evictOldest?_eq_none_iff.2 fun x rest hx => ?_⟩
  rw [evictOldest?_eq_none_iff] at hend
  unfold DynamicTable.refer modify at hx
  split at hx
  · exact hend x rest hx
  · rcases ht : t.entries with _ | ⟨y, l⟩
    · simp [ht] at hx
    · have hy := hend y l ht
      simp only [ht, List.modify_cons] at hx
      split at hx
      · obtain rfl := (List.cons.inj hx).1
        exact Nat.succ_pos _
      · obtain rfl := (List.cons.inj hx).1
        exact hy

section Counts
variable {t u : DynamicTable} {refs refs' : List Nat} {i : Nat}

theorem Valid.field?_modify (h : t.Valid) (change : Entry → Entry) (hf : ∀ x, (change x).field = x.field)
    (hi : ∀ x, (change x).index = x.index) (i j : Nat) : (t.modify i change).field? j = t.field? j := by
  apply Option.ext
  intro f
  rw [(h.modify i hf hi).field?_eq_some_iff, h.field?_eq_some_iff, h.modify_eq]
  simp only [List.mem_map]
  constructor
  · rintro ⟨_, ⟨x, hx, rfl⟩, hj, hf'⟩
    refine ⟨x, hx, ?_, ?_⟩
    · rw [← hj]; split_ifs; exacts [(hi x).symm, rfl]
    · rw [← hf']; split_ifs; exacts [(hf x).symm, rfl]
  · rintro ⟨x, hx, hj, hf'⟩
    refine ⟨_, ⟨x, hx, rfl⟩, ?_, ?_⟩
    · rw [← hj]; split_ifs; exacts [hi x, rfl]
    · rw [← hf']; split_ifs; exacts [hf x, rfl]

theorem Valid.refer (h : t.Valid) (i : Nat) : (t.refer i).Valid := h.modify i (fun _ => rfl) fun _ => rfl

theorem Valid.release (h : t.Valid) (i : Nat) : (t.release i).Valid := h.modify i (fun _ => rfl) fun _ => rfl

theorem Valid.field?_refer (h : t.Valid) (i j : Nat) : (t.refer i).field? j = t.field? j :=
  h.field?_modify (fun x => { x with references := x.references + 1 }) (fun _ => rfl) (fun _ => rfl) i j

theorem Valid.field?_release (h : t.Valid) (i j : Nat) : (t.release i).field? j = t.field? j :=
  h.field?_modify (fun x => { x with references := x.references - 1 }) (fun _ => rfl) (fun _ => rfl) i j

/-- A change leaves of all entries what it leaves of one. -/
theorem Valid.map_modify {α : Type} {key : Entry → α} (h : t.Valid) {change : Entry → Entry} (i : Nat)
    (hk : ∀ x, key (change x) = key x) : (t.modify i change).entries.map key = t.entries.map key := by
  rw [h.modify_eq, List.map_map]
  apply List.map_congr_left
  intro x _
  rw [Function.comp_apply]
  split_ifs
  exacts [hk x, rfl]

theorem Valid.contains_of_field? (h : t.Valid) (hu : u.Valid) (hf : ∀ j, u.field? j = t.field? j)
    (hc : t.contains i = true) : u.contains i = true := by
  obtain ⟨x, hx, rfl⟩ := h.contains_iff.1 hc
  obtain ⟨y, hy, hi, -⟩ := hu.field?_eq_some_iff.1 ((hf _).trans (h.field?_of_mem hx))
  exact hu.contains_iff.2 ⟨y, hy, hi⟩

/-! ## The indices in use -/

/-- The indices in use are there, and each entry counts how often its own occurs. -/
structure Counts (t : DynamicTable) (refs : List Nat) : Prop where
  live : ∀ i ∈ refs, t.contains i = true
  count : ∀ x ∈ t.entries, x.references = refs.count x.index

theorem Counts.empty (percent : Nat) : Counts (DynamicTable.empty percent) [] :=
  ⟨fun _ hi => absurd hi List.not_mem_nil, fun _ hx => absurd hx List.not_mem_nil⟩

theorem Counts.perm (h : Counts t refs) (hp : refs.Perm refs') : Counts t refs' :=
  ⟨fun i hi => h.live i (hp.mem_iff.2 hi), fun x hx => (h.count x hx).trans (hp.count_eq _)⟩

theorem Counts.lt (h : Counts t refs) (ht : t.Valid) (hi : i ∈ refs) : i < t.inserted := by
  obtain ⟨x, hx, rfl⟩ := ht.contains_iff.1 (h.live i hi)
  exact ht.index_lt hx

theorem Counts.sheds (h : Counts t refs) (ht : t.Valid) (hu : Sheds t u) : Counts u refs := by
  refine ⟨fun i hi => ?_, fun x hx => h.count x (hu.mem hx)⟩
  obtain ⟨gone, he, hgone⟩ := hu.entries
  obtain ⟨x, hx, rfl⟩ := ht.contains_iff.1 (h.live i hi)
  have hpos : 0 < x.references := by
    rw [h.count x hx]
    exact List.count_pos_iff.2 hi
  have hx' := hx
  rw [he] at hx'
  rcases List.mem_append.1 hx' with hg | hx'
  · rw [hgone x hg] at hpos
    exact absurd hpos (Nat.lt_irrefl 0)
  · exact (hu.valid ht).contains_iff.2 ⟨x, hx', rfl⟩

theorem Counts.add (h : Counts t refs) (ht : t.Valid) (hw : t.Waits) {f : Field} (hf : f.size ≤ t.space) :
    Counts (t.add f) refs := by
  refine ⟨fun i hi => ?_, fun x hx => ?_⟩
  · obtain ⟨x, hx, rfl⟩ := ht.contains_iff.1 (h.live i hi)
    exact (ht.add hw hf).contains_iff.2 ⟨x, (mem_add hf).2 (Or.inl hx), rfl⟩
  · rcases (mem_add hf).1 hx with hx | rfl
    · exact h.count x hx
    · -- nothing can refer to the index before it is given
      refine (List.count_eq_zero.2 fun hi => ?_).symm
      exact Nat.lt_irrefl _ (h.lt ht hi)

theorem Counts.refer (h : Counts t refs) (ht : t.Valid) (hc : t.contains i = true) :
    Counts (t.refer i) (i :: refs) := by
  refine ⟨fun j hj => ht.contains_of_field? (ht.refer i) (ht.field?_refer i) ?_, fun x hx => ?_⟩
  · rcases List.mem_cons.1 hj with rfl | hj
    exacts [hc, h.live j hj]
  · rw [DynamicTable.refer, ht.modify_eq] at hx
    obtain ⟨y, hy, rfl⟩ := List.mem_map.1 hx
    by_cases hi : y.index = i
    · simp [hi, h.count y hy]
    · simp [hi, Ne.symm hi, h.count y hy]

/-- A reference that is in use can be given up. -/
theorem Counts.release (h : Counts t (i :: refs)) (ht : t.Valid) :
    Counts (t.release i) refs ∧ t.release? i = some (t.release i) := by
  obtain ⟨x, hx, hxi⟩ := ht.contains_iff.1 (h.live i List.mem_cons_self)
  have hpos : 0 < x.references := by
    rw [h.count x hx, hxi]
    exact List.count_pos_iff.2 List.mem_cons_self
  refine ⟨⟨fun j hj => ht.contains_of_field? (ht.release i) (ht.field?_release i) ?_, fun y hy => ?_⟩, ?_⟩
  · exact h.live j (List.mem_cons_of_mem i hj)
  · rw [DynamicTable.release, ht.modify_eq] at hy
    obtain ⟨z, hz, rfl⟩ := List.mem_map.1 hy
    by_cases hi : z.index = i
    · simp [hi, h.count z hz]
    · simp [hi, Ne.symm hi, h.count z hz]
  · rw [release?, ht.entry?_eq_some_iff.2 ⟨hx, hxi⟩]
    exact if_pos hpos

theorem Valid.foldl_release (h : t.Valid) (l : List Nat) :
    (l.foldl DynamicTable.release t).Valid ∧
      ∀ j, (l.foldl DynamicTable.release t).field? j = t.field? j := by
  induction l generalizing t with
  | nil => exact ⟨h, fun _ => rfl⟩
  | cons i l ih =>
    obtain ⟨hv, hf⟩ := ih (h.release i)
    exact ⟨hv, fun j => (hf j).trans (h.field?_release i j)⟩

theorem Valid.map_field_foldl_release (h : t.Valid) (l : List Nat) :
    (l.foldl DynamicTable.release t).entries.map Entry.field = t.entries.map Entry.field := by
  induction l generalizing t with
  | nil => rfl
  | cons i l ih => exact (ih (h.release i)).trans (h.map_modify i fun _ => rfl)

/-- References that are in use can be given up one after another, and each of them finds its entry
with a count. -/
theorem Counts.foldl_release {l : List Nat} (h : Counts t (l ++ refs)) (ht : t.Valid) :
    Counts (l.foldl DynamicTable.release t) refs ∧
      l.foldlM DynamicTable.release? t = some (l.foldl DynamicTable.release t) := by
  induction l generalizing t with
  | nil => exact ⟨h, rfl⟩
  | cons i l ih =>
    obtain ⟨hc, hr⟩ := Counts.release h ht
    obtain ⟨hc, hl⟩ := ih hc (ht.release i)
    refine ⟨hc, ?_⟩
    rw [List.foldlM_cons, hr]
    exact hl

end Counts
end Qpack.DynamicTable
