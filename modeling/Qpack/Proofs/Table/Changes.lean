import Qpack.Proofs.Table.Entries
import Qpack.Table.Operation

/-!
# What a change does to a table

* `Ages` : of what was inserted before, the later of two tables has nothing that the earlier lacks;
* `Sheds t u` : `u` is `t` without some of its oldest entries, none of them in use;
* `evictWhile_stops` : eviction goes on as long as it is asked for, or up to an entry in use;
* `Waits t` : a capacity waits only while the entries do not fit it;
* `WaitsInUse t` : and only for the oldest entry, which is in use;
* `requestCapacity_cases`, `drain_cases` : a table sheds entries, and a capacity takes effect or waits;
* `append`, `add_cases`, `add_eq` : a new entry goes behind those that are left, and behind all if it fits.
-/

namespace Qpack

/-! ## Growing older -/

/-- Of the first `n` insertions, `look'` finds nothing else than `look` does. -/
structure Ages (n : Nat) (look : Nat → Option Field) (n' : Nat) (look' : Nat → Option Field) : Prop where
  le : n ≤ n'
  keeps : ∀ i < n, ∀ f, look' i = some f → look i = some f

theorem Ages.refl (n : Nat) (look : Nat → Option Field) : Ages n look n look :=
  ⟨Nat.le_refl _, fun _ _ _ h => h⟩

theorem Ages.trans {n₁ n₂ n₃ : Nat} {look₁ look₂ look₃ : Nat → Option Field}
    (h₁ : Ages n₁ look₁ n₂ look₂) (h₂ : Ages n₂ look₂ n₃ look₃) : Ages n₁ look₁ n₃ look₃ :=
  ⟨Nat.le_trans h₁.le h₂.le, fun i hi f hf =>
    h₁.keeps i hi f (h₂.keeps i (Nat.lt_of_lt_of_le hi h₁.le) f hf)⟩

namespace DynamicTable

/-- `u` is at least as old as `t`. -/
def AgesTo (t u : DynamicTable) : Prop := Ages t.inserted t.field? u.inserted u.field?

/-! ## Eviction -/

/-- `u` is `t` without some of its oldest entries, none of which is in use. -/
structure Sheds (t u : DynamicTable) : Prop where
  entries : ∃ gone, t.entries = gone ++ u.entries ∧ ∀ x ∈ gone, x.references = 0
  inserted : u.inserted = t.inserted
  capacity : u.capacity = t.capacity
  pending : u.pending = t.pending
  valid : t.Valid → u.Valid

theorem Sheds.refl (t : DynamicTable) : Sheds t t := ⟨⟨[], rfl, by simp⟩, rfl, rfl, rfl, id⟩

theorem Sheds.trans {t u v : DynamicTable} (h₁ : Sheds t u) (h₂ : Sheds u v) : Sheds t v := by
  obtain ⟨gone₁, he₁, hr₁⟩ := h₁.entries
  obtain ⟨gone₂, he₂, hr₂⟩ := h₂.entries
  refine ⟨⟨gone₁ ++ gone₂, ?_, fun x hx => ?_⟩, h₂.inserted.trans h₁.inserted,
    h₂.capacity.trans h₁.capacity, h₂.pending.trans h₁.pending, h₂.valid ∘ h₁.valid⟩
  · rw [he₁, he₂, List.append_assoc]
  · rcases List.mem_append.1 hx with hx | hx
    exacts [hr₁ x hx, hr₂ x hx]

theorem Sheds.mem {t u : DynamicTable} (h : Sheds t u) {x : Entry} (hx : x ∈ u.entries) : x ∈ t.entries := by
  obtain ⟨gone, he, -⟩ := h.entries
  rw [he]
  exact List.mem_append_right gone hx

theorem Sheds.target_eq {t u : DynamicTable} (h : Sheds t u) : u.target = t.target := by
  rw [target, target, h.capacity, h.pending]

theorem Sheds.first_le {t u : DynamicTable} (h : Sheds t u) : t.first ≤ u.first := by
  obtain ⟨gone, he, -⟩ := h.entries
  unfold first
  rw [h.inserted, he, List.length_append]
  omega

theorem Sheds.agesTo {t u : DynamicTable} (h : Sheds t u) (ht : t.Valid) : t.AgesTo u := by
  refine ⟨Nat.le_of_eq h.inserted.symm, fun i _ f hf => ?_⟩
  obtain ⟨x, hx, hi, hf⟩ := (h.valid ht).field?_eq_some_iff.1 hf
  exact ht.field?_eq_some_iff.2 ⟨x, h.mem hx, hi, hf⟩

theorem Valid.evictOldest {t : DynamicTable} {e : Entry} {rest : List Entry} (h : t.Valid)
    (ht : t.entries = e :: rest) :
    Valid { t with
      entries := rest
      used := t.used - e.size
      byField := t.byField.forget e.field e.index
      byName := t.byName.forget e.field.name e.index } := by
  have hne : ∀ x ∈ rest, x.index ≠ e.index := by
    intro x hx hi
    obtain ⟨k, hk⟩ := List.getElem?_of_mem hx
    have h0 := h.position 0 e (by rw [ht]; rfl)
    have hk := h.position (k + 1) x (by rw [ht]; exact hk)
    omega
  have hf := h.byField
  have hn := h.byName
  have hu := h.used_eq
  have hl := h.used_le
  rw [ht] at hf hn
  rw [ht, roomOf_cons] at hu
  refine ⟨fun k x hx => ?_, ?_, ?_, hf.forget hne, hn.forget hne⟩
  · have hp := h.position (k + 1) x (by rw [ht]; exact hx)
    rw [ht, List.length_cons] at hp
    show x.index + rest.length = t.inserted + k
    omega
  · show t.used - e.size = roomOf rest
    omega
  · show t.used - e.size ≤ t.capacity
    omega

theorem sheds_of_evictOldest? {t u : DynamicTable} (h : t.evictOldest? = some u) : Sheds t u := by
  rw [evictOldest?] at h
  rcases ht : t.entries with _ | ⟨e, rest⟩
  · simp [ht] at h
  · simp only [ht] at h
    split at h
    · next he =>
      obtain rfl := Option.some.inj h
      exact ⟨⟨[e], ht, by simpa using he⟩, rfl, rfl, rfl, fun hv => hv.evictOldest ht⟩
    · cases h

theorem sheds_evictWhile (more : DynamicTable → Bool) (t : DynamicTable) : Sheds t (t.evictWhile more) := by
  fun_induction evictWhile more t with
  | case1 t _ u hu ih => exact (sheds_of_evictOldest? hu).trans ih
  | case2 t => exact Sheds.refl t
  | case3 t => exact Sheds.refl t

/-- Nothing can be evicted where nothing is, or where the oldest entry is in use. -/
theorem evictOldest?_eq_none_iff {t : DynamicTable} :
    t.evictOldest? = none ↔ ∀ x rest, t.entries = x :: rest → 0 < x.references := by
  unfold evictOldest?
  rcases ht : t.entries with _ | ⟨x, rest⟩
  · simp
  · by_cases hx : x.references = 0
    · simp [hx]
    · simp [hx, Nat.pos_of_ne_zero hx]

theorem evictWhile_of_evictOldest? {t u : DynamicTable} {more : DynamicTable → Bool} (hmore : more t = true)
    (hu : t.evictOldest? = some u) : t.evictWhile more = u.evictWhile more := by
  rw [evictWhile, if_pos hmore]
  split
  · next v hv =>
    rw [hu] at hv
    obtain rfl := Option.some.inj hv
    rfl
  · next hnone =>
    rw [hu] at hnone
    cases hnone

theorem evictWhile_eq_self {t : DynamicTable} (h : t.evictOldest? = none) (more : DynamicTable → Bool) :
    t.evictWhile more = t := by
  unfold evictWhile
  split
  · split
    · next u hu =>
      rw [h] at hu
      cases hu
    · rfl
  · rfl

theorem evictWhile_of_not {t : DynamicTable} {more : DynamicTable → Bool} (h : more t = false) :
    t.evictWhile more = t := by
  rw [evictWhile, h]
  exact if_neg Bool.false_ne_true

/-- Eviction goes on until it is not asked for any more, or nothing can be evicted. -/
theorem evictWhile_stops (more : DynamicTable → Bool) (t : DynamicTable) :
    more (t.evictWhile more) = false ∨ (t.evictWhile more).evictOldest? = none := by
  fun_induction evictWhile more t with
  | case1 t _ u hu ih => exact ih
  | case2 t _ hnone => exact Or.inr hnone
  | case3 t hmore => exact Or.inl (by simpa using hmore)

/-! ## Capacity -/

/-- A capacity waits only while the entries do not fit it. -/
def Waits (t : DynamicTable) : Prop := ∀ c, t.pending = some c → c < t.used

theorem Waits.pending_eq_none {t : DynamicTable} (h : t.Waits) (hs : 0 < t.space) : t.pending = none := by
  rcases hp : t.pending with _ | c
  · rfl
  · have hc := h c hp
    rw [space, target, hp, Option.getD_some] at hs
    omega

theorem applyPending_cases {t : DynamicTable} {c : Nat} (hp : t.pending = some c) :
    ∃ u, Sheds t u ∧ (c < u.used ∧ t.applyPending = u ∨
      u.used ≤ c ∧ t.applyPending = { u with capacity := c, pending := none }) := by
  refine ⟨t.evictWhile fun t => c < t.used, sheds_evictWhile _ t, ?_⟩
  by_cases hc : c < (t.evictWhile fun t => c < t.used).used
  · exact Or.inl ⟨hc, by simp only [applyPending, hp, if_pos hc]⟩
  · exact Or.inr ⟨Nat.le_of_not_lt hc, by simp only [applyPending, hp, if_neg hc]⟩

/-- A capacity that is asked for waits, or takes effect once enough entries have left. -/
theorem requestCapacity_cases (t : DynamicTable) (c : Nat) :
    ∃ u, Sheds { t with pending := some c } u ∧ (c < u.used ∧ t.requestCapacity c = (u, false) ∨
      u.used ≤ c ∧ t.requestCapacity c = ({ u with capacity := c, pending := none }, true)) := by
  obtain ⟨u, hu, hc⟩ := applyPending_cases (t := { t with pending := some c }) rfl
  refine ⟨u, hu, ?_⟩
  rcases hc with ⟨hc, he⟩ | ⟨hc, he⟩
  · exact Or.inl ⟨hc, by simp only [requestCapacity, he, hu.pending, Option.isNone_some]⟩
  · exact Or.inr ⟨hc, by simp only [requestCapacity, he, Option.isNone_none]⟩

/-- A table without entries can have any capacity at once. -/
theorem requestCapacity_empty (percent c : Nat) :
    (empty percent).requestCapacity c = ({ empty percent with capacity := c }, true) := by
  unfold requestCapacity applyPending
  dsimp only
  rw [evictWhile_eq_self (t := { empty percent with pending := some c }) rfl]
  rfl

/-- Nothing drains where the words find enough room. -/
theorem drainingIndex_of_threshold_le {t : DynamicTable} (h : t.threshold ≤ t.free) : t.drainingIndex = t.first := by
  have hcount : ∀ l, drainingCount t.threshold t.free l = 0 := by
    intro l
    cases l with
    | nil => rfl
    | cons x l => exact if_pos h
  unfold drainingIndex
  rw [hcount]
  rfl

/-- Where nothing drains and no capacity waits, draining does nothing. -/
theorem drain_eq_self {t : DynamicTable} (hzone : t.drainingIndex = t.first) (hp : t.pending = none) :
    t.drain = (t, none) := by
  have hstay : (t.evictWhile fun u => decide (u.first < t.drainingIndex)) = t :=
    evictWhile_of_not (decide_eq_false (hzone ▸ Nat.lt_irrefl _))
  unfold drain applyPending
  dsimp only
  rw [hstay, hp]
  rfl

/-- Draining sheds entries, and a waiting capacity takes effect as soon as it can. -/
theorem drain_cases (t : DynamicTable) :
    ∃ u, Sheds t u ∧ (u.Waits ∧ t.drain = (u, none) ∨
      ∃ c, t.pending = some c ∧ u.used ≤ c ∧
        t.drain = ({ u with capacity := c, pending := none }, some c)) := by
  have hd := sheds_evictWhile (fun u => decide (u.first < t.drainingIndex)) t
  rcases hp : t.pending with _ | c
  · have hp' := hd.pending.trans hp
    refine ⟨_, hd, Or.inl ⟨fun c hc => ?_, ?_⟩⟩
    · rw [hp'] at hc
      cases hc
    · simp only [drain, applyPending, hp', Option.isSome_none, Bool.false_and, Bool.false_eq_true,
        if_false]
  · have hp' := hd.pending.trans hp
    obtain ⟨u, hu, hc⟩ := applyPending_cases hp'
    refine ⟨u, hd.trans hu, ?_⟩
    rcases hc with ⟨hc, he⟩ | ⟨hc, he⟩
    · refine Or.inl ⟨fun c' hc' => ?_, ?_⟩
      · rw [hu.pending, hp'] at hc'
        obtain rfl := Option.some.inj hc'
        exact hc
      · simp only [drain, he, hu.pending, hp', Option.isNone_some, Bool.and_false, Bool.false_eq_true,
          if_false]
    · refine Or.inr ⟨c, rfl, hc, ?_⟩
      simp only [drain, he, hp', Option.isSome_some, Option.isNone_none, Bool.and_self, if_true]

section Waiting
variable {t : DynamicTable}

/-- A capacity waits only while the entries do not fit it, and the oldest of them cannot leave. -/
def WaitsInUse (t : DynamicTable) : Prop := ∀ c, t.pending = some c → c < t.used ∧ t.evictOldest? = none

theorem WaitsInUse.waits (h : t.WaitsInUse) : t.Waits := fun c hc => (h c hc).1

theorem waitsInUse_of_none (h : t.pending = none) : t.WaitsInUse := by
  intro c hc
  rw [h] at hc
  cases hc

/-- A waiting capacity is tried until nothing more can leave. -/
theorem waitsInUse_applyPending (t : DynamicTable) : t.applyPending.WaitsInUse := by
  unfold applyPending
  split
  · next hp => exact waitsInUse_of_none hp
  · next capacity hp =>
    dsimp only
    split
    · next hlt =>
      intro c hc
      rw [(sheds_evictWhile _ t).pending, hp] at hc
      obtain rfl := Option.some.inj hc
      rcases evictWhile_stops (fun u => decide (capacity < u.used)) t with hstop | hend
      · exact absurd hlt (of_decide_eq_false hstop)
      · exact ⟨hlt, hend⟩
    · exact waitsInUse_of_none rfl

theorem waitsInUse_requestCapacity (t : DynamicTable) (c : Nat) : (t.requestCapacity c).1.WaitsInUse :=
  waitsInUse_applyPending _

theorem waitsInUse_drain (t : DynamicTable) : t.drain.1.WaitsInUse := waitsInUse_applyPending _

theorem WaitsInUse.applyPending_eq (h : t.WaitsInUse) : t.applyPending = t := by
  unfold applyPending
  split
  · rfl
  · next c hp =>
    obtain ⟨hlt, hend⟩ := h c hp
    dsimp only
    rw [evictWhile_eq_self hend, if_pos hlt]

/-- A capacity that is too small waits where nothing can be evicted. -/
theorem requestCapacity_of_stuck {c : Nat} (hend : t.evictOldest? = none) (hc : c < t.used) :
    t.requestCapacity c = ({ t with pending := some c }, false) := by
  have hend' : evictOldest? { t with pending := some c } = none := by
    rw [evictOldest?_eq_none_iff] at hend ⊢
    exact hend
  have hwaits : WaitsInUse { t with pending := some c } := by
    intro c' hc'
    obtain rfl := Option.some.inj hc'
    exact ⟨hc, hend'⟩
  unfold requestCapacity
  rw [hwaits.applyPending_eq]
  rfl

end Waiting

/-! ## Insertion -/

/-- The table with one more entry, for which nothing leaves. -/
def append (t : DynamicTable) (f : Field) : DynamicTable :=
  { t with
    entries := t.entries ++ [⟨f, t.inserted, 0⟩]
    used := t.used + f.size
    inserted := t.inserted + 1
    byField := t.byField.record f t.inserted
    byName := t.byName.record f.name t.inserted }

section Append
variable (t : DynamicTable) (f : Field)

@[simp] theorem append_entries : (t.append f).entries = t.entries ++ [⟨f, t.inserted, 0⟩] := rfl

@[simp] theorem append_capacity : (t.append f).capacity = t.capacity := rfl

@[simp] theorem append_pending : (t.append f).pending = t.pending := rfl

@[simp] theorem append_used : (t.append f).used = t.used + f.size := rfl

@[simp] theorem append_inserted : (t.append f).inserted = t.inserted + 1 := rfl

end Append

theorem add_eq_append (t : DynamicTable) (f : Field) :
    t.add f = append (t.evictWhile fun t => decide (t.target < t.used + f.size)) f := rfl

/-- A new entry goes behind those that are left once there is room for it, or once no more can leave. -/
theorem add_cases (t : DynamicTable) (f : Field) :
    ∃ u, Sheds t u ∧ t.add f = u.append f ∧ (u.used + f.size ≤ u.target ∨ u.evictOldest? = none) := by
  refine ⟨_, sheds_evictWhile _ t, add_eq_append t f, ?_⟩
  rcases evictWhile_stops (fun u => decide (u.target < u.used + f.size)) t with hstop | hend
  · exact Or.inl (Nat.le_of_not_lt (of_decide_eq_false hstop))
  · exact Or.inr hend

theorem add_eq {t : DynamicTable} {f : Field} (hf : f.size ≤ t.space) : t.add f = t.append f := by
  have hs := overhead_le_size f
  have he : t.evictWhile (fun u => decide (u.target < u.used + f.size)) = t := by
    rw [evictWhile, if_neg]
    rw [space] at hf
    rw [Field.overhead] at hs
    simp only [decide_eq_true_eq]
    omega
  rw [add_eq_append, he]

theorem Valid.append {t : DynamicTable} {f : Field} (h : t.Valid) (hf : t.used + f.size ≤ t.capacity) :
    (t.append f).Valid := by
  have hle := h.length_le
  refine ⟨fun k x hx => ?_, ?_, hf, h.byField.record ⟨f, t.inserted, 0⟩, h.byName.record ⟨f, t.inserted, 0⟩⟩
  · rw [append_entries] at hx
    rw [append_entries, append_inserted, List.length_append, List.length_singleton]
    by_cases hk : k < t.entries.length
    · rw [List.getElem?_append_left hk] at hx
      have hp := h.position k x hx
      omega
    · rw [List.getElem?_append_right (by omega), List.getElem?_singleton] at hx
      split at hx
      · obtain rfl := Option.some.inj hx
        show t.inserted + (t.entries.length + 1) = t.inserted + 1 + k
        omega
      · cases hx
  · rw [append_used, append_entries, roomOf_append, h.used_eq]
    rfl

theorem Valid.add {t : DynamicTable} {f : Field} (h : t.Valid) (hw : t.Waits) (hf : f.size ≤ t.space) :
    (t.add f).Valid := by
  have hs := overhead_le_size f
  rw [Field.overhead] at hs
  have hp := hw.pending_eq_none (by omega)
  rw [add_eq hf]
  apply h.append
  rw [space, target, hp, Option.getD_none] at hf
  omega

theorem mem_add {t : DynamicTable} {f : Field} (hf : f.size ≤ t.space) {x : Entry} :
    x ∈ (t.add f).entries ↔ x ∈ t.entries ∨ x = ⟨f, t.inserted, 0⟩ := by
  rw [add_eq hf, append_entries, List.mem_append, List.mem_singleton]

theorem inserted_add {t : DynamicTable} {f : Field} (hf : f.size ≤ t.space) :
    (t.add f).inserted = t.inserted + 1 := by
  rw [add_eq hf, append_inserted]

/-- The new entry has the next index. -/
theorem Valid.field?_add_self {t : DynamicTable} {f : Field} (h : t.Valid) (hw : t.Waits)
    (hf : f.size ≤ t.space) : (t.add f).field? t.inserted = some f :=
  (h.add hw hf).field?_eq_some_iff.2 ⟨⟨f, t.inserted, 0⟩, (mem_add hf).2 (Or.inr rfl), rfl, rfl⟩

theorem Valid.agesTo_add {t : DynamicTable} {f : Field} (h : t.Valid) (hw : t.Waits)
    (hf : f.size ≤ t.space) : t.AgesTo (t.add f) := by
  refine ⟨by rw [inserted_add hf]; omega, fun i hi g hg => ?_⟩
  obtain ⟨x, hx, hxi, hxg⟩ := (h.add hw hf).field?_eq_some_iff.1 hg
  rcases (mem_add hf).1 hx with hx | rfl
  · exact h.field?_eq_some_iff.2 ⟨x, hx, hxi, hxg⟩
  · exact absurd hi (by rw [← hxi]; exact Nat.lt_irrefl _)

end DynamicTable
end Qpack
