import Qpack.Proofs.Table.Operation
import Mathlib.Data.List.Induction
import Mathlib.Order.Bounds.Basic

/-!
# What the lookups find

* `DynamicTable.indices`, `StaticTable.indices` : where the entries of a kind are;
* `IsNewest s i?` : an answer is the greatest of the indices `s`, and none if there are none;
* `IsBest static dynamic r?` : an answer is the least static index, else the newest dynamic one;
* `lastIndex_eq_some_iff`, `Tracks.isNewest` : the last entry of a kind is the newest;
* `FindsNewest`, `Reachable.findsNewest` : so it is with all lookups, after any operations.
-/

namespace Qpack

/-- The indices of the static table that hold a field of a kind. -/
def StaticTable.indices (p : Field → Prop) : Set Nat := {j | ∃ f, field? j = some f ∧ p f}

/-- The indices of the entries that have a field of a kind. -/
def DynamicTable.indices (t : DynamicTable) (p : Field → Prop) : Set Nat :=
  {i | ∃ x ∈ t.entries, x.index = i ∧ p x.field}

/-- An answer is the newest of some indices. There is none only if there are no indices. -/
structure IsNewest (s : Set Nat) (i? : Option Nat) : Prop where
  some_iff : ∀ i, i? = some i ↔ IsGreatest s i
  none_iff : i? = none ↔ s = ∅

/-- An answer is the first static index, and if there is none of these, the newest dynamic one. -/
structure IsBest (static dynamic : Set Nat) (r? : Option EntryRef) : Prop where
  static_iff : ∀ j, r? = some (.static j) ↔ IsLeast static j
  dynamic_iff : ∀ i, r? = some (.dynamic i) ↔ static = ∅ ∧ IsGreatest dynamic i
  none_iff : r? = none ↔ static = ∅ ∧ dynamic = ∅

/-! ## The newest entry -/

theorem lastIndex_eq_none_iff {p : Entry → Bool} {l : List Entry} :
    lastIndex p l = none ↔ ∀ x ∈ l, p x = false := by
  simp [lastIndex]

/-- Where the indices ascend, the last entry of a kind has the greatest index of that kind. -/
theorem lastIndex_eq_some_iff {p : Entry → Bool} {l : List Entry} (h : (l.map Entry.index).Pairwise (· < ·))
    (i : Nat) : lastIndex p l = some i ↔ IsGreatest {j | ∃ x ∈ l, x.index = j ∧ p x = true} i := by
  induction l using List.reverseRecOn with
  | nil => simp [lastIndex, IsGreatest]
  | append_singleton l y ih =>
    rw [List.map_append, List.pairwise_append] at h
    obtain ⟨hl, -, hlt⟩ := h
    have hbelow : ∀ x ∈ l, x.index < y.index := fun x hx => hlt _ (List.mem_map_of_mem hx) _ (by simp)
    rw [lastIndex_append]
    by_cases hy : p y = true
    · have hgreatest : IsGreatest {j | ∃ x ∈ l ++ [y], x.index = j ∧ p x = true} y.index := by
        refine ⟨⟨y, by simp, rfl, hy⟩, ?_⟩
        rintro j ⟨x, hx, rfl, -⟩
        rcases List.mem_append.1 hx with hx | hx
        · exact Nat.le_of_lt (hbelow x hx)
        · rw [List.mem_singleton.1 hx]
      rw [if_pos hy, Option.some_inj]
      constructor
      · rintro rfl
        exact hgreatest
      · intro hi
        exact hgreatest.unique hi
    · have hsame : {j | ∃ x ∈ l ++ [y], x.index = j ∧ p x = true} = {j | ∃ x ∈ l, x.index = j ∧ p x = true} := by
        ext j
        constructor
        · rintro ⟨x, hx, hj, hp⟩
          rcases List.mem_append.1 hx with hx | hx
          · exact ⟨x, hx, hj, hp⟩
          · rw [List.mem_singleton.1 hx] at hp
            exact absurd hp hy
        · rintro ⟨x, hx, hj, hp⟩
          exact ⟨x, List.mem_append_left _ hx, hj, hp⟩
      rw [if_neg hy, hsame, ih hl]

/-- A lookup by a key gives the newest entry with that key. -/
theorem Tracks.isNewest {α : Type} [DecidableEq α] {m : Newest α} {key : Entry → α} {l : List Entry}
    (h : Tracks m key l) (hl : (l.map Entry.index).Pairwise (· < ·)) (a : α) :
    IsNewest {j | ∃ x ∈ l, x.index = j ∧ key x = a} (m.index? a) := by
  rw [h.index]
  refine ⟨fun i => ?_, ?_⟩
  · rw [lastIndex_eq_some_iff hl]
    simp only [decide_eq_true_eq]
  · rw [lastIndex_eq_none_iff, Set.eq_empty_iff_forall_notMem]
    constructor
    · rintro hnone j ⟨x, hx, -, hkey⟩
      exact of_decide_eq_false (hnone x hx) hkey
    · intro hempty x hx
      exact decide_eq_false fun hkey => hempty x.index ⟨x, hx, rfl, hkey⟩

namespace DynamicTable
variable {t : DynamicTable}

theorem Valid.ascending (h : t.Valid) : (t.entries.map Entry.index).Pairwise (· < ·) := by
  rw [h.map_index]
  exact List.pairwise_lt_range'

theorem Valid.isNewest_find? (h : t.Valid) (f : Field) : IsNewest (t.indices (· = f)) (t.find? f) :=
  h.byField.isNewest h.ascending f

theorem Valid.isNewest_findName? (h : t.Valid) (name : Octets) :
    IsNewest (t.indices (·.name = name)) (t.findName? name) :=
  h.byName.isNewest h.ascending name

end DynamicTable

/-! ## The first static entry -/

theorem StaticTable.findIdx?_eq_some_iff (p : Field → Bool) (j : Nat) :
    fields.findIdx? p = some j ↔ IsLeast (indices (p · = true)) j := by
  rw [List.findIdx?_eq_some_iff_getElem]
  constructor
  · rintro ⟨hj, hp, hfirst⟩
    refine ⟨⟨fields[j], List.getElem?_eq_getElem hj, hp⟩, ?_⟩
    rintro k ⟨f, hf, hpf⟩
    by_contra hlt
    obtain ⟨hk, rfl⟩ := List.getElem?_eq_some_iff.1 hf
    exact hfirst k (Nat.lt_of_not_le hlt) hpf
  · rintro ⟨⟨f, hf, hp⟩, hleast⟩
    obtain ⟨hj, rfl⟩ := List.getElem?_eq_some_iff.1 hf
    refine ⟨hj, hp, fun k hk hpk => ?_⟩
    have hle := hleast ⟨_, List.getElem?_eq_getElem (hk.trans hj), hpk⟩
    exact absurd hk (Nat.not_lt.2 hle)

theorem StaticTable.findIdx?_eq_none_iff (p : Field → Bool) :
    fields.findIdx? p = none ↔ indices (p · = true) = ∅ := by
  rw [List.findIdx?_eq_none_iff, Set.eq_empty_iff_forall_notMem]
  constructor
  · rintro hnone j ⟨f, hf, hp⟩
    rw [hnone f (List.mem_of_getElem? hf)] at hp
    cases hp
  · intro hempty f hf
    obtain ⟨j, hj⟩ := List.getElem?_of_mem hf
    exact Bool.eq_false_iff.2 fun hp => hempty j ⟨f, hj, hp⟩

/-! ## Both tables -/

/-- The static table is asked first. -/
theorem isBest_or {p : Field → Bool} {dynamic : Set Nat} {i? : Option Nat} (h : IsNewest dynamic i?) :
    IsBest (StaticTable.indices (p · = true)) dynamic
      (((StaticTable.fields.findIdx? p).map EntryRef.static).or (i?.map EntryRef.dynamic)) := by
  have hsome := StaticTable.findIdx?_eq_some_iff p
  have hnone := StaticTable.findIdx?_eq_none_iff p
  rcases hj : StaticTable.fields.findIdx? p with _ | j
  · rw [hj] at hnone
    have hempty := hnone.1 rfl
    refine ⟨fun j => ?_, fun i => ?_, ?_⟩
    · rw [hempty]
      simp [IsLeast]
    · rw [← h.some_iff]
      simp [hempty]
    · rw [← h.none_iff]
      simp [hempty]
  · have hleast := (hsome j).1 hj
    have hfull : StaticTable.indices (p · = true) ≠ ∅ := Set.nonempty_iff_ne_empty.1 ⟨j, hleast.1⟩
    refine ⟨fun k => ?_, fun i => ?_, ?_⟩
    · rw [← hsome, hj]
      simp
    · simp [hfull]
    · simp [hfull]

namespace DynamicTable
variable {t : DynamicTable}

theorem Valid.isBest_lookup (h : t.Valid) (f : Field) :
    IsBest (StaticTable.indices (· = f)) (t.indices (· = f)) (t.lookup f) := by
  have hbest := isBest_or (p := (· == f)) (h.isNewest_find? f)
  simp only [beq_iff_eq] at hbest
  exact hbest

theorem Valid.isBest_lookupName (h : t.Valid) (name : Octets) :
    IsBest (StaticTable.indices (·.name = name)) (t.indices (·.name = name)) (t.lookupName name) := by
  have hbest := isBest_or (p := (·.name == name)) (h.isNewest_findName? name)
  simp only [beq_iff_eq] at hbest
  exact hbest

/-! ## All tables -/

/-- The lookups find the newest of the entries that are there, and a static one in place of it. -/
structure FindsNewest (t : DynamicTable) : Prop where
  find? : ∀ f, IsNewest (t.indices (· = f)) (t.find? f)
  findName? : ∀ name, IsNewest (t.indices (·.name = name)) (t.findName? name)
  /-- What is found has not left the table. -/
  contains : ∀ i, (∃ f, t.find? f = some i) ∨ (∃ name, t.findName? name = some i) → t.contains i = true
  lookup : ∀ f, IsBest (StaticTable.indices (· = f)) (t.indices (· = f)) (t.lookup f)
  lookupName : ∀ name,
    IsBest (StaticTable.indices (·.name = name)) (t.indices (·.name = name)) (t.lookupName name)

theorem Valid.contains_of_isGreatest (h : t.Valid) {p : Field → Prop} {i : Nat} (hi : IsGreatest (t.indices p) i) :
    t.contains i = true := by
  obtain ⟨x, hx, hindex, -⟩ := hi.1
  exact h.contains_iff.2 ⟨x, hx, hindex⟩

/-- After any operations, the lookups agree with the entries. -/
theorem Reachable.findsNewest (h : t.Reachable) : t.FindsNewest where
  find? := h.valid.1.isNewest_find?
  findName? := h.valid.1.isNewest_findName?
  contains := by
    rintro i (⟨f, hi⟩ | ⟨name, hi⟩)
    · exact h.valid.1.contains_of_isGreatest ((h.valid.1.isNewest_find? f).some_iff i |>.1 hi)
    · exact h.valid.1.contains_of_isGreatest ((h.valid.1.isNewest_findName? name).some_iff i |>.1 hi)
  lookup := h.valid.1.isBest_lookup
  lookupName := h.valid.1.isBest_lookupName

/-- A field twice, of which the older copy has left, another with its name, and one that is static as well. -/
def copied : DynamicTable :=
  (empty 0).run [.requestCapacity 200, .add ⟨[97], [49]⟩, .add ⟨[97], [49]⟩, .add ⟨[97], [50]⟩,
    .add (Field.ofText ":method" "GET"), .refer 1, .requestCapacity 120]

theorem copied_findsNewest : copied.Reachable ∧ copied.FindsNewest ∧
    copied.entries.map Entry.index = [1, 2, 3] ∧
    copied.find? ⟨[97], [49]⟩ = some 1 ∧ copied.findName? [97] = some 2 ∧ copied.find? ⟨[97], [51]⟩ = none ∧
    copied.lookup ⟨[97], [50]⟩ = some (.dynamic 2) ∧
    copied.lookup (Field.ofText ":method" "GET") = some (.static 17) := by
  have hr : copied.Reachable := (Reachable.empty 0).run (by decide +kernel)
  exact ⟨hr, hr.findsNewest, by decide +kernel, by decide +kernel, by decide +kernel, by decide +kernel,
    by decide +kernel, by decide +kernel⟩

end DynamicTable
end Qpack
