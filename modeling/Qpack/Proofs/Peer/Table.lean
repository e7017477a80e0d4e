import Qpack.Peer.Table
import Qpack.Proofs.Encoder.Step

/-!
# What the peer's table does

* `fit_suffix`, `total_fit_le`, `suffix_fit` : `fit` keeps the longest part at the end that has room;
* `PeerTable.Valid` : the fields fit the capacity, and there are not more of them than insertions;
* `follow?_of_inserts` : an insertion is that of the field which the instruction brings;
* `ages_of_follow?`, `ages_of_followAll?` : instructions only age the table;
* `inserted_of_followAll?` : the insertions are counted.
-/

namespace Qpack.PeerTable

/-! ## What fits -/

theorem total_cons (f : Field) (l : List Field) : total (f :: l) = f.size + total l := rfl

theorem total_append (l l' : List Field) : total (l ++ l') = total l + total l' := by
  induction l with
  | nil => rw [List.nil_append, show total [] = 0 from rfl, Nat.zero_add]
  | cons f l ih => rw [List.cons_append, total_cons, total_cons, ih, Nat.add_assoc]

theorem fit_suffix (room : Nat) (l : List Field) : fit room l <:+ l := by
  induction l with
  | nil => exact List.suffix_rfl
  | cons f l ih =>
    rw [fit]
    split
    · exact List.suffix_rfl
    · exact ih.trans (List.suffix_cons f l)

theorem total_fit_le (room : Nat) (l : List Field) : total (fit room l) ≤ room := by
  induction l with
  | nil => exact Nat.zero_le room
  | cons f l ih =>
    rw [fit]
    split
    · next h => exact h
    · exact ih

theorem suffix_fit {room : Nat} {tail l : List Field} (h : tail <:+ l) (ht : total tail ≤ room) :
    tail <:+ fit room l := by
  induction l with
  | nil => exact h
  | cons f l ih =>
    rw [fit]
    split
    · exact h
    · next hno =>
      rcases List.suffix_cons_iff.1 h with rfl | h
      · exact absurd ht hno
      · exact ih h

/-! ## Valid tables -/

/-- The fields fit the capacity, and each of them was inserted. -/
structure Valid (t : PeerTable) : Prop where
  length_le : t.fields.length ≤ t.inserted
  total_le : total t.fields ≤ t.capacity

theorem Valid.empty (maxCapacity : Nat) : (PeerTable.empty maxCapacity).Valid :=
  ⟨Nat.le_refl 0, Nat.le_refl 0⟩

/-- An index finds the field at its distance from the insert count. -/
theorem Valid.field?_eq_some_iff {t : PeerTable} (h : t.Valid) {i : Nat} {f : Field} :
    t.field? i = some f ↔ ∃ k, t.fields[k]? = some f ∧ i + t.fields.length = t.inserted + k := by
  have hle := h.length_le
  rw [field?, first]
  constructor
  · intro hf
    split at hf
    · cases hf
    · exact ⟨_, hf, by omega⟩
  · rintro ⟨k, hk, hi⟩
    rw [if_neg (by omega), show i - (t.inserted - t.fields.length) = k by omega, hk]

/-- Behind fewer old fields, the newer ones keep their indices. -/
theorem Valid.ages_of_suffix {t u : PeerTable} (ht : t.Valid) (hu : u.Valid) (hn : u.inserted = t.inserted)
    (hs : u.fields <:+ t.fields) : Ages t.inserted t.field? u.inserted u.field? := by
  refine ⟨Nat.le_of_eq hn.symm, fun i _ f hf => ?_⟩
  obtain ⟨older, he⟩ := hs
  obtain ⟨k, hk, hi⟩ := hu.field?_eq_some_iff.1 hf
  refine ht.field?_eq_some_iff.2 ⟨older.length + k, ?_, ?_⟩
  · rw [← he, List.getElem?_append_right (Nat.le_add_right _ _), Nat.add_sub_cancel_left, hk]
  · rw [← he, List.length_append, ← hn]
    omega

/-! ## Instructions -/

section Follow
variable {t u : PeerTable} {f : Field} {i : Instruction}

/-- An insertion is that of the field which the instruction brings. -/
theorem follow?_of_inserts (hi : i.inserts = true) :
    t.follow? i = (i.field? t.inserted t.field?).bind t.insert? := by
  rcases i with c | ⟨⟨index⟩ | ⟨distance⟩, huffman, value⟩ | _ | distance
  · cases hi
  · rw [follow?, Instruction.field?, Option.bind_map]
    rfl
  · rw [follow?, Instruction.field?, Option.bind_map]
    rfl
  · rfl
  · rfl

theorem inserts_of_field? {n : Nat} {look : Nat → Option Field} (h : i.field? n look = some f) :
    i.inserts = true := by
  cases i with
  | setCapacity c => cases h
  | _ => rfl

/-- An instruction sets the capacity, or it inserts a field that fits. -/
theorem follow?_cases (hu : t.follow? i = some u) :
    (∃ c, i = .setCapacity c ∧ c ≤ t.maxCapacity ∧ u = { t with capacity := c, fields := fit c t.fields }) ∨
    ∃ f, i.field? t.inserted t.field? = some f ∧ f.size ≤ t.capacity ∧
      u = { t with fields := fit (t.capacity - f.size) t.fields ++ [f], inserted := t.inserted + 1 } := by
  by_cases hi : i.inserts = true
  · rw [follow?_of_inserts hi] at hu
    obtain ⟨f, hf, hu⟩ := Option.bind_eq_some_iff.1 hu
    rw [insert?] at hu
    split at hu
    · cases hu
    · next hle => exact Or.inr ⟨f, hf, Nat.le_of_not_lt hle, (Option.some.inj hu).symm⟩
  · cases i with
    | setCapacity c =>
      rw [follow?] at hu
      split at hu
      · cases hu
      · next hle => exact Or.inl ⟨c, rfl, Nat.le_of_not_lt hle, (Option.some.inj hu).symm⟩
    | _ => exact absurd rfl hi

theorem Valid.follow? (h : t.Valid) (hu : t.follow? i = some u) : u.Valid := by
  rcases follow?_cases hu with ⟨c, rfl, -, rfl⟩ | ⟨f, -, hf, rfl⟩
  · exact ⟨Nat.le_trans (fit_suffix c t.fields).length_le h.length_le, total_fit_le c t.fields⟩
  · have hlen := (fit_suffix (t.capacity - f.size) t.fields).length_le
    have htotal := total_fit_le (t.capacity - f.size) t.fields
    refine ⟨?_, ?_⟩
    · show (fit _ t.fields ++ [f]).length ≤ t.inserted + 1
      rw [List.length_append, List.length_singleton]
      exact Nat.succ_le_succ (Nat.le_trans hlen h.length_le)
    · show total (fit _ t.fields ++ [f]) ≤ t.capacity
      rw [total_append]
      show _ + f.size ≤ t.capacity
      omega

/-- Instructions move old fields out and new ones in, and leave the rest at their indices. -/
theorem Valid.ages_of_follow? (h : t.Valid) (hu : t.follow? i = some u) :
    Ages t.inserted t.field? u.inserted u.field? := by
  have hvalid := h.follow? hu
  rcases follow?_cases hu with ⟨c, rfl, -, rfl⟩ | ⟨f, -, -, rfl⟩
  · exact h.ages_of_suffix hvalid rfl (fit_suffix c t.fields)
  · refine ⟨Nat.le_succ _, fun j hj g hg => ?_⟩
    obtain ⟨older, he⟩ := fit_suffix (t.capacity - f.size) t.fields
    obtain ⟨k, hk, hjk⟩ := hvalid.field?_eq_some_iff.1 hg
    change (fit _ t.fields ++ [f])[k]? = some g at hk
    change j + (fit _ t.fields ++ [f]).length = t.inserted + 1 + k at hjk
    rw [List.length_append, List.length_singleton] at hjk
    -- the index is below the new one, so the field is one that stayed
    rw [List.getElem?_append_left (by omega)] at hk
    refine h.field?_eq_some_iff.2 ⟨older.length + k, ?_, ?_⟩
    · rw [← he, List.getElem?_append_right (Nat.le_add_right _ _), Nat.add_sub_cancel_left, hk]
    · have hlen := congrArg List.length he
      rw [List.length_append] at hlen
      omega

theorem inserted_of_follow? (hu : t.follow? i = some u) :
    u.inserted = t.inserted + if i.inserts then 1 else 0 := by
  rcases follow?_cases hu with ⟨c, rfl, -, rfl⟩ | ⟨f, hf, -, rfl⟩
  · rfl
  · rw [if_pos (inserts_of_field? hf)]

theorem maxCapacity_of_follow? (hu : t.follow? i = some u) : u.maxCapacity = t.maxCapacity := by
  rcases follow?_cases hu with ⟨c, rfl, -, rfl⟩ | ⟨f, -, -, rfl⟩
  · rfl
  · rfl

/-! ## Several instructions -/

theorem followAll?_cons (t : PeerTable) (i : Instruction) (list : List Instruction) :
    t.followAll? (i :: list) = (t.follow? i).bind fun u => u.followAll? list := by
  rw [followAll?, List.foldlM_cons]
  rfl

theorem followAll?_singleton (t : PeerTable) (i : Instruction) : t.followAll? [i] = t.follow? i := by
  rw [followAll?_cons]
  exact Option.bind_fun_some _

theorem followAll?_append (t : PeerTable) (list more : List Instruction) :
    t.followAll? (list ++ more) = (t.followAll? list).bind fun u => u.followAll? more := by
  rw [followAll?, List.foldlM_append]
  rfl

theorem Valid.followAll? {list : List Instruction} (h : t.Valid) (hu : t.followAll? list = some u) :
    u.Valid := by
  induction list generalizing t with
  | nil =>
    obtain rfl := Option.some.inj hu
    exact h
  | cons i list ih =>
    rw [followAll?_cons] at hu
    obtain ⟨v, hv, hu⟩ := Option.bind_eq_some_iff.1 hu
    exact ih (h.follow? hv) hu

theorem Valid.ages_of_followAll? {list : List Instruction} (h : t.Valid) (hu : t.followAll? list = some u) :
    Ages t.inserted t.field? u.inserted u.field? := by
  induction list generalizing t with
  | nil =>
    obtain rfl := Option.some.inj hu
    exact Ages.refl _ _
  | cons i list ih =>
    rw [followAll?_cons] at hu
    obtain ⟨v, hv, hu⟩ := Option.bind_eq_some_iff.1 hu
    exact (h.ages_of_follow? hv).trans (ih (h.follow? hv) hu)

theorem inserted_of_followAll? {list : List Instruction} (hu : t.followAll? list = some u) :
    u.inserted = t.inserted + list.countP Instruction.inserts := by
  induction list generalizing t with
  | nil =>
    obtain rfl := Option.some.inj hu
    rfl
  | cons i list ih =>
    rw [followAll?_cons] at hu
    obtain ⟨v, hv, hu⟩ := Option.bind_eq_some_iff.1 hu
    rw [ih hu, inserted_of_follow? hv, List.countP_cons]
    omega

theorem maxCapacity_of_followAll? {list : List Instruction} (hu : t.followAll? list = some u) :
    u.maxCapacity = t.maxCapacity := by
  induction list generalizing t with
  | nil =>
    obtain rfl := Option.some.inj hu
    rfl
  | cons i list ih =>
    rw [followAll?_cons] at hu
    obtain ⟨v, hv, hu⟩ := Option.bind_eq_some_iff.1 hu
    exact (ih hu).trans (maxCapacity_of_follow? hv)

end Follow
end Qpack.PeerTable
