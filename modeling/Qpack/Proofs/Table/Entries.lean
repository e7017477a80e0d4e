import Qpack.Table.Draining
import Mathlib.Algebra.Ring.Nat
import Mathlib.Data.List.Basic
import Mathlib.Data.List.Nodup

/-!
# Tables whose parts agree

* `Newest.Distinct m` : no key has two indices; `Distinct.record`, `Distinct.forget` keep it so;
* `index?_record`, `index?_forget` : what is read after a change, for every key;
* `DynamicTable.Valid t` : consecutive indices up to the insert count, the sum of the sizes within the
  capacity, and lookups that give the newest entry (`Tracks`);
* `entry?_eq_some_iff`, `field?_eq_some_iff`, `contains_iff` : an index finds the entry that carries it;
* `find?_field`, `findName?_field` : a lookup finds an entry with that field or name;
* `modify_eq` : a change by index, as a change of all entries.
-/

/-! ## The newest index after a change -/

namespace Qpack.Newest
variable {α : Type}

def Distinct (m : Newest α) : Prop := (m.map (·.1)).Nodup

theorem distinct_nil : Distinct ([] : Newest α) := List.nodup_nil

variable [DecidableEq α]

theorem Distinct.forget {m : Newest α} (h : Distinct m) (key : α) (index : Nat) :
    Distinct (m.forget key index) :=
  List.Nodup.sublist (List.Sublist.map _ List.filter_sublist) h

theorem Distinct.record {m : Newest α} (h : Distinct m) (key : α) (index : Nat) :
    Distinct (m.record key index) := by
  rw [Distinct, Newest.record, List.map_cons, List.nodup_cons]
  refine ⟨?_, List.Nodup.sublist (List.Sublist.map _ List.filter_sublist) h⟩
  simp

theorem index?_record (m : Newest α) (key other : α) (index : Nat) :
    (m.record key index).index? other = if other = key then some index else m.index? other := by
  by_cases hk : other = key
  · rw [if_pos hk, hk]
    simp [index?, Newest.record]
  · rw [if_neg hk, index?, index?, Newest.record, List.find?_cons_of_neg (by simpa using Ne.symm hk),
      List.find?_filter]
    congr 2
    funext p
    by_cases hp : p.1 = other
    · simp [hp, hk]
    · simp [hp]

theorem index?_eq_some_iff {m : Newest α} (h : Distinct m) (key : α) (index : Nat) :
    m.index? key = some index ↔ (key, index) ∈ m := by
  rw [index?, Option.map_eq_some_iff]
  constructor
  · rintro ⟨⟨k, i⟩, hf, rfl⟩
    have hk : k = key := by simpa using List.find?_some hf
    rw [← hk]
    exact List.mem_of_find?_eq_some hf
  · intro hm
    rcases hf : m.find? (·.1 = key) with _ | ⟨k, i⟩
    · simpa using List.find?_eq_none.1 hf _ hm
    · have hk : k = key := by simpa using List.find?_some hf
      have hmem := List.mem_of_find?_eq_some hf
      exact ⟨(k, i), hf, congrArg Prod.snd (List.inj_on_of_nodup_map h hmem hm hk)⟩

/-- Dropping an index that is not the newest of its key changes nothing. -/
theorem index?_forget {m : Newest α} (h : Distinct m) (key other : α) (index : Nat) :
    (m.forget key index).index? other =
      if other = key ∧ m.index? key = some index then none else m.index? other := by
  apply Option.ext
  intro i
  rw [index?_eq_some_iff (h.forget key index), Newest.forget, List.mem_filter,
    ← index?_eq_some_iff h]
  split_ifs with hc
  · obtain ⟨rfl, hi⟩ := hc
    rw [hi]
    constructor
    · rintro ⟨hj, hne⟩
      obtain rfl : index = i := Option.some.inj hj
      exact absurd rfl (of_decide_eq_true hne)
    · intro hj
      cases hj
  · simp only [decide_eq_true_eq, ne_eq, Prod.mk.injEq, and_iff_left_iff_imp]
    rintro hi ⟨rfl, rfl⟩
    exact hc ⟨rfl, hi⟩

end Qpack.Newest

namespace Qpack

/-! ## The last entry of a kind -/

/-- The index of the last entry that satisfies `p`. -/
def lastIndex (p : Entry → Bool) (l : List Entry) : Option Nat := (l.filter p).getLast?.map Entry.index

theorem lastIndex_append (p : Entry → Bool) (l : List Entry) (x : Entry) :
    lastIndex p (l ++ [x]) = if p x then some x.index else lastIndex p l := by
  rw [lastIndex, lastIndex, List.filter_append]
  by_cases hx : p x = true
  · rw [if_pos hx, List.filter_cons_of_pos hx, List.filter_nil, List.getLast?_concat]
    rfl
  · rw [if_neg hx, List.filter_cons_of_neg hx, List.filter_nil, List.append_nil]

theorem lastIndex_cons (p : Entry → Bool) (e : Entry) (l : List Entry) :
    lastIndex p (e :: l) = (lastIndex p l).or (if p e then some e.index else none) := by
  unfold lastIndex
  by_cases he : p e = true
  · rw [if_pos he, List.filter_cons_of_pos he, List.getLast?_cons]
    rcases (l.filter p).getLast? with _ | x
    · rfl
    · rfl
  · rw [if_neg he, List.filter_cons_of_neg he, Option.or_none]

theorem exists_of_lastIndex {p : Entry → Bool} {l : List Entry} {i : Nat} (h : lastIndex p l = some i) :
    ∃ x ∈ l, x.index = i ∧ p x = true := by
  obtain ⟨x, hx, rfl⟩ := Option.map_eq_some_iff.1 h
  obtain ⟨hmem, hp⟩ := List.mem_filter.1 (List.mem_of_getLast? hx)
  exact ⟨x, hmem, rfl, hp⟩

section Tracks
variable {α : Type} [DecidableEq α] {m : Newest α} {key : Entry → α} {l : List Entry}

/-- The lookup `m` gives for each key the last of the entries `l` with that key. -/
structure Tracks (m : Newest α) (key : Entry → α) (l : List Entry) : Prop where
  distinct : m.Distinct
  index : ∀ a, m.index? a = lastIndex (key · = a) l

theorem Tracks.nil (key : Entry → α) : Tracks [] key [] := ⟨Newest.distinct_nil, fun _ => rfl⟩

theorem Tracks.record (h : Tracks m key l) (x : Entry) :
    Tracks (m.record (key x) x.index) key (l ++ [x]) := by
  refine ⟨h.distinct.record _ _, fun a => ?_⟩
  rw [Newest.index?_record, lastIndex_append, h.index]
  by_cases ha : a = key x
  · rw [if_pos ha, if_pos (decide_eq_true ha.symm)]
  · rw [if_neg ha, if_neg (by simpa using Ne.symm ha)]

theorem Tracks.forget {e : Entry} (h : Tracks m key (e :: l)) (hne : ∀ x ∈ l, x.index ≠ e.index) :
    Tracks (m.forget (key e) e.index) key l := by
  refine ⟨h.distinct.forget _ _, fun a => ?_⟩
  rw [Newest.index?_forget h.distinct, h.index, h.index, lastIndex_cons, lastIndex_cons]
  by_cases ha : a = key e
  · subst ha
    rcases hl : lastIndex (key · = key e) l with _ | j
    · simp
    · obtain ⟨x, hx, rfl, -⟩ := exists_of_lastIndex hl
      simp [hne x hx]
  · simp [ha, Ne.symm ha]

theorem Tracks.map (h : Tracks m key l) {change : Entry → Entry} (hk : ∀ x, key (change x) = key x)
    (hi : ∀ x, (change x).index = x.index) : Tracks m key (l.map change) := by
  refine ⟨h.distinct, fun a => ?_⟩
  rw [h.index, lastIndex, lastIndex, List.filter_map, List.getLast?_map, Option.map_map]
  simp only [Function.comp_def, hk, hi]

end Tracks

/-! ## Valid tables -/

/-- The room that entries take together. -/
def roomOf (l : List Entry) : Nat := l.foldr (·.size + ·) 0

theorem roomOf_cons (e : Entry) (l : List Entry) : roomOf (e :: l) = e.size + roomOf l := rfl

theorem roomOf_append (l l' : List Entry) : roomOf (l ++ l') = roomOf l + roomOf l' := by
  induction l with
  | nil => rw [List.nil_append, show roomOf [] = 0 from rfl, Nat.zero_add]
  | cons e l ih => rw [List.cons_append, roomOf_cons, roomOf_cons, ih, Nat.add_assoc]

theorem overhead_le_size (f : Field) : Field.overhead ≤ f.size := Nat.le_add_left _ _

theorem length_le_roomOf (l : List Entry) : Field.overhead * l.length ≤ roomOf l := by
  induction l with
  | nil => exact Nat.zero_le _
  | cons e l ih =>
    have he : Field.overhead ≤ e.size := overhead_le_size e.field
    rw [roomOf_cons, List.length_cons, Nat.mul_succ]
    omega

namespace DynamicTable

/-- The parts of a table agree with its entries. -/
structure Valid (t : DynamicTable) : Prop where
  /-- The indices are consecutive and end before the next one. -/
  position : ∀ k x, t.entries[k]? = some x → x.index + t.entries.length = t.inserted + k
  used_eq : t.used = roomOf t.entries
  used_le : t.used ≤ t.capacity
  byField : Tracks t.byField Entry.field t.entries
  byName : Tracks t.byName (·.field.name) t.entries

/-- The field of the entry with an absolute index. -/
def field? (t : DynamicTable) (index : Nat) : Option Field := t.entry? index |>.map Entry.field

theorem Valid.empty (percent : Nat) : (DynamicTable.empty percent).Valid := by
  refine ⟨fun k x hx => ?_, rfl, Nat.le_refl _, Tracks.nil _, Tracks.nil _⟩
  cases hx

section Valid
variable {t : DynamicTable} (h : t.Valid)
include h

theorem Valid.length_le : t.entries.length ≤ t.inserted := by
  rcases ht : t.entries with _ | ⟨e, l⟩
  · exact Nat.zero_le _
  · have h0 := h.position 0 e (by rw [ht]; rfl)
    rw [ht] at h0
    omega

theorem Valid.exists_position {x : Entry} (hx : x ∈ t.entries) :
    ∃ k, t.entries[k]? = some x ∧ k < t.entries.length ∧ x.index = t.first + k := by
  obtain ⟨k, hk, rfl⟩ := List.getElem_of_mem hx
  have hp := h.position k _ (List.getElem?_eq_getElem hk)
  have hle := h.length_le
  exact ⟨k, List.getElem?_eq_getElem hk, hk, by rw [first]; omega⟩

theorem Valid.index_lt {x : Entry} (hx : x ∈ t.entries) : x.index < t.inserted := by
  obtain ⟨k, -, hk, hi⟩ := h.exists_position hx
  have hle := h.length_le
  rw [hi, first]
  omega

/-- The oldest entry has the first index. -/
theorem Valid.index_head {x : Entry} {rest : List Entry} (ht : t.entries = x :: rest) : x.index = t.first := by
  have h0 := h.position 0 x (by rw [ht]; rfl)
  rw [first]
  omega

theorem Valid.inserted_le {x : Entry} (hx : x ∈ t.entries) :
    t.inserted ≤ x.index + t.entries.length := by
  obtain ⟨k, -, hk, hi⟩ := h.exists_position hx
  rw [hi, first]
  omega

theorem Valid.entry?_eq_some_iff {i : Nat} {x : Entry} :
    t.entry? i = some x ↔ x ∈ t.entries ∧ x.index = i := by
  have hle := h.length_le
  constructor
  · intro hx
    unfold entry? at hx
    split at hx
    · cases hx
    · next hi =>
      have hp := h.position _ x hx
      rw [first] at hi hp
      exact ⟨List.mem_of_getElem? hx, by omega⟩
  · rintro ⟨hx, rfl⟩
    obtain ⟨k, hk, -, hi⟩ := h.exists_position hx
    unfold entry?
    rw [if_neg (by omega), hi, Nat.add_sub_cancel_left, hk]

theorem Valid.contains_iff {i : Nat} : t.contains i = true ↔ ∃ x ∈ t.entries, x.index = i := by
  rw [contains, Option.isSome_iff_exists]
  constructor
  · rintro ⟨x, hx⟩
    exact ⟨x, h.entry?_eq_some_iff.1 hx⟩
  · rintro ⟨x, hx⟩
    exact ⟨x, h.entry?_eq_some_iff.2 hx⟩

theorem Valid.field?_eq_some_iff {i : Nat} {f : Field} :
    t.field? i = some f ↔ ∃ x ∈ t.entries, x.index = i ∧ x.field = f := by
  rw [field?, Option.map_eq_some_iff]
  constructor
  · rintro ⟨x, hx, hf⟩
    obtain ⟨hmem, hi⟩ := h.entry?_eq_some_iff.1 hx
    exact ⟨x, hmem, hi, hf⟩
  · rintro ⟨x, hmem, hi, hf⟩
    exact ⟨x, h.entry?_eq_some_iff.2 ⟨hmem, hi⟩, hf⟩

theorem Valid.field?_of_mem {x : Entry} (hx : x ∈ t.entries) : t.field? x.index = some x.field :=
  h.field?_eq_some_iff.2 ⟨x, hx, rfl, rfl⟩

theorem Valid.find?_field {f : Field} {i : Nat} (hf : t.find? f = some i) : t.field? i = some f := by
  rw [find?, h.byField.index] at hf
  obtain ⟨x, hx, hi, hp⟩ := exists_of_lastIndex hf
  exact h.field?_eq_some_iff.2 ⟨x, hx, hi, of_decide_eq_true hp⟩

/-- A looked up name is that of an entry. -/
theorem Valid.findName?_field {name : Octets} {i : Nat} (hn : t.findName? name = some i) :
    ∃ f, t.field? i = some f ∧ f.name = name := by
  rw [findName?, h.byName.index] at hn
  obtain ⟨x, hx, hi, hp⟩ := exists_of_lastIndex hn
  exact ⟨x.field, h.field?_eq_some_iff.2 ⟨x, hx, hi, rfl⟩, of_decide_eq_true hp⟩

theorem Valid.withPending (pending : Option Nat) : Valid { t with pending := pending } :=
  ⟨h.position, h.used_eq, h.used_le, h.byField, h.byName⟩

theorem Valid.length_le_maxEntries : Field.overhead * t.entries.length ≤ t.capacity := by
  have hlen := length_le_roomOf t.entries
  rw [← h.used_eq] at hlen
  exact Nat.le_trans hlen h.used_le

/-! ## Changes by index -/

theorem Valid.modify_eq (i : Nat) (change : Entry → Entry) :
    t.modify i change =
      { t with entries := t.entries.map fun x => if x.index = i then change x else x } := by
  have hle := h.length_le
  have hmap : ∀ l : List Entry, (∀ k : Nat, l[k]? = (t.entries[k]?).map fun x =>
      if x.index = i then change x else x) →
      l = t.entries.map fun x => if x.index = i then change x else x := by
    intro l hl
    apply List.ext_getElem?
    intro k
    rw [hl, List.getElem?_map]
  rw [modify]
  split_ifs with hi
  · rw [← hmap t.entries fun k => ?_]
    rcases hk : t.entries[k]? with _ | x
    · rfl
    · have hp := h.position k x hk
      rw [first] at hi
      simp [show x.index ≠ i by omega]
  · rw [hmap (t.entries.modify (i - t.first) change) fun k => ?_]
    rw [List.getElem?_modify]
    rcases hk : t.entries[k]? with _ | x
    · rfl
    · have hp := h.position k x hk
      rw [first] at hi ⊢
      by_cases hc : x.index = i
      · simp [hc, show i - (t.inserted - t.entries.length) = k by omega]
      · simp [hc, show i - (t.inserted - t.entries.length) ≠ k by omega]

/-- Changing counts only keeps a table valid. -/
theorem Valid.modify {change : Entry → Entry} (i : Nat) (hf : ∀ x, (change x).field = x.field)
    (hi : ∀ x, (change x).index = x.index) : (t.modify i change).Valid := by
  have hf' : ∀ x : Entry, (if x.index = i then change x else x).field = x.field := by
    intro x; split_ifs; exacts [hf x, rfl]
  have hi' : ∀ x : Entry, (if x.index = i then change x else x).index = x.index := by
    intro x; split_ifs; exacts [hi x, rfl]
  rw [h.modify_eq]
  refine ⟨fun k x hx => ?_, ?_, h.used_le, h.byField.map hf' hi', h.byName.map (fun x => ?_) hi'⟩
  · rw [List.getElem?_map] at hx
    obtain ⟨y, hy, rfl⟩ := Option.map_eq_some_iff.1 hx
    rw [hi', List.length_map]
    exact h.position k y hy
  · rw [h.used_eq, roomOf, roomOf, List.foldr_map]
    simp only [Entry.size, hf']
  · rw [hf']

end Valid

end DynamicTable
end Qpack
