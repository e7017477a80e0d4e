import Qpack.Proofs.Table.Zone

/-!
# Copies of a field

An entry that drains may be copied, for the copy stays when the entry leaves. Beyond the zone one copy of a
field is enough.

* `NoCopies t` : no two entries beyond the zone have the same field;
* `Spares t op` : what brings no second copy there, and no entry back from the zone;
* `Exact.perform`, `Exact.drainingIndex_le_perform` : such an operation does not move the zone back;
* `NoCopies.perform` : and so there is no second copy after it;
* `Leads fit t u` : fit operations lead from one table to another;
* `Leads.reachable`, `Leads.noCopies` : what holds of the table they lead to.
-/

namespace Qpack.DynamicTable
variable {t u v : DynamicTable} {f : Field} {op : TableOperation} {added : List Entry}
  {fit fit' : DynamicTable → TableOperation → Prop}

/-- No two entries beyond the zone have the same field. -/
def NoCopies (t : DynamicTable) : Prop :=
  ∀ x ∈ t.entries, ∀ y ∈ t.entries, t.drainingIndex ≤ x.index → t.drainingIndex ≤ y.index →
    x.field = y.field → x.index = y.index

instance (t : DynamicTable) : Decidable t.NoCopies := by
  unfold NoCopies
  infer_instance

/-- The operation does not raise the capacity to keep, and inserts no field that there is beyond the zone. -/
def Spares (t : DynamicTable) : TableOperation → Prop
  | .requestCapacity c => c ≤ t.target
  | .add f => ∀ x ∈ t.entries, x.field = f → x.index < t.drainingIndex
  | _ => True

/-! ## One operation -/

theorem Exact.sameMeasures (h : t.Exact) (hm : SameMeasures t u) (hv : u.Valid)
    (hpercent : u.drainingPercent = t.drainingPercent) : u.Exact :=
  ⟨hv, hpercent ▸ h.percent_le, hm.target ▸ h.target_lt, hm.used ▸ h.used_lt⟩

theorem Exact.perform (h : t.Exact) (hs : t.Shrinks) (ha : t.Allows op) (hspares : t.Spares op) :
    (t.perform op).Exact := by
  have hpercent := t.drainingPercent_perform op
  cases op with
  | requestCapacity c => exact h.requestCapacity hspares
  | add f => exact h.add hs ha
  | drain => exact h.drain
  | refer i => exact h.sameMeasures (sameMeasures_refer t i) (h.valid.refer i) hpercent
  | release i => exact h.sameMeasures (sameMeasures_modify t i _) (h.valid.release i) hpercent

theorem Exact.drainingIndex_le_perform (h : t.Exact) (hs : t.Shrinks) (ha : t.Allows op)
    (hspares : t.Spares op) : t.drainingIndex ≤ (t.perform op).drainingIndex := by
  cases op with
  | requestCapacity c => exact h.drainingIndex_le_requestCapacity hspares
  | add f => exact h.drainingIndex_le_add hs ha
  | drain => exact h.drainingIndex_drain.ge
  | refer i =>
    have hmodify := h.valid.drainingIndex_modify (fun x => { x with references := x.references + 1 }) (fun _ => rfl) i
    exact hmodify.ge
  | release i => exact (h.valid.drainingIndex_release i).ge

/-- An entry was there before, or it was added. -/
theorem Changes.exists_of_mem (hc : Changes t u added) {x : Entry} (hx : x ∈ u.entries) :
    ∃ y, (y ∈ t.entries ∨ y ∈ added) ∧ y.index = x.index ∧ y.field = x.field := by
  obtain ⟨gone, kept, he, -, hidentity⟩ := hc.entries
  have hmem : x.identity ∈ (kept ++ added).map Entry.identity := by
    rw [← hidentity]
    exact List.mem_map_of_mem hx
  obtain ⟨y, hy, hyx⟩ := List.mem_map.1 hmem
  refine ⟨y, ?_, Prod.mk.inj hyx⟩
  rw [he]
  exact (List.mem_append.1 hy).imp_left (List.mem_append_right gone)

/-- As the zone does not move back, entries beyond it were beyond it before. -/
theorem NoCopies.changes (hno : t.NoCopies) (hc : Changes t u added) (hzone : t.drainingIndex ≤ u.drainingIndex)
    (hone : ∀ x ∈ added, ∀ y ∈ added, x.index = y.index)
    (hnew : ∀ x ∈ added, ∀ y ∈ t.entries, y.field = x.field → y.index < t.drainingIndex) : u.NoCopies := by
  intro x hx y hy hxzone hyzone hfield
  obtain ⟨x', hx', hxindex, hxfield⟩ := hc.exists_of_mem hx
  obtain ⟨y', hy', hyindex, hyfield⟩ := hc.exists_of_mem hy
  have hfield' : x'.field = y'.field := by rw [hxfield, hyfield, hfield]
  rw [← hxindex] at hxzone ⊢
  rw [← hyindex] at hyzone ⊢
  rcases hx' with hx' | hx' <;> rcases hy' with hy' | hy'
  · exact hno x' hx' y' hy' (hzone.trans hxzone) (hzone.trans hyzone) hfield'
  · have hlt := hnew y' hy' x' hx' hfield'
    omega
  · have hlt := hnew x' hx' y' hy' hfield'.symm
    omega
  · exact hone x' hx' y' hy'

theorem NoCopies.perform (hno : t.NoCopies) (h : t.Exact) (hs : t.Shrinks) (ha : t.Allows op)
    (hspares : t.Spares op) : (t.perform op).NoCopies := by
  apply hno.changes (h.valid.changes_perform op) (h.drainingIndex_le_perform hs ha hspares)
  · cases op with
    | add f => simp [TableOperation.added]
    | _ => simp [TableOperation.added]
  · cases op with
    | add f =>
      intro x hx y hy hfield
      obtain rfl := List.mem_singleton.1 hx
      exact hspares y hy hfield
    | _ => simp [TableOperation.added]

/-! ## Several operations -/

/-- Operations lead from one table to another, each of them allowed by the table that it finds and fit for
it. -/
inductive Leads (fit : DynamicTable → TableOperation → Prop) : DynamicTable → DynamicTable → Prop where
  | refl (t : DynamicTable) : Leads fit t t
  | tail {t u : DynamicTable} {op : TableOperation} :
    Leads fit t u → u.Allows op → fit u op → Leads fit t (u.perform op)

theorem Leads.single (ha : t.Allows op) (hf : fit t op) : Leads fit t (t.perform op) := (Leads.refl t).tail ha hf

theorem Leads.trans (h₁ : Leads fit t u) (h₂ : Leads fit u v) : Leads fit t v := by
  induction h₂ with
  | refl => exact h₁
  | tail _ ha hf ih => exact ih.tail ha hf

theorem Leads.mono (h : Leads fit t u) (hfit : ∀ t op, fit t op → fit' t op) : Leads fit' t u := by
  induction h with
  | refl => exact .refl _
  | tail _ ha hf ih => exact ih.tail ha (hfit _ _ hf)

theorem Leads.reachable (h : Leads fit t u) (ht : t.Reachable) : u.Reachable := by
  induction h with
  | refl => exact ht
  | tail _ ha _ ih => exact ih.perform ha

theorem Leads.drainingPercent (h : Leads fit t u) : u.drainingPercent = t.drainingPercent := by
  induction h with
  | refl => rfl
  | tail _ _ _ ih => rw [drainingPercent_perform, ih]

theorem Leads.exact (h : Leads Spares t u) (ht : t.Exact) (hs : t.Shrinks) : u.Exact ∧ u.Shrinks := by
  induction h with
  | refl => exact ⟨ht, hs⟩
  | tail _ ha hf ih =>
    obtain ⟨hexact, hshrinks⟩ := ih
    exact ⟨hexact.perform hshrinks ha hf, (hexact.valid.perform hshrinks ha).2⟩

theorem Leads.noCopies (h : Leads Spares t u) (ht : t.Exact) (hs : t.Shrinks) (hno : t.NoCopies) :
    u.NoCopies := by
  induction h with
  | refl => exact hno
  | tail hl ha hf ih =>
    obtain ⟨hexact, hshrinks⟩ := hl.exact ht hs
    exact ih.perform hexact hshrinks ha hf

/-! ## Single operations -/

theorem leads_requestCapacity {c : Nat} (hfit : fit t (.requestCapacity c)) :
    Leads fit t (t.requestCapacity c).1 := by
  show Leads fit t (t.perform (.requestCapacity c))
  exact .single trivial hfit

theorem leads_drain (hfit : fit t .drain) : Leads fit t t.drain.1 := by
  show Leads fit t (t.perform .drain)
  exact .single trivial hfit

/-- What fits the room that is free is allowed. -/
theorem leads_add (hf : f.size ≤ t.space) (hfit : fit t (.add f)) : Leads fit t (t.add f) := by
  have hsize := overhead_le_size f
  rw [Field.overhead] at hsize
  rw [space] at hf
  have ha : t.used + f.size ≤ t.target + t.reclaimable := by omega
  show Leads fit t (t.perform (.add f))
  exact .single ha hfit

theorem leads_refer {i : Nat} (hc : t.canReference i = true) (hfit : fit t (.refer i)) :
    Leads fit t (t.refer i) := by
  show Leads fit t (t.perform (.refer i))
  exact .single (Bool.and_eq_true _ _ ▸ hc).1 hfit

/-- References that are in use can be given up. -/
theorem Counts.leads_release {refs l : List Nat} (h : Counts t (l ++ refs)) (ht : t.Valid)
    (hfit : ∀ t i, fit t (.release i)) : Leads fit t (l.foldl DynamicTable.release t) := by
  induction l generalizing t with
  | nil => exact .refl t
  | cons i l ih =>
    obtain ⟨hc, hr⟩ := Counts.release h ht
    have ha : t.Allows (.release i) := Option.isSome_iff_exists.2 ⟨_, hr⟩
    exact (Leads.single ha (hfit t i)).trans (ih hc (ht.release i))

end Qpack.DynamicTable
