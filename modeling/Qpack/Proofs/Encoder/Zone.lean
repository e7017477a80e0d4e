import Qpack.Proofs.Encoder.Copies
import Qpack.Proofs.Table.Checked

/-!
# The zone under the settings

Settings can be used whatever capacity the peer allows. Words find the zone as long as signed words hold that
capacity and words its product with the share to keep free, and no longer.

* `Reachable.drainingPercent_table` : the table keeps free what the settings say;
* `DrainsExactly e` : no word overflows, and the zone is the one that the room defines;
* `drainsExactly_iff` : under which settings it is so in every state;
* `not_drainsExactly` : under others, entries drain though nothing is to be kept free.
-/

namespace Qpack
namespace Encoder
variable {e : Encoder} {settings : Settings}

/-! ## The share to keep free -/

theorem Sound.drainingPercent_run (h : Sound e .empty) (ops : List Operation) :
    (e.run ops).1.table.drainingPercent = e.table.drainingPercent := by
  induction ops generalizing e with
  | nil => rfl
  | cons op rest ih => exact (ih (h.perform op)).trans (h.leads_perform op).drainingPercent

theorem drainingPercent_le_of_problems (h : settings.problems = []) : settings.drainingPercent ≤ 100 := by
  unfold Settings.problems at h
  have hpercent := (List.append_eq_nil_iff.1 h).1
  split at hpercent
  · cases hpercent
  · next hle => exact Nat.not_lt.1 hle

theorem ofSettings_of_problems (h : settings.problems = []) : ofSettings settings = .ok (new settings) := by
  unfold ofSettings
  rw [h]
  rfl

theorem problems_of_ofSettings {start : Encoder} (h : ofSettings settings = .ok start) :
    settings.problems = [] := by
  unfold ofSettings at h
  split at h
  · next hempty => exact List.isEmpty_iff.1 hempty
  · cases h

theorem Reachable.drainingPercent_table (h : e.Reachable) :
    e.table.drainingPercent = e.settings.drainingPercent := by
  obtain ⟨settings, start, ops, hstart, rfl⟩ := h
  have hproblems := problems_of_ofSettings hstart
  obtain rfl := eq_new_of_ofSettings hstart
  have hsound := sound_new settings
  rw [hsound.drainingPercent_run ops, settings_run hsound ops]
  exact Nat.min_eq_left (drainingPercent_le_of_problems hproblems)

/-! ## Where the words are enough -/

/-- No word overflows, and the zone ends at the least index below which there is enough room. -/
structure DrainsExactly (e : Encoder) : Prop where
  computed : e.table.drainingIndex? = some e.table.drainingIndex
  least : IsLeast {i | e.table.first ≤ i ∧ i ≤ e.table.inserted ∧
    ((e.table.target * e.settings.drainingPercent / 100 : Nat) : Int) ≤
      e.table.target - e.table.used + e.table.roomBelow i} e.table.drainingIndex
  /-- Without a share to keep free, and without a capacity that waits, nothing drains. -/
  unused : e.settings.drainingPercent = 0 → e.table.pending = none →
    e.table.drainingIndex = e.table.first ∧
      ∀ i, e.table.contains i = true → e.table.canReference i = true

theorem Reachable.fits_table (h : e.Reachable) (hmax : e.settings.maxTableCapacity < 2 ^ 63)
    (hproduct : e.settings.maxTableCapacity * e.settings.drainingPercent < 2 ^ 64) : e.table.Fits := by
  have hcapacity := h.sound.capacity_le
  have htarget := h.table.valid.2.target_le.trans hcapacity
  have hused := h.sound.valid.used_le.trans hcapacity
  refine ⟨h.sound.valid, h.table.drainingPercent_le, ?_, htarget.trans_lt hmax, hused.trans_lt hmax⟩
  rw [h.drainingPercent_table]
  exact (Nat.mul_le_mul_right _ htarget).trans_lt hproduct

theorem Reachable.drainsExactly (h : e.Reachable) (hmax : e.settings.maxTableCapacity < 2 ^ 63)
    (hproduct : e.settings.maxTableCapacity * e.settings.drainingPercent < 2 ^ 64) : DrainsExactly e := by
  have hfits := h.fits_table hmax hproduct
  have hpercent := h.drainingPercent_table
  refine ⟨hfits.drainingIndex?_eq, ?_, fun hzero hpending => ?_⟩
  · rw [← hpercent]
    exact hfits.isLeast_drainingIndex
  · have hfirst := hfits.drainingIndex_eq_first (hpercent.trans hzero) hpending
    refine ⟨hfirst, fun i hi => ?_⟩
    unfold DynamicTable.canReference
    rw [hi, hfirst]
    exact decide_eq_true (hfits.valid.contains_iff_lt.1 hi).1

/-- The largest capacity can be asked for at once. -/
theorem exists_reachable_target (h : settings.problems = []) :
    ∃ e : Encoder, e.Reachable ∧ e.settings = settings ∧ e.table.target = settings.maxTableCapacity := by
  refine ⟨((new settings).setCapacity settings.maxTableCapacity).encoder, ?_, ?_, ?_⟩
  · exact ⟨settings, new settings, [.setCapacity settings.maxTableCapacity], ofSettings_of_problems h, rfl⟩
  · exact settings_perform (sound_new settings) (.setCapacity settings.maxTableCapacity)
  · exact target_setCapacity (Nat.lt_irrefl _)

/-- The words find the zone in every state exactly where they hold what the largest capacity takes. -/
theorem drainsExactly_iff (h : settings.problems = []) :
    (∀ e : Encoder, e.Reachable → e.settings = settings → DrainsExactly e) ↔
      settings.maxTableCapacity < 2 ^ 63 ∧ settings.maxTableCapacity * settings.drainingPercent < 2 ^ 64 := by
  constructor
  · intro hall
    obtain ⟨e, he, hsettings, htarget⟩ := exists_reachable_target h
    have hexact := hall e he hsettings
    obtain ⟨-, hproduct, hmax⟩ := DynamicTable.drainingIndex_of_drainingIndex? hexact.computed
    rw [he.drainingPercent_table, hsettings] at hproduct
    rw [htarget] at hproduct hmax
    exact ⟨hmax, hproduct⟩
  · rintro ⟨hmax, hproduct⟩ e he rfl
    exact he.drainsExactly hmax hproduct

/-- Under the common settings the words are enough. -/
theorem drainsExactly_default : Settings.default.problems = [] ∧
    ∀ e : Encoder, e.Reachable → e.settings = .default → DrainsExactly e :=
  ⟨rfl, (drainsExactly_iff rfl).2 ⟨by decide, by decide⟩⟩

/-- A capacity that a signed word takes for a negative number. The only entry drains, though nothing is to be
kept free and no capacity waits. -/
theorem not_drainsExactly : ¬ ∀ (settings : Settings) (e : Encoder), settings.problems = [] → e.Reachable →
    e.settings = settings → DrainsExactly e := by
  intro hall
  have hreach : ((new ⟨2 ^ 63 + 1000, 0, 0, true, false⟩).run [.setCapacity (2 ^ 63 + 1000),
      .insert ⟨[97], []⟩]).1.Reachable := ⟨⟨2 ^ 63 + 1000, 0, 0, true, false⟩, new _, _, rfl, rfl⟩
  have hunused := (hall ⟨2 ^ 63 + 1000, 0, 0, true, false⟩ _ (by decide) hreach (by decide +kernel)).unused
    (by decide +kernel) (by decide +kernel)
  have hcontains := hunused.2 0 (by decide +kernel)
  exact absurd hcontains (by decide +kernel)

end Encoder
end Qpack
