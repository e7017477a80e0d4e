import Qpack.Proofs.Encoder.Run
import Qpack.Proofs.Peer.Table

/-!
# The peer's table follows the encoder's

The encoder lets entries go early, the peer only when it has to. So the peer has the entries of the
encoder, and behind them perhaps older fields.

* `Mirrors peer e` : the peer's table is that of the encoder, but for older fields;
* `Mirrors.step` : it follows the instructions of every step;
* `mirrors_run` : it follows those of every run.
-/

namespace Qpack
open Encoder

/-- The peer has the table of the encoder, and perhaps older fields. -/
structure Mirrors (peer : PeerTable) (e : Encoder) : Prop where
  valid : peer.Valid
  maxCapacity : peer.maxCapacity = e.settings.maxTableCapacity
  inserted : peer.inserted = e.table.inserted
  capacity : peer.capacity = e.table.capacity
  /-- The newest fields of the peer are the entries of the encoder. -/
  newest : e.table.entries.map Entry.field <:+ peer.fields

namespace Mirrors
variable {peer : PeerTable} {e e' : Encoder} {s s' : SentSection} {out : List Instruction}

theorem empty (settings : Settings) : Mirrors (PeerTable.empty settings.maxTableCapacity) (new settings) :=
  ⟨PeerTable.Valid.empty _, rfl, rfl, rfl, List.suffix_rfl⟩

/-- Only the table and the settings matter. -/
theorem congr (h : Mirrors peer e) (htable : e'.table = e.table) (hset : e'.settings = e.settings) :
    Mirrors peer e' := by
  refine ⟨h.valid, ?_, ?_, ?_, ?_⟩
  · rw [hset]
    exact h.maxCapacity
  · rw [htable]
    exact h.inserted
  · rw [htable]
    exact h.capacity
  · rw [htable]
    exact h.newest

/-- The entries of the encoder have the same indices in the peer's table. -/
theorem field?_of_mem (h : Mirrors peer e) (ht : e.table.Valid) {x : Entry} (hx : x ∈ e.table.entries) :
    peer.field? x.index = some x.field := by
  obtain ⟨older, he⟩ := h.newest
  obtain ⟨k, hk⟩ := List.getElem?_of_mem hx
  have hp := ht.position k x hk
  refine h.valid.field?_eq_some_iff.2 ⟨older.length + k, ?_, ?_⟩
  · rw [← he, List.getElem?_append_right (Nat.le_add_right _ _), Nat.add_sub_cancel_left, List.getElem?_map, hk]
    rfl
  · rw [← he, List.length_append, List.length_map, h.inserted]
    omega

theorem field?_of_field? (h : Mirrors peer e) (ht : e.table.Valid) {i : Nat} {f : Field}
    (hf : e.table.field? i = some f) : peer.field? i = some f := by
  obtain ⟨x, hx, rfl, rfl⟩ := ht.field?_eq_some_iff.1 hf
  exact h.field?_of_mem ht hx

/-- Entries that leave the encoder's table may stay in the peer's. -/
theorem sheds (h : Mirrors peer e) {waiting : Option Nat} {u : DynamicTable}
    (hu : DynamicTable.Sheds { e.table with pending := waiting } u) :
    u.entries.map Entry.field <:+ peer.fields := by
  obtain ⟨gone, he, -⟩ := hu.entries
  have hmap : (gone.map Entry.field ++ u.entries.map Entry.field) <:+ peer.fields := by
    rw [← List.map_append, ← he]
    exact h.newest
  exact (List.suffix_append _ _).trans hmap

theorem total_map_field (l : List Entry) : PeerTable.total (l.map Entry.field) = roomOf l := by
  rw [PeerTable.total, roomOf, List.foldr_map]
  rfl

theorem resize (h : Mirrors peer e) (hs : Sound e s) {waiting : Option Nat} {u : DynamicTable} {c : Nat}
    (hu : DynamicTable.Sheds { e.table with pending := waiting } u) (hfit : u.used ≤ c)
    (hc : c ≤ e.settings.maxTableCapacity) :
    ∃ peer', peer.followAll? (if c = e.table.capacity then [] else [.setCapacity c]) = some peer' ∧
      Mirrors peer' { e with table := { u with capacity := c, pending := none } } := by
  have hnewest := h.sheds hu
  split
  · next heq => exact ⟨peer, rfl, h.valid, h.maxCapacity, h.inserted.trans hu.inserted.symm,
      h.capacity.trans heq.symm, hnewest⟩
  · have hfollow : peer.follow? (.setCapacity c) =
        some { peer with capacity := c, fields := PeerTable.fit c peer.fields } := by
      rw [PeerTable.follow?, if_neg (by rw [h.maxCapacity]; omega)]
    have hroom : PeerTable.total (u.entries.map Entry.field) ≤ c := by
      rw [total_map_field, ← (hs.sheds hu).1.used_eq]
      exact hfit
    refine ⟨_, by rw [PeerTable.followAll?_singleton, hfollow], h.valid.follow? hfollow, h.maxCapacity,
      h.inserted.trans hu.inserted.symm, rfl, PeerTable.suffix_fit hnewest hroom⟩

theorem insert (h : Mirrors peer e) (hs : Sound e s) {f : Field} {i : Instruction} (ha : e.admits f = true)
    (hi : i.field? e.table.inserted e.table.field? = some f) :
    ∃ peer', peer.followAll? [i] = some peer' ∧ Mirrors peer' { e with table := e.table.add f } := by
  have hf := (admits_eq_true.1 ha).2
  have hsize := overhead_le_size f
  rw [Field.overhead] at hsize
  have hspace : e.table.used + f.size ≤ e.table.capacity := by
    have hp := hs.waits.pending_eq_none (by omega)
    rw [DynamicTable.space, DynamicTable.target, hp, Option.getD_none] at hf
    omega
  -- the peer finds the same field, since it has every entry of the encoder
  have hi' : i.field? peer.inserted peer.field? = some f := by
    rw [h.inserted]
    exact Instruction.field?_mono (fun j g hg => h.field?_of_field? hs.valid hg) hi
  have hfollow : peer.follow? i = some { peer with
      fields := PeerTable.fit (peer.capacity - f.size) peer.fields ++ [f]
      inserted := peer.inserted + 1 } := by
    rw [PeerTable.follow?_of_inserts (PeerTable.inserts_of_field? hi'), hi', Option.bind_some,
      PeerTable.insert?, if_neg (by rw [h.capacity]; omega)]
  have hroom : PeerTable.total (e.table.entries.map Entry.field) ≤ peer.capacity - f.size := by
    rw [total_map_field, ← hs.valid.used_eq, h.capacity]
    omega
  refine ⟨_, by rw [PeerTable.followAll?_singleton, hfollow], h.valid.follow? hfollow, h.maxCapacity, ?_, ?_, ?_⟩
  · show peer.inserted + 1 = (e.table.add f).inserted
    rw [DynamicTable.inserted_add hf, h.inserted]
  · show peer.capacity = (e.table.add f).capacity
    rw [DynamicTable.add_eq hf, DynamicTable.append_capacity, h.capacity]
  · show (e.table.add f).entries.map Entry.field <:+ _ ++ [f]
    rw [DynamicTable.add_eq hf, DynamicTable.append_entries, List.map_append]
    obtain ⟨older, he⟩ := PeerTable.suffix_fit h.newest hroom
    exact ⟨older, by rw [← he, List.append_assoc]; rfl⟩

/-- Other counts are nothing that the peer sees. -/
theorem recount (h : Mirrors peer e) {u : DynamicTable} (hm : e.table.SameMeasures u)
    (hu : u.entries.map Entry.field = e.table.entries.map Entry.field) :
    Mirrors peer { e with table := u } :=
  ⟨h.valid, h.maxCapacity, h.inserted.trans hm.inserted.symm, h.capacity.trans hm.capacity.symm,
    by rw [hu]; exact h.newest⟩

/-- The peer can follow the instructions of a step, and has the encoder's table again. -/
theorem step (h : Mirrors peer e) (hs : Sound e s) (hstep : Step e s out e' s') :
    ∃ peer', peer.followAll? out = some peer' ∧ Mirrors peer' e' := by
  cases hstep with
  | shed hu _ =>
    exact ⟨peer, rfl, h.valid, h.maxCapacity, h.inserted.trans hu.inserted.symm,
      h.capacity.trans hu.capacity.symm, h.sheds hu⟩
  | resize hu hfit hc => exact h.resize hs hu hfit hc
  | insert ha hi => exact h.insert hs ha hi
  | depend _ _ =>
    exact ⟨peer, rfl, h.recount (DynamicTable.sameMeasures_refer _ _) (hs.valid.map_modify _ fun _ => rfl)⟩
  | @retire _ x _ _ =>
    have hm := h.recount (DynamicTable.sameMeasures_foldl_release _ x.references)
      (hs.valid.map_field_foldl_release _)
    exact ⟨peer, rfl, hm.valid, hm.maxCapacity, hm.inserted, hm.capacity, hm.newest⟩
  | _ => exact ⟨peer, rfl, h.valid, h.maxCapacity, h.inserted, h.capacity, h.newest⟩

theorem steps (h : Mirrors peer e) (hs : Sound e s) (hsteps : Steps e s out e' s') :
    ∃ peer', peer.followAll? out = some peer' ∧ Mirrors peer' e' := by
  induction hsteps with
  | refl => exact ⟨peer, rfl, h⟩
  | tail hsteps hstep ih =>
    obtain ⟨peer₂, hf₂, h₂⟩ := ih hs
    obtain ⟨peer₃, hf₃, h₃⟩ := h₂.step (hsteps.sound hs) hstep
    exact ⟨peer₃, by rw [PeerTable.followAll?_append, hf₂]; exact hf₃, h₃⟩

theorem run (h : Mirrors peer e) (hs : Sound e .empty) (ops : List Operation) :
    ∃ peer', peer.followAll? (e.run ops).2 = some peer' ∧ Mirrors peer' (e.run ops).1 := by
  induction ops generalizing peer e with
  | nil => exact ⟨peer, rfl, h⟩
  | cons op rest ih =>
    obtain ⟨e₁, s₁, hsteps, htable, hset⟩ := perform_steps hs op
    obtain ⟨peer₁, hf₁, h₁⟩ := h.steps hs hsteps
    obtain ⟨peer₂, hf₂, h₂⟩ := ih (h₁.congr htable hset) (hs.perform op)
    refine ⟨peer₂, ?_, h₂⟩
    rw [Encoder.run, PeerTable.followAll?_append, hf₁]
    exact hf₂

end Mirrors

/-- After any operations, a peer can follow all instructions. It then has the insert count and the
capacity of the encoder, and its newest fields are the entries of the encoder, each at its index. -/
theorem mirrors_run {settings : Settings} {start : Encoder} (hstart : ofSettings settings = .ok start)
    (ops : List Operation) :
    ∃ peer, (PeerTable.empty settings.maxTableCapacity).followAll? (start.run ops).2 = some peer ∧
      peer.inserted = (start.run ops).1.table.inserted ∧
      peer.capacity = (start.run ops).1.table.capacity ∧
      peer.fields.drop (peer.fields.length - (start.run ops).1.table.entries.length) =
        (start.run ops).1.table.entries.map Entry.field ∧
      ∀ i x, (start.run ops).1.table.entry? i = some x → peer.field? i = some x.field := by
  rw [eq_new_of_ofSettings hstart]
  obtain ⟨peer, hfollow, h⟩ := (Mirrors.empty settings).run (sound_new settings) ops
  have hv := ((sound_new settings).run ops).valid
  refine ⟨peer, hfollow, h.inserted, h.capacity, ?_, fun i x hx => ?_⟩
  · have hdrop := List.suffix_iff_eq_drop.1 h.newest
    rw [List.length_map] at hdrop
    exact hdrop.symm
  · obtain ⟨hmem, rfl⟩ := hv.entry?_eq_some_iff.1 hx
    exact h.field?_of_mem hv hmem

/-- Two fields fill a table, and a third has no room: the encoder lets the oldest go in vain. -/
def overfull : List Operation :=
  [.setCapacity 66, .insert ⟨[97], []⟩, .insert ⟨[98], []⟩, .insert ⟨[99], [99, 99]⟩]

/-- The peer still has it. -/
theorem mirrors_run_overfull : ∃ peer,
    (PeerTable.empty 66).followAll? ((new ⟨66, 1, 50, true, false⟩).run overfull).2 = some peer ∧
      peer.inserted = 2 ∧ peer.fields = [⟨[97], []⟩, ⟨[98], []⟩] ∧
      ((new ⟨66, 1, 50, true, false⟩).run overfull).1.table.entries = [⟨⟨[98], []⟩, 1, 0⟩] := by
  obtain ⟨peer, hfollow, hinserted, -⟩ :=
    mirrors_run (show ofSettings ⟨66, 1, 50, true, false⟩ = .ok (new ⟨66, 1, 50, true, false⟩) from rfl) overfull
  have hpeer : (PeerTable.empty 66).followAll? ((new ⟨66, 1, 50, true, false⟩).run overfull).2 =
      some ⟨66, 66, [⟨[97], []⟩, ⟨[98], []⟩], 2⟩ := by decide +kernel
  obtain rfl := Option.some.inj (hfollow.symm.trans hpeer)
  exact ⟨_, hfollow, hinserted.trans (by decide +kernel), rfl, by decide +kernel⟩

end Qpack
