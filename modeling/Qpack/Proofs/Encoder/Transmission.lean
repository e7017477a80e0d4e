import Qpack.Proofs.Encoder.Run
import Mathlib.Data.List.Forall2

/-!
# The sections that were sent

* `Transmission` : the fields that a section was made from, and its octets;
* `Encoder.transmissions` : all that was sent on a stream;
* `Encoder.inFlight` : those that are outstanding, the newest ones, each with what the encoder
  remembers of it;
* `Encoder.Carries e x s` : the octets of `x` are lines that depend on what `s` says, and mean the
  fields of `x` in the table of `e`;
* `map_snd_inFlight`, `carries_inFlight` : after any operations, nothing that is outstanding is left
  out, and all of it carries what was sent.
-/

namespace Qpack

structure Transmission where
  fields : List Field
  octets : Octets
deriving DecidableEq, Repr

namespace Encoder

/-- What an operation sends on a stream. -/
def transmitted (e : Encoder) (stream : Nat) : Operation → List Transmission
  | .encode id fields =>
    match (e.encode id fields).result with
    | .ok octets => if id = stream then [⟨fields, octets⟩] else []
    | .error _ => []
  | _ => []

def transmissions (e : Encoder) (stream : Nat) : List Operation → List Transmission
  | [] => []
  | op :: rest => e.transmitted stream op ++ (e.perform op).encoder.transmissions stream rest

/-- The outstanding sections of a stream. A queue gives up its oldest sections first, so they are the
newest of those that were sent. -/
def inFlight (e : Encoder) (ops : List Operation) (stream : Nat) : List (Transmission × SentSection) :=
  ((e.transmissions stream ops).drop
    ((e.transmissions stream ops).length - (e.run ops).1.outstanding stream)).zip
    ((e.run ops).1.streams.queue stream)

/-! ## What a section carries -/

/-- The octets are lines that mean the fields. They refer to the entries that the section depends on,
all of them inserted before the base. -/
def Carries (e : Encoder) (s : SentSection) (x : Transmission) : Prop :=
  ∃ (base : Nat) (lines : List FieldLine), base ≤ e.table.inserted ∧ (∀ i ∈ s.references, i < base) ∧
    s.references = lines.filterMap FieldLine.index? ∧
    x.octets = SectionHead.write e.settings.maxTableCapacity ⟨s.requiredInsertCount, base⟩ ++
      lines.flatMap (FieldLine.write base) ∧
    lines.mapM (FieldLine.meaning? e.table.field?) = some x.fields

variable {e e' : Encoder} {s s' t : SentSection} {x : Transmission} {out : List Instruction} {stream : Nat}

/-- A section carries the same as long as it is outstanding. -/
theorem Carries.steps (h : Sound e s) (hsteps : Steps e s out e' s') (hc : Carries e t x)
    (hrefs : ∀ i ∈ t.references, i ∈ s'.references ++ e'.streams.references) : Carries e' t x := by
  obtain ⟨base, lines, hbase, hlt, hlines, hoctets, hmeans⟩ := hc
  refine ⟨base, lines, hbase.trans (hsteps.agesTo h).le, hlt, hlines, ?_, ?_⟩
  · rw [hsteps.settings]
    exact hoctets
  · rw [← hmeans]
    refine FieldLine.mapM_meaning?_congr fun i hi => ?_
    rw [← hlines] at hi
    exact hsteps.field?_eq h (hrefs i hi) (Nat.lt_of_lt_of_le (hlt i hi) hbase)

/-- A finished draft carries its fields. -/
theorem carries_ofFields (h : Sound e .empty) (fields : List Field) :
    Carries (Draft.ofFields e fields).encoder (Draft.ofFields e fields).sent
      ⟨fields, (Draft.ofFields e fields).octets⟩ := by
  obtain ⟨hm, hs⟩ := Draft.says_ofFields h fields
  have hsound := hm.sound h
  refine ⟨_, _, Nat.le_refl _, fun i hi => ?_, hs.references, ?_, hs.means⟩
  · exact hsound.counts.lt hsound.valid (List.mem_append_left _ hi)
  · rw [Draft.octets, Draft.head, Draft.requiredInsertCount_ofFields h]

/-! ## Runs -/

/-- Of the sections that were sent on a stream, the outstanding ones are the last, and each carries what
was sent. -/
def Paired (e : Encoder) (stream : Nat) (sent : List Transmission) : Prop :=
  ∃ done live, sent = done ++ live ∧ List.Forall₂ (Carries e) (e.streams.queue stream) live

theorem paired_new (settings : Settings) (stream : Nat) : Paired (new settings) stream [] :=
  ⟨[], [], rfl, List.Forall₂.nil⟩

/-- Sections that go leave the newer ones with what they carry. -/
theorem Paired.steps {sent : List Transmission} (hp : Paired e stream sent) (h : Sound e .empty)
    (hsteps : Steps e .empty out e' .empty) : Paired e' stream sent := by
  obtain ⟨done, live, hsent, hall⟩ := hp
  obtain ⟨gone, hgone⟩ := hsteps.queue_suffix h stream
  have hmapped : List.Forall₂ (Carries e) ((e.streams.queue stream).map SentSection.unblock) live :=
    List.forall₂_map_left_iff.2 (hall.imp fun _ _ hc => hc)
  rw [← hgone] at hmapped
  have hdrop := List.forall₂_drop gone.length hmapped
  rw [List.drop_left] at hdrop
  refine ⟨done ++ live.take gone.length, live.drop gone.length, ?_, ?_⟩
  · rw [hsent, List.append_assoc, List.take_append_drop]
  · have hleft := (List.forall₂_and_left (p := fun t => t ∈ e'.streams.queue stream) _ _).2
      ⟨fun _ ht => ht, List.forall₂_map_left_iff.1 hdrop⟩
    refine hleft.imp fun t y hty => ?_
    have hc : Carries e t y := hty.2
    exact hc.steps h hsteps fun i hi =>
      List.mem_append_right _ (List.mem_flatMap.2 ⟨t, Streams.queue_subset_sections _ _ hty.1, hi⟩)

/-- A section that is sent is the newest of its stream. -/
theorem Paired.encode {sent : List Transmission} (hp : Paired e stream sent) (h : Sound e .empty) (id : Nat)
    (fields : List Field) :
    Paired ((Draft.ofFields e fields).encoder.send id (Draft.ofFields e fields).sent) stream
      (sent ++ if id = stream then [⟨fields, (Draft.ofFields e fields).octets⟩] else []) := by
  obtain ⟨done, live, hsent, hall⟩ := hp
  obtain ⟨hm, hs⟩ := Draft.says_ofFields h fields
  obtain ⟨out, hsteps, -⟩ := hm.steps
  -- the sections that were outstanding before carry the same in the table of the draft
  have hkept : List.Forall₂ (Carries ((Draft.ofFields e fields).encoder.send id (Draft.ofFields e fields).sent))
      (e.streams.queue stream) live := by
    have hleft := (List.forall₂_and_left (p := fun t => t ∈ e.streams.queue stream) _ _).2
      ⟨fun _ ht => ht, hall⟩
    refine hleft.imp fun t y hty => ?_
    have hc := hty.2.steps (s := .empty) h hsteps fun i hi => by
      rw [hm.streams]
      exact List.mem_append_right _ (List.mem_flatMap.2 ⟨t, Streams.queue_subset_sections _ _ hty.1, hi⟩)
    exact hc
  by_cases hid : id = stream
  · subst hid
    rw [if_pos rfl]
    refine ⟨done, live ++ [⟨fields, (Draft.ofFields e fields).octets⟩], by rw [hsent, List.append_assoc], ?_⟩
    rw [queue_send_self, hm.streams]
    exact List.rel_append hkept (List.Forall₂.cons (carries_ofFields h fields) List.Forall₂.nil)
  · rw [if_neg hid, List.append_nil]
    refine ⟨done, live, hsent, ?_⟩
    rw [queue_send_of_ne _ hid, hm.streams]
    exact hkept

theorem Paired.perform {sent : List Transmission} (hp : Paired e stream sent) (h : Sound e .empty)
    (op : Operation) : Paired (e.perform op).encoder stream (sent ++ e.transmitted stream op) := by
  rcases perform_cases h op with ⟨id, fields, rfl, hname, hop⟩ | ⟨hnone, hsteps⟩
  · rw [transmitted, encode_eq hname, hop]
    exact hp.encode h id fields
  · have hnothing : e.transmitted stream op = [] := by
      cases op with
      | encode id fields =>
        rw [transmitted]
        split
        · next octets hr =>
          refine absurd ?_ (hnone octets)
          show (e.encode id fields).result.map _ = _
          rw [hr]
          rfl
        · rfl
      | _ => rfl
    rw [hnothing, List.append_nil]
    exact hp.steps h hsteps

theorem Paired.run {sent : List Transmission} (hp : Paired e stream sent) (h : Sound e .empty)
    (ops : List Operation) : Paired (e.run ops).1 stream (sent ++ e.transmissions stream ops) := by
  induction ops generalizing e sent with
  | nil =>
    rw [transmissions, List.append_nil]
    exact hp
  | cons op rest ih =>
    rw [transmissions, ← List.append_assoc]
    exact ih (hp.perform h op) (h.perform op)

theorem inFlight_eq_zip (settings : Settings) (ops : List Operation) (stream : Nat) :
    ∃ live, (new settings).inFlight ops stream = live.zip (((new settings).run ops).1.streams.queue stream) ∧
      List.Forall₂ (Carries ((new settings).run ops).1) (((new settings).run ops).1.streams.queue stream) live := by
  obtain ⟨done, live, hsent, hall⟩ := (paired_new settings stream).run (sound_new settings) ops
  rw [List.nil_append] at hsent
  refine ⟨live, ?_, hall⟩
  rw [inFlight, hsent, outstanding, hall.length_eq, List.length_append, Nat.add_sub_cancel, List.drop_left]

theorem map_snd_inFlight (settings : Settings) (ops : List Operation) (stream : Nat) :
    ((new settings).inFlight ops stream).map Prod.snd = ((new settings).run ops).1.streams.queue stream := by
  obtain ⟨live, hzip, hall⟩ := inFlight_eq_zip settings ops stream
  rw [hzip, List.map_snd_zip hall.length_eq.le]

theorem carries_inFlight {settings : Settings} {ops : List Operation}
    (hx : (x, s) ∈ (new settings).inFlight ops stream) : Carries ((new settings).run ops).1 s x := by
  obtain ⟨live, hzip, hall⟩ := inFlight_eq_zip settings ops stream
  rw [hzip] at hx
  exact List.forall₂_zip hall.flip hx

end Encoder
end Qpack
