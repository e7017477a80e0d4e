import Qpack.Proofs.Encoder.Run

/-!
# What is refused

An operation is refused for a reason, and then nothing else happens.

* `Field.IllNamed f` : the name of the field is empty, or begins with a control character or a space;
* `Streams.Occupied` : no stream is kept without sections;
* `Encoder.Reason e op error` : why `e` refuses an operation, and with which error;
* `Encoder.RefusedFor e reason o` : the outcome is an error if and only if there is a reason for it, and an
  error leaves `e` as it is;
* `refusedFor_perform` : so it is with each operation;
* `RefusesExactly`, `Reachable.refusesExactly` : so it is after any operations.
-/

namespace Qpack

/-! ## Names -/

/-- The name is empty, or begins with a control character or a space. -/
def Field.IllNamed (f : Field) : Prop := f.name = [] ∨ ∃ b rest, f.name = b :: rest ∧ b ≤ 0x20

theorem Field.hasValidName_eq_false_iff (f : Field) : f.hasValidName = false ↔ f.IllNamed := by
  unfold hasValidName IllNamed
  rcases f.name with _ | ⟨b, rest⟩
  · simp
  · simp

/-- The name that is refused is the first of its kind. -/
theorem Encoder.refusedName?_eq_some_iff {e : Encoder} {fields : List Field} {f : Field} :
    e.refusedName? fields = some f ↔ e.validate = true ∧
      ∃ before after, fields = before ++ f :: after ∧ (∀ g ∈ before, ¬ g.IllNamed) ∧ f.IllNamed := by
  unfold refusedName?
  split
  · next hv =>
    rw [List.find?_eq_some_iff_append, and_iff_right hv]
    simp only [Bool.not_eq_true', Bool.not_not, ← Field.hasValidName_eq_false_iff, Bool.not_eq_false]
    constructor
    · rintro ⟨hf, before, after, rfl, hbefore⟩
      exact ⟨before, after, rfl, hbefore, hf⟩
    · rintro ⟨before, after, rfl, hbefore, hf⟩
      exact ⟨hf, before, after, rfl, hbefore⟩
  · next hv => simp [hv]

/-! ## Streams without sections -/

namespace Streams

/-- No stream is kept without sections. -/
def Occupied (streams : Streams) : Prop := ∀ x ∈ streams, x.2 ≠ []

theorem Occupied.put {streams : Streams} (h : Occupied streams) (id : Nat) (q : SentQueue) :
    Occupied (streams.put id q) := by
  induction streams with
  | nil =>
    unfold Streams.put
    split
    · exact h
    · next hq => simpa [Occupied] using hq
  | cons head rest ih =>
    obtain ⟨k, old⟩ := head
    obtain ⟨hold, hrest⟩ := List.forall_mem_cons.1 h
    unfold Streams.put
    split
    · split
      · exact hrest
      · next hq => exact List.forall_mem_cons.2 ⟨by simpa using hq, hrest⟩
    · exact List.forall_mem_cons.2 ⟨hold, ih hrest⟩

theorem Occupied.settle {streams : Streams} (h : Occupied streams) (known : Nat) :
    Occupied (streams.settle known) := by
  intro x hx
  obtain ⟨⟨id, q⟩, hq, rfl⟩ := List.mem_map.1 hx
  simpa using h _ hq

theorem Occupied.mem_ids_iff {streams : Streams} (h : Occupied streams) {id : Nat} :
    id ∈ streams.map (·.1) ↔ streams.queue id ≠ [] := by
  refine ⟨fun hid => ?_, fun hne => ?_⟩
  · induction streams with
    | nil => cases hid
    | cons head rest ih =>
      obtain ⟨k, old⟩ := head
      obtain ⟨hold, hrest⟩ := List.forall_mem_cons.1 h
      rw [queue]
      split
      · exact hold
      · next hk =>
        rcases List.mem_cons.1 hid with rfl | hid
        · exact absurd rfl hk
        · exact ih hrest hid
  · by_contra hid
    exact hne (queue_eq_nil_of_not_mem hid)

end Streams

namespace Encoder
variable {e e₁ e₂ : Encoder} {s₁ s₂ : SentSection} {out : List Instruction}

theorem Step.occupied (h : e₁.streams.Occupied) (hstep : Step e₁ s₁ out e₂ s₂) : e₂.streams.Occupied := by
  cases hstep with
  | retire _ => exact h.put _ _
  | forget _ _ => exact h.put _ _
  | learn _ _ => exact h.settle _
  | _ => exact h

theorem Steps.occupied (h : e₁.streams.Occupied) (hsteps : Steps e₁ s₁ out e₂ s₂) : e₂.streams.Occupied := by
  induction hsteps with
  | refl => exact h
  | tail _ hstep ih => exact hstep.occupied ih

theorem Sound.occupied_perform (h : Sound e .empty) (ho : e.streams.Occupied) (op : Operation) :
    (e.perform op).encoder.streams.Occupied := by
  rcases perform_cases h op with ⟨stream, fields, -, -, hop⟩ | ⟨-, hsteps⟩
  · have hstreams := (Draft.says_ofFields h fields).1.streams
    rw [hop]
    exact Streams.Occupied.put (hstreams ▸ ho) stream _
  · exact hsteps.occupied ho

theorem Sound.occupied_run (h : Sound e .empty) (ho : e.streams.Occupied) (ops : List Operation) :
    (e.run ops).1.streams.Occupied := by
  induction ops generalizing e with
  | nil => exact ho
  | cons op rest ih => exact ih (h.perform op) (h.occupied_perform ho op)

theorem Reachable.occupied (h : e.Reachable) : e.streams.Occupied := by
  obtain ⟨settings, start, ops, hstart, rfl⟩ := h
  rw [eq_new_of_ofSettings hstart]
  exact (sound_new settings).occupied_run (fun _ hx => absurd hx List.not_mem_nil) ops

/-! ## Reasons -/

/-- Why an operation is refused, and with which error. -/
inductive Reason (e : Encoder) : Operation → Error → Prop where
  /-- The peer does not allow the capacity. -/
  | capacity {c : Nat} : e.settings.maxTableCapacity < c →
    Reason e (.setCapacity c) (.capacityExceedsMaximum c e.settings.maxTableCapacity)
  /-- Names are checked, and this field is the first whose name is refused. -/
  | name {stream : Nat} {before after : List Field} {f : Field} : e.validate = true →
    (∀ g ∈ before, ¬ g.IllNamed) → f.IllNamed →
    Reason e (.encode stream (before ++ f :: after)) (.invalidFieldName stream (Text.decodeLossy f.name))
  /-- An increment of nothing. -/
  | zero : Reason e (.receive (.increment 0)) .zeroIncrement
  /-- An increment beyond the insertions there were. -/
  | overrun {count : Nat} : count ≠ 0 → e.table.inserted < e.known + count →
    Reason e (.receive (.increment count)) (.incrementOverrun e.known count e.table.inserted)
  /-- No outstanding section of the stream needs an insertion. -/
  | acknowledge {stream : Nat} : (∀ s ∈ e.streams.queue stream, s.requiredInsertCount = 0) →
    Reason e (.receive (.acknowledge stream)) (.unknownStream stream)
  /-- The stream has no outstanding section at all. -/
  | cancel {stream : Nat} : e.outstanding stream = 0 →
    Reason e (.receive (.cancel stream)) (.unknownStream stream)

/-- An error comes for a reason and no error without one, and an error is all that happens. -/
structure RefusedFor {α : Type} (e : Encoder) (reason : Error → Prop) (o : Outcome α) : Prop where
  error_iff : ∀ error, o.result = .error error ↔ reason error
  untouched : ∀ error, o.result = .error error → o.encoder = e ∧ o.emitted = []

section RefusedFor
variable {α β : Type} {reason : Error → Prop} {o : Outcome α} {error : Error}

theorem refusedFor_refuse (h : reason error) (hunique : ∀ other, reason other → other = error) :
    RefusedFor e reason (e.refuse error : Outcome α) := by
  refine ⟨fun other => ⟨?_, ?_⟩, fun _ _ => ⟨rfl, rfl⟩⟩
  · intro hother
    obtain rfl := Except.error.inj hother
    exact h
  · intro hother
    rw [hunique other hother]
    rfl

theorem refusedFor_of_ok {answer : α} (hok : o.result = .ok answer) (h : ∀ error, ¬ reason error) :
    RefusedFor e reason o := by
  have hno : ∀ error, o.result ≠ .error error := by
    intro error herror
    rw [hok] at herror
    cases herror
  exact ⟨fun error => iff_of_false (hno error) (h error), fun error herror => absurd herror (hno error)⟩

theorem map_error_iff (reply : α → β) : (o.map reply).result = .error error ↔ o.result = .error error := by
  unfold Outcome.map
  rcases o.result with _ | _
  · exact ⟨fun h => congrArg _ (Except.error.inj h), fun h => congrArg _ (Except.error.inj h)⟩
  · refine ⟨fun h => ?_, fun h => ?_⟩
    · cases h
    · cases h

theorem RefusedFor.map (h : RefusedFor e reason o) (reply : α → β) : RefusedFor e reason (o.map reply) :=
  ⟨fun error => (map_error_iff reply).trans (h.error_iff error),
    fun error herror => h.untouched error ((map_error_iff reply).1 herror)⟩

end RefusedFor

theorem refusedFor_setCapacity (capacity : Nat) :
    RefusedFor e (Reason e (.setCapacity capacity)) (e.setCapacity capacity) := by
  unfold setCapacity
  split
  · next hlt =>
    refine refusedFor_refuse (.capacity hlt) fun other hother => ?_
    cases hother
    rfl
  · next hle =>
    refine refusedFor_of_ok rfl fun error hreason => ?_
    cases hreason with
    | capacity hlt => exact hle hlt

theorem refusedFor_encode (stream : Nat) (fields : List Field) :
    RefusedFor e (Reason e (.encode stream fields)) (e.encode stream fields) := by
  rcases hname : e.refusedName? fields with _ | f
  · rw [encode_eq hname]
    refine refusedFor_of_ok rfl fun error hreason => ?_
    cases hreason with
    | name hv hbefore hf =>
      rw [refusedName?_eq_some_iff.2 ⟨hv, _, _, rfl, hbefore, hf⟩] at hname
      cases hname
  · obtain ⟨hv, before, after, rfl, hbefore, hf⟩ := refusedName?_eq_some_iff.1 hname
    unfold encode
    rw [hname]
    refine refusedFor_refuse (.name hv hbefore hf) fun other hother => ?_
    generalize hfields : before ++ f :: after = fields at hother hname
    cases hother with
    | name _ hbefore' hf' =>
      -- no other field is the first whose name is refused
      rw [refusedName?_eq_some_iff.2 ⟨hv, _, _, rfl, hbefore', hf'⟩] at hname
      obtain rfl := Option.some.inj hname
      rfl

theorem refusedFor_increment (count : Nat) :
    RefusedFor e (Reason e (.receive (.increment count))) (e.increment count) := by
  unfold increment
  split
  · next hzero =>
    subst hzero
    refine refusedFor_refuse .zero fun other hother => ?_
    cases hother with
    | zero => rfl
    | overrun hne _ => exact absurd rfl hne
  · next hne =>
    split
    · next hlt =>
      refine refusedFor_refuse (.overrun hne hlt) fun other hother => ?_
      cases hother with
      | zero => exact absurd rfl hne
      | overrun _ _ => rfl
    · next hle =>
      refine refusedFor_of_ok rfl fun error hreason => ?_
      cases hreason with
      | zero => exact hne rfl
      | overrun _ hlt => exact hle hlt

theorem refusedFor_acknowledge (stream : Nat) :
    RefusedFor e (Reason e (.receive (.acknowledge stream))) (e.acknowledge stream) := by
  unfold acknowledge
  split
  · next hnone =>
    refine refusedFor_refuse (.acknowledge (SentQueue.acknowledge?_eq_none_iff.1 hnone)) fun other hother => ?_
    cases hother
    rfl
  · next oldest queue hsome =>
    refine refusedFor_of_ok rfl fun error hreason => ?_
    cases hreason with
    | acknowledge hzero =>
      rw [SentQueue.acknowledge?_eq_none_iff.2 hzero] at hsome
      cases hsome

theorem refusedFor_cancel (stream : Nat) :
    RefusedFor e (Reason e (.receive (.cancel stream))) (e.cancel stream) := by
  unfold cancel
  split
  · next hnil =>
    refine refusedFor_refuse (.cancel (List.length_eq_zero_iff.2 hnil)) fun other hother => ?_
    cases hother
    rfl
  · next hne =>
    refine refusedFor_of_ok rfl fun error hreason => ?_
    cases hreason with
    | cancel hzero => exact hne (List.length_eq_zero_iff.1 hzero)

/-- A field for the table alone is inserted or not, but never refused. -/
theorem insert_ok (e : Encoder) (f : Field) : ∃ done, (e.insert f).result = .ok done := by
  unfold insert
  dsimp only
  split
  · exact ⟨true, rfl⟩
  · exact ⟨false, rfl⟩

/-! ## All operations -/

theorem refusedFor_perform (e : Encoder) {op : Operation} (hop : ∀ data, op ≠ .feedback data) :
    RefusedFor e (Reason e op) (e.perform op) := by
  cases op with
  | setCapacity capacity => exact (refusedFor_setCapacity capacity).map _
  | encode stream fields => exact (refusedFor_encode stream fields).map _
  | insert f =>
    obtain ⟨done, hdone⟩ := insert_ok e f
    exact (refusedFor_of_ok hdone fun error hreason => by cases hreason).map _
  | receive report =>
    cases report with
    | acknowledge stream => exact (refusedFor_acknowledge stream).map _
    | cancel stream => exact (refusedFor_cancel stream).map _
    | increment count => exact (refusedFor_increment count).map _
  | feedback data => exact absurd rfl (hop data)
  | setValidation validate => exact refusedFor_of_ok rfl fun error hreason => by cases hreason
  | setPolicy policy => exact refusedFor_of_ok rfl fun error hreason => by cases hreason

/-- What can be refused is refused for its own reasons only, and leaves no trace. Octets of the decoder
stream are several reports, of which those before an error take effect. -/
structure RefusesExactly (e : Encoder) : Prop where
  perform : ∀ op, (∀ data, op ≠ .feedback data) → RefusedFor e (Reason e op) (e.perform op)
  /-- What was refused makes no difference to anything later. -/
  run : ∀ op, (∀ data, op ≠ .feedback data) → ∀ error, (e.perform op).result = .error error →
    ∀ ops, e.run (op :: ops) = e.run ops
  /-- A stream is kept as long as it has outstanding sections, and no longer. -/
  kept : ∀ stream, stream ∈ e.streams.map (·.1) ↔ 0 < e.outstanding stream

/-- After any operations, an error comes for its own reason, and is all that happens. -/
theorem Reachable.refusesExactly (h : e.Reachable) : e.RefusesExactly where
  perform _ hop := refusedFor_perform e hop
  run op hop error herror ops := by
    obtain ⟨he, hout⟩ := (refusedFor_perform e hop).untouched error herror
    rw [Encoder.run, he, hout, List.nil_append]
  kept stream := by
    rw [h.occupied.mem_ids_iff, ← List.length_pos_iff]
    rfl

/-- Two sections on their way, one of them static. -/
def staticFirst : Encoder :=
  ((new ⟨100, 1, 0, true, false⟩).run [.setCapacity 100, .insert ⟨[97], []⟩,
    .encode 0 [.ofText ":method" "GET"], .encode 4 [⟨[97], []⟩]]).1

/-- The static one cannot be acknowledged, only cancelled. -/
theorem staticFirst_refusesExactly : staticFirst.Reachable ∧ staticFirst.RefusesExactly ∧
    (staticFirst.acknowledge 0).result = .error (.unknownStream 0) ∧ (staticFirst.cancel 0).result = .ok () ∧
    (staticFirst.increment (2 ^ 64 - 1)).result = .error (.incrementOverrun 0 (2 ^ 64 - 1) 1) ∧
    (staticFirst.encode 8 [⟨[97], []⟩, ⟨[32, 97], []⟩, ⟨[], []⟩]).result = .error (.invalidFieldName 8 " a") := by
  have hr : staticFirst.Reachable := ⟨⟨100, 1, 0, true, false⟩, new _, _, rfl, rfl⟩
  exact ⟨hr, hr.refusesExactly, by decide +kernel, by decide +kernel, by decide +kernel, by decide +kernel⟩

end Encoder
end Qpack
