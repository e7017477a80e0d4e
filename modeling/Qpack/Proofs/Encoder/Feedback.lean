import Qpack.Encoder.Operation
import Qpack.Proofs.Stream.Feedback

/-!
# Octets and calls

The reports of the peer come as octets, cut anywhere, or as calls.

* `Outcome.andThen` : one operation after another, up to the first error;
* `feedback_of_ok`, `feedback_of_truncated`, `feedback_of_fault` : octets are a report and the octets behind it,
  or the beginning of one, or none;
* `Encoder.feedChunks`, `TakesChunks`, `takesChunks` : it does not matter how octets are divided;
* `Encoder.Accepts`, `FollowsCalls`, `followsCalls` : octets of reports do what the calls do, up to the first error.
-/

namespace Qpack

/-! ## One after another -/

namespace Outcome
variable {α β γ : Type}

/-- What comes after a success, from the encoder that it left. After an error nothing comes. -/
def andThen (o : Outcome α) (next : α → Encoder → Outcome β) : Outcome β :=
  match o.result with
  | .error error => ⟨.error error, o.encoder, o.emitted⟩
  | .ok a => ⟨(next a o.encoder).result, (next a o.encoder).encoder, o.emitted ++ (next a o.encoder).emitted⟩

theorem andThen_of_ok {o : Outcome α} {a : α} (h : o.result = .ok a) (next : α → Encoder → Outcome β) :
    o.andThen next =
      ⟨(next a o.encoder).result, (next a o.encoder).encoder, o.emitted ++ (next a o.encoder).emitted⟩ := by
  rw [andThen, h]

theorem andThen_of_error {o : Outcome α} {error : Error} (h : o.result = .error error)
    (next : α → Encoder → Outcome β) : o.andThen next = ⟨.error error, o.encoder, o.emitted⟩ := by
  rw [andThen, h]

theorem andThen_assoc (o : Outcome α) (f : α → Encoder → Outcome β) (g : β → Encoder → Outcome γ) :
    (o.andThen f).andThen g = o.andThen fun a e => (f a e).andThen g := by
  rcases h : o.result with error | a
  · rw [andThen_of_error h, andThen_of_error h]
    rfl
  · rw [andThen_of_ok h, andThen_of_ok h]
    rcases hf : (f a o.encoder).result with error | b
    · rw [andThen_of_error hf]
      simp [andThen]
    · rw [andThen_of_ok hf]
      simp [andThen]

theorem map_andThen (o : Outcome α) (f : α → β) (g : β → Encoder → Outcome γ) :
    (o.map f).andThen g = o.andThen fun a => g (f a) := by
  unfold andThen map
  rcases o.result with error | a <;> rfl

theorem andThen_map (o : Outcome α) (f : α → Encoder → Outcome β) (g : β → γ) :
    (o.andThen f).map g = o.andThen fun a e => (f a e).map g := by
  unfold andThen map
  rcases o.result with error | a <;> rfl

theorem exists_of_map_ok {o : Outcome α} {f : α → β} {b : β} (h : (o.map f).result = .ok b) :
    ∃ a, o.result = .ok a ∧ f a = b := by
  unfold map at h
  dsimp only at h
  rcases hr : o.result with error | a
  · rw [hr] at h
    cases h
  · rw [hr] at h
    exact ⟨a, rfl, Except.ok.inj h⟩

theorem map_id (o : Outcome α) : (o.map fun a => a) = o := by
  unfold map
  rcases o with ⟨error | a, e, emitted⟩ <;> rfl

theorem map_map (o : Outcome α) (f : α → β) (g : β → γ) : (o.map f).map g = o.map fun a => g (f a) := by
  unfold map
  rcases o.result with error | a <;> rfl

/-- What comes next has to be the same only after a success. -/
theorem andThen_congr {o : Outcome α} {f g : α → Encoder → Outcome β}
    (h : ∀ a, o.result = .ok a → f a o.encoder = g a o.encoder) : o.andThen f = o.andThen g := by
  rcases hr : o.result with error | a
  · rw [andThen_of_error hr, andThen_of_error hr]
  · rw [andThen_of_ok hr, andThen_of_ok hr, h a hr]

end Outcome

namespace Encoder
variable {e : Encoder} {data rest : Octets} {item : Feedback} {items : List Feedback}

/-! ## The first report -/

theorem receiveAll_eq_andThen (e : Encoder) (item : Feedback) (items : List Feedback) :
    e.receiveAll (item :: items) = (e.receive item).andThen fun _ e => e.receiveAll items := by
  rw [receiveAll]
  dsimp only
  rcases h : (e.receive item).result with error | ⟨⟩
  · rw [Outcome.andThen_of_error h]
    dsimp only
    rw [← h]
  · rw [Outcome.andThen_of_ok h]

theorem length_le_of_readAll (h : (Feedback.readAll data).2 = .waiting rest) : rest.length ≤ data.length := by
  induction data using Feedback.readAll.induct with
  | case1 data item tail hread ih =>
    rw [Feedback.readAll_of_ok hread] at h
    exact (ih h).trans (Feedback.length_of_read hread).le
  | case2 data hread =>
    rw [Feedback.readAll_of_truncated hread] at h
    cases h
    exact Nat.le_refl _
  | case3 data fault hne hread =>
    rw [Feedback.readAll_of_fault hread fun heq => hne heq] at h
    cases h

/-- Octets that begin with a report do what it does, and then what the others do. -/
theorem feedback_of_ok (h : Feedback.read data = .ok (item, rest)) (e : Encoder) :
    e.feedback data =
      (e.receive item).andThen fun _ e => (e.feedback rest).map (data.length - rest.length + ·) := by
  have hlt := Feedback.length_of_read h
  unfold feedback
  rw [Feedback.readAll_of_ok h]
  dsimp only
  rw [receiveAll_eq_andThen]
  rcases hnow : (e.receive item).result with error | ⟨⟩
  · rw [Outcome.andThen_of_error hnow, Outcome.andThen_of_error hnow]
  · rw [Outcome.andThen_of_ok hnow, Outcome.andThen_of_ok hnow]
    dsimp only
    rcases ((e.receive item).encoder.receiveAll (Feedback.readAll rest).1).result with error | ⟨⟩
    · rfl
    · rcases hending : (Feedback.readAll rest).2 with left | fault
      · have hle := length_le_of_readAll hending
        have hcount : data.length - left.length = data.length - rest.length + (rest.length - left.length) := by
          omega
        dsimp only
        rw [hcount]
        rfl
      · rfl

/-- The beginning of a report is left for later. -/
theorem feedback_of_truncated (h : Feedback.read data = .error .truncated) (e : Encoder) :
    e.feedback data = ⟨.ok 0, e, []⟩ := by
  unfold feedback
  rw [Feedback.readAll_of_truncated h]
  show Outcome.mk (.ok (data.length - data.length)) e [] = _
  rw [Nat.sub_self]

theorem feedback_of_fault {fault : Integer.Fault} (h : Feedback.read data = .error fault) (hne : fault ≠ .truncated)
    (e : Encoder) : e.feedback data = ⟨.error (.malformedFeedback fault.toError.message), e, []⟩ := by
  unfold feedback
  rw [Feedback.readAll_of_fault h hne]
  rcases fault <;> rfl

/-! ## Octets in parts -/

/-- What the first octets leave goes before the next ones. -/
theorem feedback_append (e : Encoder) (data more : Octets) :
    e.feedback (data ++ more) =
      (e.feedback data).andThen fun n e => (e.feedback (data.drop n ++ more)).map (n + ·) := by
  induction data using Feedback.readAll.induct generalizing e with
  | case1 data item rest h ih =>
    obtain ⟨part, rfl, -⟩ := Feedback.read_part h
    have hmore : Feedback.read (part ++ rest ++ more) = .ok (item, rest ++ more) := by
      rw [Feedback.read_append (by simp [h]), h]
      rfl
    have hlen : (part ++ rest).length - rest.length = part.length := by simp
    have hlen' : (part ++ rest ++ more).length - (rest ++ more).length = part.length := by
      simp only [List.length_append]
      omega
    rw [feedback_of_ok hmore, feedback_of_ok h, Outcome.andThen_assoc, hlen, hlen']
    apply Outcome.andThen_congr
    intro _ _
    rw [ih, Outcome.andThen_map, Outcome.map_andThen]
    apply Outcome.andThen_congr
    intro n _
    rw [Outcome.map_map, List.drop_length_add_append]
    simp only [Nat.add_assoc]
  | case2 data h =>
    rw [feedback_of_truncated h, Outcome.andThen_of_ok rfl, List.nil_append]
    simp only [List.drop_zero, Nat.zero_add, Outcome.map_id]
  | case3 data fault hne h =>
    have hne' : fault ≠ .truncated := fun heq => hne heq
    have hmore : Feedback.read (data ++ more) = .error fault := by
      rw [Feedback.read_append (by simp [h, hne']), h]
      rfl
    rw [feedback_of_fault hmore hne', feedback_of_fault h hne', Outcome.andThen_of_error rfl]

/-- What is done with are whole reports, and what is left may still become one. -/
theorem whole_of_feedback (e : Encoder) {n : Nat} (hok : (e.feedback data).result = .ok n) :
    n ≤ data.length ∧ Feedback.readAll (data.take n) = ((Feedback.readAll data).1, .waiting []) ∧
      Feedback.read (data.drop n) = .error .truncated := by
  induction data using Feedback.readAll.induct generalizing e n with
  | case1 data item rest h ih =>
    obtain ⟨part, rfl, hpart⟩ := Feedback.read_part h
    have hlen : (part ++ rest).length - rest.length = part.length := by simp
    rw [feedback_of_ok h, hlen] at hok
    rcases hnow : (e.receive item).result with error | ⟨⟩
    · rw [Outcome.andThen_of_error hnow] at hok
      cases hok
    · rw [Outcome.andThen_of_ok hnow] at hok
      obtain ⟨m, hm, rfl⟩ := Outcome.exists_of_map_ok hok
      obtain ⟨hle, htake, hdrop⟩ := ih _ hm
      have hread : Feedback.read (part ++ rest.take m) = .ok (item, rest.take m) := by
        rw [Feedback.read_append (by simp [hpart]), hpart]
        rfl
      refine ⟨?_, ?_, ?_⟩
      · rw [List.length_append]
        omega
      · rw [List.take_length_add_append, Feedback.readAll_of_ok hread, htake, Feedback.readAll_of_ok h]
      · rw [List.drop_length_add_append, hdrop]
  | case2 data h =>
    rw [feedback_of_truncated h] at hok
    obtain rfl := Except.ok.inj hok
    rw [Feedback.readAll_of_truncated h]
    exact ⟨Nat.zero_le _, Feedback.readAll_of_truncated rfl, h⟩
  | case3 data fault hne h =>
    rw [feedback_of_fault h fun heq => hne heq] at hok
    cases hok

/-- Chunks of octets one after another. What one leaves goes before the next. -/
def feedChunks (e : Encoder) (left : Octets) : List Octets → Outcome Nat
  | [] => ⟨.ok 0, e, []⟩
  | chunk :: chunks =>
    (e.feedback (left ++ chunk)).andThen fun n e => (e.feedChunks ((left ++ chunk).drop n) chunks).map (n + ·)

theorem feedChunks_eq (e : Encoder) {left : Octets} (h : Feedback.read left = .error .truncated)
    (chunks : List Octets) : e.feedChunks left chunks = e.feedback (left ++ chunks.flatten) := by
  induction chunks generalizing e left with
  | nil =>
    rw [List.flatten_nil, List.append_nil, feedback_of_truncated h]
    rfl
  | cons chunk chunks ih =>
    rw [List.flatten_cons, ← List.append_assoc, feedback_append]
    apply Outcome.andThen_congr
    intro n hok
    rw [ih _ (whole_of_feedback e hok).2.2]

/-- However octets from the peer are divided, the encoder does the same. -/
structure TakesChunks (e : Encoder) : Prop where
  /-- What the first octets leave goes before the next ones, and an error that they have is final. -/
  resumes : ∀ data more, e.feedback (data ++ more) =
    (e.feedback data).andThen fun n e => (e.feedback (data.drop n ++ more)).map (n + ·)
  /-- What is done with are whole reports, and what is left may still become one. -/
  whole : ∀ data n, (e.feedback data).result = .ok n →
    n ≤ data.length ∧ Feedback.readAll (data.take n) = ((Feedback.readAll data).1, .waiting []) ∧
      Feedback.read (data.drop n) = .error .truncated
  chunks : ∀ chunks, e.feedChunks [] chunks = e.feedback chunks.flatten

theorem takesChunks (e : Encoder) : e.TakesChunks where
  resumes := e.feedback_append
  whole _ _ := e.whole_of_feedback
  chunks := e.feedChunks_eq rfl

/-- A section on a stream whose acknowledgement takes three octets. -/
def sentFar : Encoder :=
  ((new .default).run [.setCapacity 200, .insert ⟨[97], [98]⟩, .encode 300 [⟨[97], [98]⟩]]).1

/-- The acknowledgement arrives octet by octet. -/
theorem sentFar_takesChunks : sentFar.TakesChunks ∧
    (sentFar.feedback [0xff, 0xad]).result = .ok 0 ∧
    (sentFar.feedChunks [] [[0xff], [0xad], [0x01]]).result = .ok 3 ∧
    (sentFar.feedChunks [] [[0xff], [0xad], [0x01]]).encoder.outstanding 300 = 0 :=
  ⟨sentFar.takesChunks, by decide +kernel, by decide +kernel, by decide +kernel⟩

/-! ## Octets of reports -/

/-- The calls for some reports are all successful, one after another. -/
inductive Accepts : Encoder → List Feedback → Encoder → List Instruction → Prop where
  | nil (e : Encoder) : Accepts e [] e []
  | cons {e e' : Encoder} {item : Feedback} {items : List Feedback} {out : List Instruction} :
    (e.receive item).result = .ok () → Accepts (e.receive item).encoder items e' out →
    Accepts e (item :: items) e' ((e.receive item).emitted ++ out)

/-- A report that is refused changes nothing. -/
theorem receive_of_error {error : Error} (h : (e.receive item).result = .error error) :
    (e.receive item).encoder = e ∧ (e.receive item).emitted = [] := by
  cases item with
  | acknowledge stream =>
    unfold receive acknowledge at h ⊢
    dsimp only at h ⊢
    split
    · exact ⟨rfl, rfl⟩
    · next hack =>
      rw [hack] at h
      cases h
  | cancel stream =>
    unfold receive cancel at h ⊢
    dsimp only at h ⊢
    split
    · exact ⟨rfl, rfl⟩
    · next hne =>
      rcases hq : e.streams.queue stream with _ | ⟨x, queue⟩
      · exact absurd hq hne
      · rw [hq] at h
        cases h
  | increment count =>
    unfold receive increment at h ⊢
    dsimp only at h ⊢
    split
    · exact ⟨rfl, rfl⟩
    · split
      · exact ⟨rfl, rfl⟩
      · next hz hle =>
        rw [if_neg hz, if_neg hle] at h
        cases h

theorem feedback_writeAll_cons (e : Encoder) (hitem : item.value ≤ Integer.maximum) (items : List Feedback) :
    e.feedback (Feedback.writeAll (item :: items)) =
      (e.receive item).andThen fun _ e => (e.feedback (Feedback.writeAll items)).map (item.write.length + ·) := by
  have hread := Feedback.read_write hitem (Feedback.writeAll items)
  have hlen : (item.write ++ Feedback.writeAll items).length - (Feedback.writeAll items).length =
      item.write.length := by simp
  rw [Feedback.writeAll, List.flatMap_cons]
  exact (feedback_of_ok hread e).trans (by rw [hlen])

/-- Accepted reports are all done with. -/
theorem Accepts.feedback {e' : Encoder} {out : List Instruction} (h : Accepts e items e' out)
    (hitems : ∀ item ∈ items, item.value ≤ Integer.maximum) :
    e.feedback (Feedback.writeAll items) = ⟨.ok (Feedback.writeAll items).length, e', out⟩ := by
  induction h with
  | nil e => exact feedback_of_truncated rfl e
  | @cons e e' item items out hnow _ ih =>
    rw [List.forall_mem_cons] at hitems
    have hlen : (Feedback.writeAll (item :: items)).length =
        item.write.length + (Feedback.writeAll items).length := List.length_append
    rw [feedback_writeAll_cons e hitems.1, Outcome.andThen_of_ok hnow, ih hitems.2, hlen]
    rfl

/-- After accepted reports, one that is refused ends it all. What they did is kept. -/
theorem Accepts.feedback_of_error {e' : Encoder} {out : List Instruction} {error : Error}
    (h : Accepts e items e' out) (hitems : ∀ item ∈ items, item.value ≤ Integer.maximum) {bad : Feedback}
    (hbad : bad.value ≤ Integer.maximum) (herror : (e'.receive bad).result = .error error)
    (others : List Feedback) :
    e.feedback (Feedback.writeAll (items ++ bad :: others)) = ⟨.error error, e', out⟩ := by
  induction h with
  | nil e =>
    obtain ⟨hsame, hnothing⟩ := receive_of_error herror
    rw [List.nil_append, feedback_writeAll_cons e hbad, Outcome.andThen_of_error herror, hsame, hnothing]
  | @cons e e' item items out hnow _ ih =>
    rw [List.forall_mem_cons] at hitems
    rw [List.cons_append, feedback_writeAll_cons e hitems.1, Outcome.andThen_of_ok hnow, ih hitems.2 herror]
    rfl

/-- Either all reports are accepted, or one of them is the first that is refused. -/
theorem accepts_or_refuses (e : Encoder) (items : List Feedback) :
    (∃ e' out, Accepts e items e' out) ∨ ∃ taken bad others e' out error,
      items = taken ++ bad :: others ∧ Accepts e taken e' out ∧ (e'.receive bad).result = .error error := by
  induction items generalizing e with
  | nil => exact Or.inl ⟨e, [], .nil e⟩
  | cons item items ih =>
    rcases hnow : (e.receive item).result with error | ⟨⟩
    · exact Or.inr ⟨[], item, items, e, [], error, rfl, .nil e, hnow⟩
    · rcases ih (e.receive item).encoder with
        ⟨e', out, hall⟩ | ⟨taken, bad, others, e', out, error, rfl, hall, herror⟩
      · exact Or.inl ⟨e', _, .cons hnow hall⟩
      · exact Or.inr ⟨item :: taken, bad, others, e', _, error, rfl, .cons hnow hall, herror⟩

/-- The octets of reports do what the calls for them do. -/
structure FollowsCalls (e : Encoder) (items : List Feedback) : Prop where
  /-- A report is read again from its octets, whatever follows them. -/
  read : ∀ item ∈ items, ∀ rest, Feedback.read (item.write ++ rest) = .ok (item, rest)
  decided : (∃ e' out, Accepts e items e' out) ∨ ∃ taken bad others e' out error,
    items = taken ++ bad :: others ∧ Accepts e taken e' out ∧ (e'.receive bad).result = .error error
  accepted : ∀ e' out, Accepts e items e' out →
    e.feedback (Feedback.writeAll items) = ⟨.ok (Feedback.writeAll items).length, e', out⟩
  /-- The first report that is refused changes nothing, and those after it are not looked at. -/
  refused : ∀ taken bad others e' out error, items = taken ++ bad :: others → Accepts e taken e' out →
    (e'.receive bad).result = .error error →
    (e'.receive bad).encoder = e' ∧ (e'.receive bad).emitted = [] ∧
      e.feedback (Feedback.writeAll items) = ⟨.error error, e', out⟩

theorem followsCalls (e : Encoder) (hitems : ∀ item ∈ items, item.value ≤ Integer.maximum) :
    e.FollowsCalls items where
  read item hitem := Feedback.read_write (hitems item hitem)
  decided := e.accepts_or_refuses items
  accepted _ _ h := h.feedback hitems
  refused taken bad others _ _ _ hall h herror := by
    subst hall
    obtain ⟨htaken, hrest⟩ := List.forall_mem_append.1 hitems
    obtain ⟨hsame, hnothing⟩ := receive_of_error herror
    exact ⟨hsame, hnothing, h.feedback_of_error htaken (List.forall_mem_cons.1 hrest).1 herror others⟩

/-- The third of four reports is about a stream without sections. -/
theorem sentFar_followsCalls :
    sentFar.FollowsCalls [.increment 1, .acknowledge 300, .cancel Integer.maximum, .increment 1] ∧
      (sentFar.feedback (Feedback.writeAll
        [.increment 1, .acknowledge 300, .cancel Integer.maximum, .increment 1])).result =
        .error (.unknownStream Integer.maximum) ∧
      (sentFar.feedback (Feedback.writeAll
        [.increment 1, .acknowledge 300, .cancel Integer.maximum, .increment 1])).encoder.outstanding 300 = 0 :=
  ⟨sentFar.followsCalls (by decide), by decide +kernel, by decide +kernel⟩

end Encoder
end Qpack
