import Qpack.Proofs.Encoder.Transmission
import Qpack.Proofs.Field.Policy

/-!
# Encoders under a policy

An encoder asks its policy again for each field that it meets. As long as the policy stays the same, all
that was inserted is what the policy permits, and so is what the lines make of it.

* `Encoder.Guided p` : steps that insert nothing but what the policy `p` permits;
* `Permitted p`, `Permitted.guided` : all entries may be in the table, and such steps leave it so;
* `Under p` : an encoder that has obeyed the policy so far, and still has it;
* `Draft.Obeys p e fields d` : `d` comes from `e` by such steps, and its lines for `fields` are permitted;
* `obeys_ofFields` : so it is with a finished section;
* `Outcome.Neutral e o` : nothing was inserted, and the policy is as before;
* `Transmission.MadeOf` : which lines a section is made of;
* `Operation.Keeps p` : the operation installs no other policy;
* `Under.guided_perform`, `Under.perform`, `Under.transmitted` : an operation is such steps, leaves the encoder
  under the policy if it keeps it, and sends permitted lines;
* `under_new`, `Under.run` : so are a new encoder, and any other after operations that keep the policy.
-/

namespace Qpack

/-! ## Steps under a policy -/

namespace Encoder

/-- Steps whose insertions are permitted. -/
inductive Guided (p : Policy) : Encoder → SentSection → List Instruction → Encoder → SentSection → Prop where
  | refl (e : Encoder) (s : SentSection) : Guided p e s [] e s
  | tail {e₁ e₂ e₃ : Encoder} {s₁ s₂ s₃ : SentSection} {out more : List Instruction} :
    Guided p e₁ s₁ out e₂ s₂ → Step e₂ s₂ more e₃ s₃ →
    (∀ i ∈ more, ∀ f, i.field? e₂.table.inserted e₂.table.field? = some f → p.PermitsInsertion i f) →
    Guided p e₁ s₁ (out ++ more) e₃ s₃

variable {p : Policy} {e e₁ e₂ e₃ : Encoder} {s s₁ s₂ s₃ : SentSection} {out more : List Instruction}
  {i : Instruction} {f : Field}

theorem Guided.steps (h : Guided p e₁ s₁ out e₂ s₂) : Steps e₁ s₁ out e₂ s₂ := by
  induction h with
  | refl => exact Steps.refl _ _
  | tail _ hstep _ ih => exact ih.tail hstep

theorem Guided.trans (h₁ : Guided p e₁ s₁ out e₂ s₂) (h₂ : Guided p e₂ s₂ more e₃ s₃) :
    Guided p e₁ s₁ (out ++ more) e₃ s₃ := by
  induction h₂ with
  | refl =>
    rw [List.append_nil]
    exact h₁
  | tail _ hstep hpermits ih =>
    rw [← List.append_assoc]
    exact (ih h₁).tail hstep hpermits

/-- What does not insert brings no field. -/
theorem field?_of_not_inserts (h : i.inserts = false) (n : Nat) (look : Nat → Option Field) :
    i.field? n look = none := by
  cases i with
  | setCapacity c => rfl
  | _ => cases h

/-- Steps without insertions are guided by any policy. -/
theorem Steps.guided (h : Steps e₁ s₁ out e₂ s₂) (hout : ∀ i ∈ out, i.inserts = false) :
    Guided p e₁ s₁ out e₂ s₂ := by
  induction h with
  | refl => exact .refl _ _
  | tail _ hstep ih =>
    apply (ih fun i hi => hout i (List.mem_append_left _ hi)).tail hstep
    intro i hi f hf
    rw [field?_of_not_inserts (hout i (List.mem_append_right _ hi))] at hf
    cases hf

theorem guided_insertion (ha : e.admits f = true) (hi : i.field? e.table.inserted e.table.field? = some f)
    (hp : p.PermitsInsertion i f) : Guided p e s [i] { e with table := e.table.add f } s := by
  apply (Guided.refl e s).tail (Step.insert ha hi)
  intro j hj g hg
  obtain rfl := List.mem_singleton.1 hj
  rw [hi] at hg
  obtain rfl := Option.some.inj hg
  exact hp

/-- All entries may be in the table. -/
def Permitted (p : Policy) (e : Encoder) : Prop := ∀ i f, e.table.field? i = some f → p.mayIndex f = true

/-- An entry was there before, or it is that of a permitted insertion. -/
theorem Permitted.step (hp : Permitted p e₁) (h : Sound e₁ s₁) (hstep : Step e₁ s₁ out e₂ s₂)
    (hout : ∀ i ∈ out, ∀ f, i.field? e₁.table.inserted e₁.table.field? = some f → p.PermitsInsertion i f) :
    Permitted p e₂ := by
  intro n g hg
  have hages := hstep.agesTo h
  have hlt : n < e₂.table.inserted := (hstep.sound h).valid.lt_of_field? hg
  by_cases hold : n < e₁.table.inserted
  · exact hp n g (hages.keeps n hold g hg)
  · cases hstep with
    | insert ha hf =>
      have hfits := (admits_eq_true.1 ha).2
      have hn : n = e₁.table.inserted := by
        have hadd := hlt.trans_eq (DynamicTable.inserted_add hfits)
        omega
      have hnew := h.valid.field?_add_self h.waits hfits
      rw [← hn] at hnew
      obtain rfl := Option.some.inj (hnew.symm.trans hg)
      exact (hout _ List.mem_cons_self _ hf).index
    | shed hu _ => exact absurd (hlt.trans_eq hu.inserted) hold
    | resize hu _ _ => exact absurd (hlt.trans_eq hu.inserted) hold
    | depend _ _ => exact absurd (hlt.trans_eq (DynamicTable.sameMeasures_refer _ _).inserted) hold
    | retire _ => exact absurd (hlt.trans_eq (DynamicTable.sameMeasures_foldl_release _ _).inserted) hold
    | _ => exact absurd hlt hold

theorem Permitted.guided (hp : Permitted p e₁) (h : Sound e₁ s₁) (hg : Guided p e₁ s₁ out e₂ s₂) :
    Permitted p e₂ := by
  induction hg with
  | refl => exact hp
  | tail hg hstep hpermits ih => exact (ih h).step (hg.steps.sound h) hstep hpermits

/-- An encoder between two operations that has obeyed a policy so far, and still has it. -/
structure Under (p : Policy) (e : Encoder) : Prop where
  sound : Sound e .empty
  policy : e.policy = p
  permitted : Permitted p e

/-! ## Insertions -/

theorem coded_insertion (h : e.policy.mayHuffman f = false) (entry : Option EntryRef) :
    (e.insertion f entry).coded = false := by
  rcases entry with _ | index | index <;> simp [insertion, Instruction.coded, Literal.isCoded, h]

theorem coded_standaloneInsertion (h : e.policy.mayHuffman f = false) : (e.standaloneInsertion f).coded = false := by
  unfold standaloneInsertion
  split
  · rfl
  · exact coded_insertion h _

/-- A field that finds room may be in the table. -/
theorem permitsInsertion_of_admits (hp : e.policy = p) (ha : e.admits f = true)
    (hcoding : e.policy.mayHuffman f = false → i.coded = false) : p.PermitsInsertion i f := by
  subst hp
  exact ⟨(admits_eq_true.1 ha).1, hcoding⟩

theorem inserts_of_mem_drain (hi : i ∈ e.drain.2) : i.inserts = false := by
  unfold drain at hi
  obtain ⟨c, -, rfl⟩ := List.mem_map.1 hi
  rfl

end Encoder

/-! ## Sections under a policy -/

namespace Draft
open Encoder
variable {p : Policy} {e : Encoder} {fields : List Field} {d d' : Draft} {f : Field} {i : Instruction} {l : FieldLine}

/-- `d` comes from `e` by steps that the policy permits, and so are its lines for `fields`. -/
structure Obeys (p : Policy) (e : Encoder) (fields : List Field) (d : Draft) : Prop where
  guided : Guided p e .empty d.emitted d.encoder d.sent
  policy : d.encoder.policy = p
  lines : List.Forall₂ p.PermitsLine fields d.lines

theorem Obeys.sound (h : Obeys p e fields d) (hs : Sound e .empty) : Sound d.encoder d.sent :=
  h.guided.steps.sound hs

theorem Obeys.drain (h : Obeys p e fields d) (hs : Sound e .empty) : Obeys p e fields d.drain := by
  have hd := (steps_drain (h.sound hs)).guided (p := p) fun i hi => inserts_of_mem_drain hi
  exact ⟨h.guided.trans hd, h.policy, h.lines⟩

theorem Obeys.insert (h : Obeys p e fields d) (ha : d.encoder.admits f = true)
    (hi : i.field? d.encoder.table.inserted d.encoder.table.field? = some f)
    (hcoding : d.encoder.policy.mayHuffman f = false → i.coded = false) : Obeys p e fields (d.insert f i) :=
  ⟨h.guided.trans (guided_insertion ha hi (permitsInsertion_of_admits h.policy ha hcoding)), h.policy, h.lines⟩

/-- An entry is taken into use without instructions. -/
theorem refer?_silent {entry : EntryRef} (hr : d.refer? entry = some d') :
    d'.emitted = d.emitted ∧ d'.encoder.policy = d.encoder.policy := by
  rcases refer?_cases hr with ⟨_, -, rfl⟩ | ⟨index, -, -, ⟨-, rfl⟩ | ⟨-, -, -, rfl⟩⟩
  · exact ⟨rfl, rfl⟩
  · exact ⟨rfl, rfl⟩
  · exact ⟨rfl, rfl⟩

theorem Obeys.refer (h : Obeys p e fields d) (hs : Sound e .empty) {entry : EntryRef}
    (hr : d.refer? entry = some d') : Obeys p e fields d' := by
  obtain ⟨hemitted, hpolicy⟩ := refer?_silent hr
  have hrefers := refers_of_refer? (h.sound hs) hr
  obtain ⟨out, hsteps, hout⟩ := hrefers.steps
  obtain rfl : out = [] := by
    rw [hemitted] at hout
    exact List.self_eq_append_right.1 hout
  have hg : Guided p d.encoder d.sent [] d'.encoder d'.sent := hsteps.guided (by simp)
  refine ⟨?_, hpolicy.trans h.policy, ?_⟩
  · rw [hout]
    exact h.guided.trans hg
  · rw [hrefers.lines]
    exact h.lines

theorem Obeys.line (h : Obeys p e fields d) (hl : p.PermitsLine f l) : Obeys p e (fields ++ [f]) (d.line l) :=
  ⟨h.guided, h.policy, List.rel_append h.lines (List.Forall₂.cons hl List.Forall₂.nil)⟩

theorem Obeys.literalLine (h : Obeys p e fields d) (f : Field) : Obeys p e (fields ++ [f]) (d.literalLine f) := by
  apply h.line
  rw [h.policy]
  exact p.permitsLine_literal f

/-- Whichever way is taken, the insertion and the line for a field are permitted. -/
theorem Obeys.wrote (h : Obeys p e fields d) (hu : Under p e) (hw : Wrote d f d') :
    Obeys p e (fields ++ [f]) d' := by
  have hs := hu.sound
  have hsound := h.sound hs
  cases hw with
  | indexed hl hr =>
    apply (h.refer hs hr).line
    apply Policy.permitsLine_indexed
    rintro index rfl
    exact hu.permitted.guided hs h.guided index f (hsound.valid.lookup_field hl)
  | copied _ hl _ ha hr =>
    have hfield := duplicate_field? hsound.valid (DynamicTable.find?_of_lookup hl)
    apply ((h.insert ha hfield fun _ => rfl).refer hs hr).line
    apply Policy.permitsLine_indexed
    intro _ _
    rw [← h.policy]
    exact (admits_eq_true.1 ha).1
  | copiedInVain _ hl _ ha _ =>
    have hfield := duplicate_field? hsound.valid (DynamicTable.find?_of_lookup hl)
    exact (h.insert ha hfield fun _ => rfl).literalLine f
  | named _ _ _ hr _ =>
    apply (h.refer hs hr).line
    rw [h.policy]
    exact p.permitsLine_named f _
  | namedInserted _ _ hl hr hwant =>
    have ha := admits_of_refer? hr (admits_of_wantsEntry hwant)
    have hfield := (refers_of_refer? hsound hr).insertion_field? hsound hl
    apply ((h.refer hs hr).insert ha hfield fun hf => coded_insertion ((refer?_silent hr).2 ▸ hf) _).line
    rw [h.policy]
    exact p.permitsLine_named f _
  | literal _ _ _ _ => exact h.literalLine f
  | literalInserted _ _ _ hwant =>
    exact (h.insert (admits_of_wantsEntry hwant) (literal_field? f) fun hf => coded_insertion hf none).literalLine f

theorem obeys_ofFields (hu : Under p e) (fields : List Field) : Obeys p e fields (ofFields e fields) := by
  induction fields using List.reverseRecOn with
  | nil => exact ⟨.refl _ _, hu.policy, .nil⟩
  | append_singleton fields f ih =>
    rw [ofFields_append_singleton]
    exact (ih.drain hu.sound).wrote hu (wrote_write _ f)

end Draft

/-! ## Operations without insertions -/

/-- What comes of an operation on `e` that inserts nothing, whatever the policy, and leaves it in place. -/
structure Outcome.Neutral {α : Type} (e : Encoder) (o : Outcome α) : Prop where
  policy : o.encoder.policy = e.policy
  silent : ∀ i ∈ o.emitted, i.inserts = false

namespace Encoder
variable {p : Policy} {e : Encoder} {stream : Nat} {op : Operation}

theorem neutral_of_emitted_nil {α : Type} {o : Outcome α} (hpolicy : o.encoder.policy = e.policy)
    (hout : o.emitted = []) : o.Neutral e := by
  refine ⟨hpolicy, ?_⟩
  simp [hout]

theorem neutral_setCapacity (capacity : Nat) : (e.setCapacity capacity).Neutral e := by
  unfold setCapacity
  split
  · exact neutral_of_emitted_nil rfl rfl
  · refine ⟨rfl, ?_⟩
    intro i hi
    dsimp only at hi
    split at hi
    · obtain rfl := List.mem_singleton.1 hi
      rfl
    · cases hi

theorem neutral_acknowledge (stream : Nat) : (e.acknowledge stream).Neutral e := by
  unfold acknowledge
  split
  · exact neutral_of_emitted_nil rfl rfl
  · refine ⟨rfl, ?_⟩
    intro i hi
    exact inserts_of_mem_drain hi

theorem neutral_cancel (stream : Nat) : (e.cancel stream).Neutral e := by
  unfold cancel
  split
  · exact neutral_of_emitted_nil rfl rfl
  · obtain ⟨n, hn⟩ := foldl_retire_eq { e with streams := e.streams.put stream [] } (e.streams.queue stream)
    dsimp only
    rw [hn]
    refine ⟨rfl, ?_⟩
    intro i hi
    exact inserts_of_mem_drain hi

theorem neutral_increment (count : Nat) : (e.increment count).Neutral e := by
  unfold increment
  split
  · exact neutral_of_emitted_nil rfl rfl
  · split
    · exact neutral_of_emitted_nil rfl rfl
    · exact neutral_of_emitted_nil rfl rfl

/-- The peer brings no field into the table. -/
theorem neutral_receive (report : Feedback) : (e.receive report).Neutral e := by
  cases report with
  | acknowledge stream => exact neutral_acknowledge stream
  | cancel stream => exact neutral_cancel stream
  | increment count => exact neutral_increment count

theorem neutral_receiveAll (items : List Feedback) : (e.receiveAll items).Neutral e := by
  induction items generalizing e with
  | nil => exact neutral_of_emitted_nil rfl rfl
  | cons item rest ih =>
    have hnow := neutral_receive (e := e) item
    unfold receiveAll
    dsimp only
    split
    · exact hnow
    · have hlater := ih (e := (e.receive item).encoder)
      refine ⟨hlater.policy.trans hnow.policy, ?_⟩
      intro i hi
      rcases List.mem_append.1 hi with hi | hi
      · exact hnow.silent i hi
      · exact hlater.silent i hi

theorem neutral_feedback (data : Octets) : (e.feedback data).Neutral e := by
  have hall := neutral_receiveAll (e := e) (Feedback.readAll data).1
  unfold feedback
  dsimp only
  split <;> exact ⟨hall.policy, hall.silent⟩

end Encoder

/-! ## Operations under a policy -/

/-- The octets of a section are a head and lines, one of the given kind for each field. -/
def Transmission.MadeOf (maxCapacity : Nat) (line : Field → FieldLine → Prop) (x : Transmission) : Prop :=
  ∃ head lines, x.octets = SectionHead.write maxCapacity head ++ lines.flatMap (FieldLine.write head.base) ∧
    List.Forall₂ line x.fields lines

/-- Whether an operation leaves a policy in place. -/
def Operation.Keeps (p : Policy) : Operation → Prop
  | .setPolicy q => q = p
  | _ => True

namespace Encoder
variable {p : Policy} {e : Encoder} {stream : Nat} {op : Operation}

/-- A field that is inserted outside of any section is permitted. -/
theorem Under.insert (h : Under p e) (f : Field) :
    Guided p e .empty (e.insert f).emitted (e.insert f).encoder .empty := by
  have hd := (steps_drain h.sound).guided (p := p) fun i hi => inserts_of_mem_drain hi
  unfold Encoder.insert
  dsimp only
  split
  · next ha =>
    have hfield := standaloneInsertion_field? (hd.steps.sound h.sound).valid f
    have hpermits := permitsInsertion_of_admits (e := e.drain.1) h.policy ha coded_standaloneInsertion
    exact hd.trans (guided_insertion ha hfield hpermits)
  · exact hd

/-- Sent or not, the table is where permitted steps lead to. -/
theorem Under.guided_perform (h : Under p e) (op : Operation) :
    ∃ e' s, Guided p e .empty (e.perform op).emitted e' s ∧ (e.perform op).encoder.table = e'.table ∧
      (e.perform op).encoder.settings = e'.settings := by
  cases op with
  | setCapacity capacity =>
    exact ⟨_, _, (steps_setCapacity capacity).guided (neutral_setCapacity capacity).silent, rfl, rfl⟩
  | encode stream fields =>
    have hperform : e.perform (.encode stream fields) = (e.encode stream fields).map .encoded := rfl
    rcases hname : e.refusedName? fields with _ | f
    · rw [hperform, encode_eq hname]
      exact ⟨_, _, (Draft.obeys_ofFields h fields).guided, rfl, rfl⟩
    · rw [hperform, encode, hname]
      exact ⟨e, .empty, .refl e .empty, rfl, rfl⟩
  | insert f => exact ⟨_, _, h.insert f, rfl, rfl⟩
  | receive report =>
    exact ⟨_, _, (steps_receive h.sound report).guided (neutral_receive report).silent, rfl, rfl⟩
  | feedback data => exact ⟨_, _, (steps_feedback h.sound data).guided (neutral_feedback data).silent, rfl, rfl⟩
  | setValidation validate =>
    exact ⟨_, _, (Step.configure (e := e) (s := .empty) validate e.policy).steps.guided (by simp), rfl, rfl⟩
  | setPolicy policy =>
    exact ⟨_, _, (Step.configure (e := e) (s := .empty) e.validate policy).steps.guided (by simp), rfl, rfl⟩

theorem Under.policy_perform (h : Under p e) (hk : op.Keeps p) : (e.perform op).encoder.policy = p := by
  cases op with
  | setCapacity capacity => exact (neutral_setCapacity capacity).policy.trans h.policy
  | encode stream fields =>
    show (e.encode stream fields).encoder.policy = p
    rcases hname : e.refusedName? fields with _ | f
    · rw [encode_eq hname]
      exact (Draft.obeys_ofFields h fields).policy
    · rw [encode, hname]
      exact h.policy
  | insert f =>
    show (e.insert f).encoder.policy = p
    unfold Encoder.insert
    dsimp only
    split <;> exact h.policy
  | receive report => exact (neutral_receive report).policy.trans h.policy
  | feedback data => exact (neutral_feedback data).policy.trans h.policy
  | setValidation validate => exact h.policy
  | setPolicy q => exact hk

theorem Under.perform (h : Under p e) (hk : op.Keeps p) : Under p (e.perform op).encoder := by
  obtain ⟨e', s, hg, htable, -⟩ := h.guided_perform op
  refine ⟨h.sound.perform op, h.policy_perform hk, ?_⟩
  unfold Permitted
  rw [htable]
  exact h.permitted.guided h.sound hg

/-- The lines of what is sent are permitted. -/
theorem Under.transmitted (h : Under p e) {x : Transmission} (hx : x ∈ e.transmitted stream op) :
    x.MadeOf e.settings.maxTableCapacity p.PermitsLine := by
  cases op with
  | encode id fields =>
    unfold Encoder.transmitted at hx
    dsimp only at hx
    split at hx
    · next octets hok =>
      split at hx
      · obtain rfl := List.mem_singleton.1 hx
        have hobeys := Draft.obeys_ofFields h fields
        rw [encode_eq (refusedName?_eq_none hok)] at hok
        obtain rfl := Except.ok.inj hok
        refine ⟨(Draft.ofFields e fields).head, _, ?_, hobeys.lines⟩
        rw [← hobeys.guided.steps.settings]
        rfl
      · cases hx
    · cases hx
  | _ => cases hx

/-! ## Runs under a policy -/

/-- A new encoder with a policy instead of the standard one is under it: its table is empty. -/
theorem under_new (settings : Settings) (p : Policy) : Under p { new settings with policy := p } := by
  have hsound : Sound { new settings with policy := p } .empty :=
    (Step.configure (new settings).validate p).sound (sound_new settings)
  refine ⟨hsound, rfl, ?_⟩
  intro i f hf
  have hlt : i < 0 := hsound.valid.lt_of_field? hf
  omega

theorem Under.run (h : Under p e) {ops : List Operation}
    (hops : ∀ op ∈ ops, op.Keeps p) : Under p (e.run ops).1 := by
  induction ops generalizing e with
  | nil => exact h
  | cons op rest ih =>
    exact ih (h.perform (hops op List.mem_cons_self)) fun o ho => hops o (List.mem_cons_of_mem op ho)

end Encoder
end Qpack
