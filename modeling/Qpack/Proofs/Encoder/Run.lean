import Qpack.Encoder.Operation
import Qpack.Proofs.Encoder.Draft

/-!
# Operations as steps

* `Encoder.send` : a section is drafted and on its way;
* `steps_setCapacity`, `steps_insert`, `steps_receive`, `steps_feedback` : the other operations are
  steps without a section;
* `foldl_retire_eq` : what sections change that are given up together;
* `perform_cases` : what one operation is, for all of them;
* `Reachable.sound` : the encoders that operations lead to are sound;
* `agesTo_run` : operations only age the table.
-/

namespace Qpack.Encoder
variable {e : Encoder}

/-! ## Sending a section -/

/-- The section goes to the end of the queue of a stream. -/
def send (e : Encoder) (stream : Nat) (s : SentSection) : Encoder :=
  { e with streams := e.streams.put stream ((e.streams.queue stream).add s) }

theorem queue_send_self (e : Encoder) (stream : Nat) (s : SentSection) :
    (e.send stream s).streams.queue stream = e.streams.queue stream ++ [s] :=
  Streams.queue_put_of_ne_nil e.streams stream (List.append_ne_nil_of_right_ne_nil _ (List.cons_ne_nil s []))

theorem queue_send_of_ne (e : Encoder) {id stream : Nat} (h : id ≠ stream) (s : SentSection) :
    (e.send id s).streams.queue stream = e.streams.queue stream :=
  Streams.queue_put_of_ne e.streams h _

theorem references_send (e : Encoder) (stream : Nat) (s : SentSection) :
    (s.references ++ e.streams.references).Perm (e.send stream s).streams.references := by
  have hp := Streams.references_put_perm e.streams stream ((e.streams.queue stream).add s)
  rw [SentQueue.add, List.flatMap_append, List.flatMap_singleton] at hp
  have hp' := hp.trans (List.perm_append_comm.append_left e.streams.references)
  rw [← List.append_assoc] at hp'
  exact (List.perm_append_comm.trans ((List.perm_append_right_iff _).1 hp').symm)

theorem mem_sections_send {s x : SentSection} {stream : Nat} (hx : x ∈ (e.send stream s).streams.sections) :
    x ∈ e.streams.sections ∨ x = s := by
  have hp := Streams.sections_put_perm e.streams stream ((e.streams.queue stream).add s)
  rcases List.mem_append.1 (hp.subset (List.mem_append_left _ hx)) with hx | hx
  · exact Or.inl hx
  · rcases List.mem_append.1 hx with hx | hx
    · exact Or.inl (Streams.queue_subset_sections _ _ hx)
    · exact Or.inr (List.mem_singleton.1 hx)

theorem Sound.send {s : SentSection} (h : Sound e s) (stream : Nat) : Sound (e.send stream s) .empty := by
  refine ⟨h.valid, h.waits, h.capacity_le, h.counts.perm (references_send e stream s), fun x hx => ?_,
    h.known_le, h.distinct.put stream _⟩
  rcases List.mem_cons.1 hx with rfl | hx
  · rfl
  · rcases mem_sections_send hx with hx | rfl
    · exact h.required_of_mem hx
    · exact h.required x List.mem_cons_self

/-- A section that was sent had no name that is refused. -/
theorem refusedName?_eq_none {stream : Nat} {fields : List Field} {octets : Octets}
    (hok : (e.encode stream fields).result = .ok octets) :
    e.refusedName? fields = none := by
  rcases hname : e.refusedName? fields with _ | f
  · rfl
  · rw [encode, hname] at hok
    cases hok

theorem encode_eq {fields : List Field} (hvalid : e.refusedName? fields = none) (stream : Nat) :
    e.encode stream fields =
      ⟨.ok (Draft.ofFields e fields).octets,
        (Draft.ofFields e fields).encoder.send stream (Draft.ofFields e fields).sent,
        (Draft.ofFields e fields).emitted⟩ := by
  rw [encode, hvalid]
  rfl

/-! ## The sender -/

/-- A capacity that is allowed is asked for. -/
theorem encoder_setCapacity {capacity : Nat} (hle : ¬ e.settings.maxTableCapacity < capacity) :
    (e.setCapacity capacity).encoder = { e with table := (e.table.requestCapacity capacity).1 } := by
  rw [setCapacity, if_neg hle]

theorem steps_setCapacity (capacity : Nat) :
    Steps e .empty (e.setCapacity capacity).emitted (e.setCapacity capacity).encoder .empty := by
  rw [setCapacity]
  split
  · exact Steps.refl e .empty
  · next hle =>
    obtain ⟨u, hu, hc⟩ := e.table.requestCapacity_cases capacity
    rcases hc with ⟨hwait, he⟩ | ⟨hfit, he⟩
    · have hw : u.Waits := fun c hc => by
        rw [hu.pending] at hc
        obtain rfl := Option.some.inj hc
        exact hwait
      simp only [he, Bool.false_and, Bool.false_eq_true, if_false]
      exact (Step.shed hu hw).steps
    · have hstep := Step.resize (s := .empty) hu hfit (Nat.le_of_not_lt hle)
      simp only [he, Bool.true_and, bne_iff_ne, ne_eq, ite_not]
      exact hstep.steps

theorem standaloneInsertion_field? (h : e.table.Valid) (f : Field) :
    (e.standaloneInsertion f).field? e.table.inserted e.table.field? = some f := by
  rw [standaloneInsertion]
  split
  · next index hi => exact duplicate_field? h hi
  · exact insertion_field? h fun r hr => h.lookupName_field hr

theorem steps_insert (h : Sound e .empty) (f : Field) :
    Steps e .empty (e.insert f).emitted (e.insert f).encoder .empty := by
  have hd := steps_drain h
  rw [insert]
  dsimp only
  split
  · next ha => exact hd.tail (Step.insert ha (standaloneInsertion_field? (hd.sound h).valid f))
  · exact hd

/-! ## The peer -/

theorem steps_increment (count : Nat) :
    Steps e .empty (e.increment count).emitted (e.increment count).encoder .empty := by
  rw [increment]
  split
  · exact Steps.refl e .empty
  · split
    · exact Steps.refl e .empty
    · next hle => exact (Step.learn (Nat.le_add_right _ _) (Nat.le_of_not_lt hle)).steps

/-- Sections that need nothing are forgotten, up to the first that is left. -/
theorem steps_forget {stream : Nat} {skipped rest : SentQueue} {x : SentSection}
    (hq : e.streams.queue stream = skipped ++ x :: rest)
    (hs : ∀ y ∈ skipped, y.requiredInsertCount = 0) (hne : skipped ≠ []) :
    Steps e .empty [] { e with streams := e.streams.put stream (x :: rest) } .empty := by
  induction skipped generalizing e with
  | nil => exact absurd rfl hne
  | cons y skipped ih =>
    have hstep := (Step.forget hq (hs y List.mem_cons_self)).steps
    by_cases hnil : skipped = []
    · subst hnil
      exact hstep
    · have hq' : (e.streams.put stream (skipped ++ x :: rest)).queue stream = skipped ++ x :: rest :=
        Streams.queue_put_of_ne_nil _ _ (by simp)
      have hsteps := ih (e := { e with streams := e.streams.put stream (skipped ++ x :: rest) }) hq'
        (fun z hz => hs z (List.mem_cons_of_mem y hz)) hnil
      rw [Streams.put_put _ _ (by simp)] at hsteps
      exact hstep.trans hsteps

theorem steps_acknowledge (h : Sound e .empty) (stream : Nat) :
    Steps e .empty (e.acknowledge stream).emitted (e.acknowledge stream).encoder .empty := by
  rw [acknowledge]
  split
  · exact Steps.refl e .empty
  · next oldest queue hack =>
    obtain ⟨skipped, hq, hs, -⟩ := SentQueue.acknowledge?_eq_some hack
    -- first the sections before the oldest go, then this one itself
    have hretire : Steps e .empty [] (({ e with streams := e.streams.put stream queue } : Encoder).retire oldest)
        .empty := by
      by_cases hne : skipped = []
      · subst hne
        exact (Step.retire hq).steps
      · have hq' : (e.streams.put stream (oldest :: queue)).queue stream = oldest :: queue :=
          Streams.queue_put_of_ne_nil _ _ (List.cons_ne_nil _ _)
        have hstep := Step.retire (e := { e with streams := e.streams.put stream (oldest :: queue) }) hq'
        rw [Streams.put_put _ _ (List.cons_ne_nil _ _)] at hstep
        exact (steps_forget hq hs hne).tail hstep
    have hold : oldest ∈ e.streams.sections := Streams.queue_subset_sections e.streams stream (by
      rw [hq]
      exact List.mem_append_right _ List.mem_cons_self)
    have hinserted := (DynamicTable.sameMeasures_foldl_release e.table oldest.references).inserted
    have hlearn := hretire.tail (Step.learn (Nat.le_max_left e.known oldest.requiredInsertCount)
      ((max_le h.known_le (h.required_le hold)).trans_eq hinserted.symm))
    exact hlearn.trans (steps_drain (hlearn.sound h))

/-- Sections that are given up change nothing but the counts of the table and the budget. -/
theorem foldl_retire_eq (e : Encoder) (q : SentQueue) :
    ∃ n, q.foldl retire e =
      { e with
        blocked := n
        table := (q.flatMap (·.references)).foldl DynamicTable.release e.table } := by
  induction q generalizing e with
  | nil => exact ⟨e.blocked, rfl⟩
  | cons s q ih =>
    obtain ⟨n, hn⟩ := ih (e.retire s)
    refine ⟨n, ?_⟩
    rw [List.foldl_cons, hn, List.flatMap_cons, List.foldl_append]
    rfl

/-- All sections of a stream are given up. -/
theorem steps_retire_all {stream : Nat} {x : SentSection} {queue : SentQueue}
    (hq : e.streams.queue stream = x :: queue) :
    Steps e .empty [] ((x :: queue).foldl retire { e with streams := e.streams.put stream [] }) .empty := by
  induction queue generalizing e x with
  | nil => exact (Step.retire hq).steps
  | cons y queue ih =>
    have hstep := (Step.retire hq).steps
    have hq' : (e.streams.put stream (y :: queue)).queue stream = y :: queue :=
      Streams.queue_put_of_ne_nil _ _ (List.cons_ne_nil _ _)
    have hsteps := ih (e := ({ e with streams := e.streams.put stream (y :: queue) } : Encoder).retire x) hq'
    have hput : ((({ e with streams := e.streams.put stream (y :: queue) } : Encoder).retire x).streams).put stream []
        = e.streams.put stream [] := Streams.put_put _ _ (List.cons_ne_nil _ _) _
    rw [hput] at hsteps
    exact hstep.trans hsteps

theorem steps_cancel (h : Sound e .empty) (stream : Nat) :
    Steps e .empty (e.cancel stream).emitted (e.cancel stream).encoder .empty := by
  rcases hq : e.streams.queue stream with _ | ⟨x, queue⟩
  · rw [cancel, hq]
    exact Steps.refl e .empty
  · rw [cancel, hq]
    have hsteps := steps_retire_all hq
    exact hsteps.trans (steps_drain (hsteps.sound h))

theorem steps_receive (h : Sound e .empty) (report : Feedback) :
    Steps e .empty (e.receive report).emitted (e.receive report).encoder .empty := by
  cases report with
  | acknowledge stream => exact steps_acknowledge h stream
  | cancel stream => exact steps_cancel h stream
  | increment count => exact steps_increment count

theorem steps_receiveAll (h : Sound e .empty) (items : List Feedback) :
    Steps e .empty (e.receiveAll items).emitted (e.receiveAll items).encoder .empty := by
  induction items generalizing e with
  | nil => exact Steps.refl e .empty
  | cons item rest ih =>
    have hnow := steps_receive h item
    rw [receiveAll]
    dsimp only
    split
    · exact hnow
    · exact hnow.trans (ih (hnow.sound h))

/-- Octets from the peer are reports, whatever they end with. -/
theorem steps_feedback (h : Sound e .empty) (data : Octets) :
    Steps e .empty (e.feedback data).emitted (e.feedback data).encoder .empty := by
  have hsteps := steps_receiveAll h (Feedback.readAll data).1
  rw [feedback]
  dsimp only
  split <;> exact hsteps

/-! ## Any operation -/

theorem map_ne_encoded {α : Type} {o : Outcome α} {reply : α → Reply}
    (h : ∀ a octets, reply a ≠ .encoded octets) (octets : Octets) : (o.map reply).result ≠ .ok (.encoded octets) := by
  intro hr
  rw [Outcome.map] at hr
  rcases hres : o.result with error | a
  · rw [hres] at hr
    cases hr
  · rw [hres] at hr
    exact h a octets (Except.ok.inj hr)

/-- An operation drafts a section and sends it, or it is steps without a section. -/
theorem perform_cases (h : Sound e .empty) (op : Operation) :
    (∃ stream fields, op = .encode stream fields ∧ e.refusedName? fields = none ∧
      e.perform op =
        ⟨.ok (.encoded (Draft.ofFields e fields).octets),
          (Draft.ofFields e fields).encoder.send stream (Draft.ofFields e fields).sent,
          (Draft.ofFields e fields).emitted⟩) ∨
    (∀ octets, (e.perform op).result ≠ .ok (.encoded octets)) ∧
      Steps e .empty (e.perform op).emitted (e.perform op).encoder .empty := by
  cases op with
  | setCapacity capacity =>
    exact Or.inr ⟨map_ne_encoded (fun _ _ => Reply.noConfusion), steps_setCapacity capacity⟩
  | encode stream fields =>
    rcases hname : e.refusedName? fields with _ | f
    · refine Or.inl ⟨stream, fields, rfl, hname, ?_⟩
      show (e.encode stream fields).map Reply.encoded = _
      rw [encode_eq hname]
      rfl
    · have hrefused : e.perform (.encode stream fields) =
          e.refuse (.invalidFieldName stream (Text.decodeLossy f.name)) := by
        show (e.encode stream fields).map Reply.encoded = _
        rw [encode, hname]
        rfl
      rw [hrefused]
      refine Or.inr ⟨fun octets hr => ?_, Steps.refl e .empty⟩
      cases hr
  | insert f => exact Or.inr ⟨map_ne_encoded (fun _ _ => Reply.noConfusion), steps_insert h f⟩
  | receive report =>
    exact Or.inr ⟨map_ne_encoded (fun _ _ => Reply.noConfusion), steps_receive h report⟩
  | feedback data => exact Or.inr ⟨map_ne_encoded (fun _ _ => Reply.noConfusion), steps_feedback h data⟩
  | setValidation validate =>
    refine Or.inr ⟨fun octets hr => ?_, (Step.configure validate e.policy).steps⟩
    exact Reply.noConfusion (Except.ok.inj hr)
  | setPolicy policy =>
    refine Or.inr ⟨fun octets hr => ?_, (Step.configure e.validate policy).steps⟩
    exact Reply.noConfusion (Except.ok.inj hr)

/-- Sent or not, the table is where the steps of the operation lead to. -/
theorem perform_steps (h : Sound e .empty) (op : Operation) :
    ∃ e' s, Steps e .empty (e.perform op).emitted e' s ∧ (e.perform op).encoder.table = e'.table ∧
      (e.perform op).encoder.settings = e'.settings := by
  rcases perform_cases h op with ⟨stream, fields, -, -, hop⟩ | ⟨-, hsteps⟩
  · obtain ⟨out, hsteps, hemitted⟩ := (Draft.says_ofFields h fields).1.steps
    rw [hop]
    rw [show (Draft.ofFields e fields).emitted = out from hemitted]
    exact ⟨_, _, hsteps, rfl, rfl⟩
  · exact ⟨_, _, hsteps, rfl, rfl⟩

theorem settings_perform (h : Sound e .empty) (op : Operation) :
    (e.perform op).encoder.settings = e.settings := by
  obtain ⟨e', s, hsteps, -, hset⟩ := perform_steps h op
  exact hset.trans hsteps.settings

theorem Sound.perform (h : Sound e .empty) (op : Operation) : Sound (e.perform op).encoder .empty := by
  rcases perform_cases h op with ⟨stream, fields, -, -, hop⟩ | ⟨-, hsteps⟩
  · rw [hop]
    exact ((Draft.says_ofFields h fields).1.sound h).send stream
  · exact hsteps.sound h

/-! ## Runs -/

theorem Sound.run (h : Sound e .empty) (ops : List Operation) : Sound (e.run ops).1 .empty := by
  induction ops generalizing e with
  | nil => exact h
  | cons op rest ih => exact ih (h.perform op)

theorem settings_run (h : Sound e .empty) (ops : List Operation) : (e.run ops).1.settings = e.settings := by
  induction ops generalizing e with
  | nil => rfl
  | cons op rest ih => exact (ih (h.perform op)).trans (settings_perform h op)

theorem agesTo_run (h : Sound e .empty) (ops : List Operation) : e.table.AgesTo (e.run ops).1.table := by
  induction ops generalizing e with
  | nil => exact Ages.refl _ _
  | cons op rest ih =>
    obtain ⟨e', s, hsteps, htable, -⟩ := perform_steps h op
    have hnow : e.table.AgesTo (e.perform op).encoder.table := by
      rw [htable]
      exact hsteps.agesTo h
    exact hnow.trans (ih (h.perform op))

theorem run_append (e : Encoder) (ops more : List Operation) :
    e.run (ops ++ more) = (((e.run ops).1.run more).1, (e.run ops).2 ++ ((e.run ops).1.run more).2) := by
  induction ops generalizing e with
  | nil => rfl
  | cons op rest ih =>
    rw [List.cons_append, Encoder.run, ih]
    simp only [Encoder.run, List.append_assoc]

theorem eq_new_of_ofSettings {settings : Settings} {start : Encoder} (h : ofSettings settings = .ok start) :
    start = new settings := by
  rw [ofSettings] at h
  split at h
  · exact (Except.ok.inj h).symm
  · cases h

theorem Reachable.sound (h : e.Reachable) : Sound e .empty := by
  obtain ⟨settings, start, ops, hstart, rfl⟩ := h
  rw [eq_new_of_ofSettings hstart]
  exact (sound_new settings).run ops

theorem Reachable.run (h : e.Reachable) (ops : List Operation) : (e.run ops).1.Reachable := by
  obtain ⟨settings, start, done, hstart, rfl⟩ := h
  exact ⟨settings, start, done ++ ops, hstart, by rw [run_append]⟩

end Qpack.Encoder
