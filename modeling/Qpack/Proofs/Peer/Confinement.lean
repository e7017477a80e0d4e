import Qpack.Proofs.Encoder.Guided
import Qpack.Proofs.Peer.Mirror

/-!
# What a policy keeps to itself

The table is shared by all streams of a connection, and the length of what is coded tells about it. What a
policy keeps out of the table, the peer never finds there, neither by an instruction nor by a line.

* `insertions?_append`, `insertions?_insert` : what a peer finds in instructions;
* `Guided.insertions` : it finds nothing in permitted steps but what the policy permits;
* `Encoder.Within e ops field instruction line` : the fields in the table, the instructions with their fields
  and the lines with theirs are all of the given kinds;
* `within_of_keeps` : those that a policy permits, if all operations keep it;
* `confined_run` : and so a field of a sensitive name never enters the table, and its lines say so.
-/

namespace Qpack

/-! ## What a peer finds -/

namespace PeerTable
variable {t u : PeerTable} {l l' : List Instruction} {a b : List (Instruction × Field)} {i : Instruction} {f : Field}

theorem insertions?_append (hu : t.followAll? l = some u) (ha : t.insertions? l = some a)
    (hb : u.insertions? l' = some b) : t.insertions? (l ++ l') = some (a ++ b) := by
  induction l generalizing t a with
  | nil =>
    obtain rfl := Option.some.inj hu
    obtain rfl := Option.some.inj ha
    exact hb
  | cons i l ih =>
    rw [followAll?_cons] at hu
    obtain ⟨v, hv, hu⟩ := Option.bind_eq_some_iff.1 hu
    simp only [insertions?, List.cons_append, hv, Option.bind_eq_bind, Option.bind_some] at ha ⊢
    obtain ⟨later, hlater, ha⟩ := Option.bind_eq_some_iff.1 ha
    rw [ih hu hlater, Option.bind_some]
    split at ha
    · next hi =>
      obtain ⟨f, hf, ha⟩ := Option.bind_eq_some_iff.1 ha
      obtain rfl := Option.some.inj ha
      rw [if_pos hi, hf]
      rfl
    · next hi =>
      obtain rfl := Option.some.inj ha
      rw [if_neg hi]
      rfl

theorem insertions?_setCapacity {c : Nat} (hu : t.followAll? [.setCapacity c] = some u) :
    t.insertions? [.setCapacity c] = some [] := by
  rw [followAll?_singleton] at hu
  simp [insertions?, hu, Instruction.inserts]

/-- An insertion is found with the field that it brings. -/
theorem insertions?_insert (hi : i.field? t.inserted t.field? = some f) (hu : t.followAll? [i] = some u) :
    t.insertions? [i] = some [(i, f)] := by
  have hinserts := inserts_of_field? hi
  rw [followAll?_singleton] at hu
  rcases follow?_cases hu with ⟨c, rfl, -, -⟩ | ⟨g, hg, -, rfl⟩
  · cases hinserts
  · obtain rfl := Option.some.inj (hg.symm.trans hi)
    simp [insertions?, hu, hinserts]

end PeerTable

namespace Encoder
variable {p : Policy} {e e' : Encoder} {s s' : SentSection} {out : List Instruction} {peer : PeerTable}

/-- A peer finds the fields of a step that the encoder inserts. -/
theorem Step.insertions (h : Mirrors peer e) (hs : Sound e s) (hstep : Step e s out e' s')
    (hout : ∀ i ∈ out, ∀ f, i.field? e.table.inserted e.table.field? = some f → p.PermitsInsertion i f) :
    ∃ list, peer.insertions? out = some list ∧ p.PermitsAll list := by
  obtain ⟨peer', hfollow, -⟩ := h.step hs hstep
  cases hstep with
  | resize _ _ _ =>
    split at hfollow
    · next hc =>
      rw [if_pos hc]
      exact ⟨[], rfl, p.permitsAll_nil⟩
    · next hc =>
      rw [if_neg hc]
      exact ⟨[], PeerTable.insertions?_setCapacity hfollow, p.permitsAll_nil⟩
  | insert ha hi =>
    have hpeer := Instruction.field?_mono (fun j g hg => h.field?_of_field? hs.valid hg) hi
    rw [← h.inserted] at hpeer
    refine ⟨_, PeerTable.insertions?_insert hpeer hfollow, ?_⟩
    intro i f hif
    obtain ⟨rfl, rfl⟩ := Prod.mk.inj (List.mem_singleton.1 hif)
    exact hout _ List.mem_cons_self _ hi
  | _ => exact ⟨[], rfl, p.permitsAll_nil⟩

theorem Guided.insertions (h : Mirrors peer e) (hs : Sound e s) (hg : Guided p e s out e' s') :
    ∃ peer' list, peer.followAll? out = some peer' ∧ Mirrors peer' e' ∧ peer.insertions? out = some list ∧
      p.PermitsAll list := by
  induction hg with
  | refl => exact ⟨peer, [], rfl, h, rfl, p.permitsAll_nil⟩
  | tail hg hstep hpermits ih =>
    obtain ⟨peer₂, list₂, hfollow₂, h₂, hlist₂, hall₂⟩ := ih hs
    obtain ⟨peer₃, hfollow₃, h₃⟩ := h₂.step (hg.steps.sound hs) hstep
    obtain ⟨list₃, hlist₃, hall₃⟩ := hstep.insertions h₂ (hg.steps.sound hs) hpermits
    refine ⟨peer₃, list₂ ++ list₃, ?_, h₃, PeerTable.insertions?_append hfollow₂ hlist₂ hlist₃, hall₂.append hall₃⟩
    rw [PeerTable.followAll?_append, hfollow₂]
    exact hfollow₃

/-! ## Runs -/

/-- What goes out in a run, and what is in the table at its end, is of the given kinds: the fields of the
entries, the instructions with the fields that a peer finds in them, and the fields of the sections with their
lines. -/
structure Within (e : Encoder) (ops : List Operation) (field : Field → Prop)
    (instruction : Instruction → Field → Prop) (line : Field → FieldLine → Prop) : Prop where
  entries : ∀ x ∈ (e.run ops).1.table.entries, field x.field
  insertions : ∃ list, (PeerTable.empty e.settings.maxTableCapacity).insertions? (e.run ops).2 = some list ∧
    ∀ i f, (i, f) ∈ list → instruction i f
  lines : ∀ stream, ∀ x ∈ e.transmissions stream ops, x.MadeOf e.settings.maxTableCapacity line

variable {field field' : Field → Prop} {instruction instruction' : Instruction → Field → Prop}
  {line line' : Field → FieldLine → Prop} {ops : List Operation}

theorem Within.mono (h : Within e ops field instruction line) (hfield : ∀ f, field f → field' f)
    (hinstruction : ∀ i f, instruction i f → instruction' i f) (hline : ∀ f l, line f l → line' f l) :
    Within e ops field' instruction' line' := by
  obtain ⟨list, hlist, hall⟩ := h.insertions
  refine ⟨fun x hx => hfield _ (h.entries x hx), ⟨list, hlist, fun i f hif => hinstruction i f (hall i f hif)⟩, ?_⟩
  intro stream x hx
  obtain ⟨head, lines, hoctets, hlines⟩ := h.lines stream x hx
  exact ⟨head, lines, hoctets, hlines.imp hline⟩

theorem Under.insertions_run (h : Under p e) (hm : Mirrors peer e) (hops : ∀ op ∈ ops, op.Keeps p) :
    ∃ list, peer.insertions? (e.run ops).2 = some list ∧ p.PermitsAll list := by
  induction ops generalizing e peer with
  | nil => exact ⟨[], rfl, p.permitsAll_nil⟩
  | cons op rest ih =>
    obtain ⟨e₁, s₁, hg, htable, hset⟩ := h.guided_perform op
    obtain ⟨peer₁, list₁, hfollow₁, hm₁, hlist₁, hall₁⟩ := hg.insertions hm h.sound
    have hnext := h.perform (hops op List.mem_cons_self)
    have hnow : Mirrors peer₁ (e.perform op).encoder := hm₁.congr htable hset
    obtain ⟨list₂, hlist₂, hall₂⟩ := ih hnext hnow fun o ho => hops o (List.mem_cons_of_mem op ho)
    exact ⟨list₁ ++ list₂, PeerTable.insertions?_append hfollow₁ hlist₁ hlist₂, hall₁.append hall₂⟩

theorem Under.transmissions (h : Under p e) (hops : ∀ op ∈ ops, op.Keeps p) {stream : Nat} {x : Transmission}
    (hx : x ∈ e.transmissions stream ops) : x.MadeOf e.settings.maxTableCapacity p.PermitsLine := by
  induction ops generalizing e with
  | nil => cases hx
  | cons op rest ih =>
    rcases List.mem_append.1 hx with hx | hx
    · exact h.transmitted hx
    · rw [← settings_perform h.sound op]
      exact ih (h.perform (hops op List.mem_cons_self)) (fun o ho => hops o (List.mem_cons_of_mem op ho)) hx

/-- A run that keeps the policy stays within what it permits. -/
theorem within_of_keeps (settings : Settings) (hops : ∀ op ∈ ops, op.Keeps p) :
    Within { new settings with policy := p } ops (fun f => p.mayIndex f = true) (fun i f => p.PermitsInsertion i f)
      (fun f l => p.PermitsLine f l) := by
  have hunder := under_new settings p
  have hend := hunder.run hops
  refine ⟨?_, hunder.insertions_run ((Mirrors.empty settings).congr rfl rfl) hops, fun stream x hx =>
    hunder.transmissions hops hx⟩
  intro x hx
  exact hend.permitted x.index x.field (hend.sound.valid.field?_of_mem hx)

/-- What a policy keeps out of the table never enters it, and what it does not let be coded is not coded, in
any run of a new encoder that has the policy and keeps it. So under the standard policy, which a new encoder
has: a field with a name from the list, whatever the case of its letters, never enters the table, and the
lines for the most sensitive names forbid indexing, unless they are entries of the static table. -/
theorem confined_run {settings : Settings} {start : Encoder} (hstart : ofSettings settings = .ok start) :
    (∀ (p : Policy) (ops : List Operation), (∀ op ∈ ops, op.Keeps p) →
      Within { start with policy := p } ops (fun f => p.mayIndex f = true)
        (fun i f => p.mayIndex f = true ∧ (p.mayHuffman f = false → i.coded = false))
        (fun f l => p.mayHuffman f = false → l.coded = false)) ∧
    start.policy = .standard settings.huffman ∧
    ∀ (huffman : Bool) (ops : List Operation), (∀ op ∈ ops, op.Keeps (.standard huffman)) →
      Within { start with policy := .standard huffman } ops
        (fun f => ∀ name ∈ Policy.unindexed, (Octets.ofText name).sameLetters f.name = false)
        (fun _ f => ∀ name ∈ Policy.unindexed, (Octets.ofText name).sameLetters f.name = false)
        (fun f l => ∀ name ∈ Policy.neverIndexed, (Octets.ofText name).sameLetters f.name = true →
          (∃ index, l = .indexed (.static index)) ∨ l.never = true) := by
  obtain rfl := eq_new_of_ofSettings hstart
  refine ⟨?_, rfl, ?_⟩
  · intro p ops hops
    apply (within_of_keeps settings hops).mono
    · intro f hf
      exact hf
    · intro i f hif
      exact ⟨hif.index, hif.coding⟩
    · intro f l hl
      exact hl.coding
  · intro huffman ops hops
    apply (within_of_keeps settings hops).mono
    · intro f hf
      exact Policy.unlisted_of_mayIndex hf
    · intro i f hif
      exact Policy.unlisted_of_mayIndex hif.index
    · intro f l hl name hname hsame
      exact Policy.static_or_never hl (Policy.isListed_eq_true_iff.2 ⟨name, hname, hsame⟩)

/-- A cookie that is inserted and encoded twice, beside a field that may be in the table. -/
def cookies : List Operation :=
  [.setCapacity 220, .insert (.ofText "Set-Cookie" "secret"), .insert (.ofText "key" "value"),
    .encode 0 [.ofText "set-cookie" "secret", .ofText "authorization" "", .ofText "key" "value"],
    .encode 4 [.ofText "SET-COOKIE" "secret"]]

/-- Only the other field enters the table, and only the authorization without a value is an entry. -/
theorem confined_run_cookies :
    (∀ op ∈ cookies, op.Keeps (.standard true)) ∧
    Within { new .default with policy := .standard true } cookies
      (fun f => (Policy.standard true).mayIndex f = true)
      (fun i f => (Policy.standard true).mayIndex f = true ∧
        ((Policy.standard true).mayHuffman f = false → i.coded = false))
      (fun f l => (Policy.standard true).mayHuffman f = false → l.coded = false) ∧
    Within { new .default with policy := .standard true } cookies
      (fun f => ∀ name ∈ Policy.unindexed, (Octets.ofText name).sameLetters f.name = false)
      (fun _ f => ∀ name ∈ Policy.unindexed, (Octets.ofText name).sameLetters f.name = false)
      (fun f l => ∀ name ∈ Policy.neverIndexed, (Octets.ofText name).sameLetters f.name = true →
        (∃ index, l = .indexed (.static index)) ∨ l.never = true) ∧
    ((new .default).run cookies).1.table.entries.map Entry.field = [.ofText "key" "value"] := by
  have hkeeps : ∀ op ∈ cookies, op.Keeps (.standard true) := by simp [cookies, Operation.Keeps]
  obtain ⟨hall, -, hstandard⟩ := confined_run (show ofSettings .default = .ok (new .default) from rfl)
  exact ⟨hkeeps, hall _ _ hkeeps, hstandard true _ hkeeps, by decide +kernel⟩

end Encoder
end Qpack
