import ContentCoding.Connection.Run

/-!
# What goes in and out of a run

The messages that were written in a run, those of them that were accepted, and the messages that
were taken from the stage, whatever else was done in between.

* `perform_aside`, `run_aside`: requests that come in and messages that are taken leave the open
  response alone, and lose nothing.
* `takenOf_run_of_not_active`: after a fault or the end of the connection, only what was left to be
  sent can still be taken.
-/

namespace ContentCoding

namespace Message

/-- The octets of the body that a message carries. -/
def payload : Message → Octets
  | .head _ => []
  | .chunk k => k.payload
  | .aggregate a => a.payload

end Message

/-- The body that messages carry. -/
def payload (ms : List Message) : Octets := ms.flatMap Message.payload

theorem payload_append (ms more : List Message) :
    payload (ms ++ more) = payload ms ++ payload more := by
  unfold payload
  exact List.flatMap_append

namespace Operation

/-- The message that an operation writes. -/
def message? : Operation → Option Message
  | .write m => some m
  | .record _ | .read | .drain | .deactivate => none

/-- Whether an operation leaves the response that is being written alone. -/
def isAside : Operation → Bool
  | .record _ | .read | .drain => true
  | .write _ | .deactivate => false

theorem isAside_iff {op : Operation} :
    op.isAside = true ↔ op.message? = none ∧ op ≠ .deactivate := by
  cases op <;> simp [isAside, message?]

end Operation

/-- **The messages that were written** by these operations, in order. -/
def messages (ops : List Operation) : List Message := ops.filterMap Operation.message?

section messages

variable {ops : List Operation} {ms : List Message} {m : Message}

end messages

/-- **The messages that were accepted**, for these operations with these answers. -/
def accepted : List Operation → List (Except Fault (List Message)) → List Message
  | .write m :: ops, .ok _ :: answers => m :: accepted ops answers
  | _ :: ops, _ :: answers => accepted ops answers
  | _, _ => []

theorem accepted_cons (op : Operation) (ops : List Operation)
    (answer : Except Fault (List Message)) (answers : List (Except Fault (List Message))) :
    accepted (op :: ops) (answer :: answers) = accepted [op] [answer] ++ accepted ops answers := by
  cases op <;> cases answer <;> simp [accepted]

/-- What is not a write is not accepted. -/
theorem accepted_of_message? {op : Operation} (h : op.message? = none)
    (answer : Except Fault (List Message)) : accepted [op] [answer] = [] := by
  cases op with
  | write m => cases h
  | record r | read | drain | deactivate => cases answer <;> rfl

/-- The messages that were taken, with these answers. -/
def takenOf (answers : List (Except Fault (List Message))) : List Message :=
  answers.flatMap fun
    | .ok ms => ms
    | .error _ => []

theorem takenOf_append (answers more : List (Except Fault (List Message))) :
    takenOf (answers ++ more) = takenOf answers ++ takenOf more := by
  unfold takenOf
  exact List.flatMap_append

theorem takenOf_cons (answer : Except Fault (List Message))
    (answers : List (Except Fault (List Message))) :
    takenOf (answer :: answers) = takenOf [answer] ++ takenOf answers := by
  simp [takenOf]

/-- An answer that carries no messages takes none. -/
theorem takenOf_map_nil {α : Type} (answer : Except Fault α) :
    takenOf [answer.map fun _ => []] = [] := by
  cases answer <;> rfl

namespace Connection

variable {δ σ : Type} [Decision δ σ] [Compressor σ] {c : Connection δ σ} {op : Operation}
  {ops : List Operation}

/-- What is taken from a stage was to be sent, and the rest is left. -/
theorem perform_aside (h : op.isAside = true) :
    (c.perform op).after.lifecycle = c.lifecycle ∧ (c.perform op).after.cycle = c.cycle ∧
      takenOf [(c.perform op).answer] ++ (c.perform op).after.outbound = c.outbound ∧
      (c.perform op).events = [] ∧ ∃ ms, (c.perform op).answer = .ok ms := by
  cases op with
  | record r => exact ⟨rfl, rfl, rfl, rfl, [], rfl⟩
  | read =>
    refine ⟨rfl, rfl, ?_, rfl, _, rfl⟩
    cases ho : c.outbound <;> simp [perform, read, Step.pure, takenOf, ho]
  | drain =>
    refine ⟨rfl, rfl, ?_, rfl, _, rfl⟩
    simp [perform, drain, Step.pure, takenOf]
  | write m | deactivate => cases h

/-- **Nothing is lost aside.** -/
theorem run_aside (h : ∀ op ∈ ops, op.isAside = true) :
    (c.run ops).last.lifecycle = c.lifecycle ∧ (c.run ops).last.cycle = c.cycle ∧
      takenOf (c.run ops).answers ++ (c.run ops).last.outbound = c.outbound ∧
      (c.run ops).events = [] ∧ ∀ a ∈ (c.run ops).answers, ∃ ms, a = .ok ms := by
  induction ops generalizing c with
  | nil => exact ⟨rfl, rfl, rfl, rfl, nofun⟩
  | cons op ops ih =>
    obtain ⟨hl, hc, ho, he, hok⟩ := perform_aside (c := c) (h op (List.mem_cons_self ..))
    obtain ⟨hl', hc', ho', he', hok'⟩ :=
      ih (c := (c.perform op).after) fun op hop => h op (List.mem_cons_of_mem _ hop)
    refine ⟨hl'.trans hl, hc'.trans hc, ?_, ?_, ?_⟩
    · rw [run, takenOf_cons, List.append_assoc, ho', ho]
    · rw [run, he, he', List.append_nil]
    · intro a ha
      rcases List.mem_cons.1 ha with rfl | ha
      · exact hok
      · exact hok' a ha

omit [Decision δ σ] in
/-- The end of the connection keeps what was to be sent, or drops it whole where the close
failed. -/
theorem outbound_deactivate (c : Connection δ σ) : c.deactivate.after.outbound <+: c.outbound := by
  have hpart (p : Prop) [Decidable p] : (if p then c.outbound else []) <+: c.outbound := by
    split
    · exact List.prefix_rfl
    · exact List.nil_prefix
  by_cases hl : c.lifecycle = .inactive
  · rw [deactivate_of_inactive hl]
    exact List.prefix_rfl
  · rw [deactivate_of_not_inactive hl]
    exact hpart _

omit [Decision δ σ] in
/-- Once the connection has ended, the stage has. -/
theorem not_active_deactivate (c : Connection δ σ) : c.deactivate.after.lifecycle ≠ .active := by
  have hne : Lifecycle.inactive ≠ .active := Lifecycle.noConfusion
  by_cases hl : c.lifecycle = .inactive
  · rw [deactivate_of_inactive hl]
    exact hl ▸ hne
  · rw [deactivate_of_not_inactive hl]
    exact hne

/-- A stage that has come to its end stays there, and what was to be sent is all that is left. -/
theorem perform_of_not_active (h : c.lifecycle ≠ .active) (op : Operation) :
    (c.perform op).after.lifecycle ≠ .active ∧
      takenOf [(c.perform op).answer] ++ (c.perform op).after.outbound <+: c.outbound := by
  cases ha : op.isAside with
  | true =>
    obtain ⟨hl, -, ho, -, -⟩ := perform_aside (c := c) ha
    exact ⟨hl ▸ h, ho ▸ List.prefix_rfl⟩
  | false =>
    cases op with
    | record r | read | drain => cases ha
    | write m =>
      rw [perform, write_of_not_active h]
      exact ⟨h, List.prefix_rfl⟩
    | deactivate =>
      rw [perform, Step.map, takenOf_map_nil, List.nil_append]
      exact ⟨not_active_deactivate c, outbound_deactivate c⟩

/-- **After the end only what was left can be taken**, and it comes in order. -/
theorem takenOf_run_of_not_active (h : c.lifecycle ≠ .active) (ops : List Operation) :
    takenOf (c.run ops).answers ++ (c.run ops).last.outbound <+: c.outbound := by
  induction ops generalizing c with
  | nil => exact List.prefix_rfl
  | cons op ops ih =>
    obtain ⟨hl, ho⟩ := perform_of_not_active h op
    have hrest := ih hl
    rw [run, takenOf_cons, List.append_assoc]
    exact ((List.prefix_append_right_inj _).2 hrest).trans ho

end Connection

end ContentCoding
