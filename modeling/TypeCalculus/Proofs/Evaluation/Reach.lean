import TypeCalculus.Proofs.Evaluation.Defects

/-!
The nodes that an evaluation can come to, and the position in which each of them stands. In an arena
whose nodes refer only to what is there, every one of them is there, and reading it is no fault, but
for a callee that the table of names does not hold.
-/

namespace TypeCalculus

/-- What an operation goes on to evaluate, and in which position. -/
inductive Operation.Part : Operation → Position → NodeId → Prop where
  | arg {name args arg} : arg ∈ args → Part (.named name args) .type arg
  | member {operands operand} : operand ∈ operands → Part (.union operands) .type operand
  | test {test yes no} : Part (.cond test yes no) .condition test
  | yes {test yes no} : Part (.cond test yes no) .type yes
  | no {test yes no} : Part (.cond test yes no) .type no
  | source {source param body} : Part (.mapUnion source param body) .type source
  | body {source param body} : Part (.mapUnion source param body) .type body
  | raw {subject} : Part (.rawTypeOf subject) .type subject
  | template {subject place} : Part (.templateTypeOf subject place) .type subject

/-- What a condition goes on to evaluate, all of it in type position. -/
def Condition.parts : Condition → List NodeId
  | eq left right | sub left right => [left, right]
  | isTemplatized subject | isUnknown subject => [subject]

namespace Arena

variable {a : Arena} {names : NameTable} {root id part : NodeId} {place : Position} {f : Fault}

/-- The node can be come to from the root by way of nodes that can be read, and then stands in the
given position. -/
inductive Within (a : Arena) (names : NameTable) (root : NodeId) : Position → NodeId → Prop where
  | root : Within a names root .type root
  | operation {id op place part} : Within a names root .type id → a.Asks names id op →
      op.Part place part → Within a names root place part
  | condition {id condition part} : Within a names root .condition id →
      a.Tests names id condition → part ∈ condition.parts → Within a names root .type part

/-- What the nodes refer to is there: the operands of calls and the bodies of functions. -/
structure Closed (a : Arena) : Prop where
  operands : ∀ {id callee range}, a.node id = .ok (.call callee range) →
    ∃ operands, a.slice range = .ok operands ∧ ∀ operand ∈ operands, operand.index < a.size
  body : ∀ {id param body}, a.node id = .ok (.function param body) → body.index < a.size

/-- The node is a call of a name that the table does not hold. -/
def Foreign (a : Arena) (names : NameTable) (id : NodeId) (callee : Name) : Prop :=
  (∃ range, a.node id = .ok (.call callee range)) ∧ names.text? callee = none

theorem Closed.lt_size_of_calls (h : a.Closed) {text : String} {operands : List NodeId}
    (hc : a.Calls names id text operands) : ∀ operand ∈ operands, operand.index < a.size := by
  obtain ⟨callee, range, hn, -, hs⟩ := hc
  obtain ⟨operands', hs', hlt⟩ := h.operands hn
  cases hs.symm.trans hs'
  exact hlt

theorem Closed.lt_size_of_part (h : a.Closed) {op : Operation} (ha : a.Asks names id op)
    (hp : op.Part place part) : part.index < a.size := by
  have operand {text operands} (hc : a.Calls names id text operands) := h.lt_size_of_calls hc part
  cases hp with
  | arg hmem =>
    obtain ⟨literal, hc, -⟩ := ha
    exact operand hc (List.mem_cons_of_mem literal hmem)
  | member hmem => exact operand ha.1 hmem
  | test => exact operand ha (by simp)
  | yes => exact operand ha (by simp)
  | no => exact operand ha (by simp)
  | source =>
    obtain ⟨function, hc, -⟩ := ha
    exact operand hc List.mem_cons_self
  | body =>
    -- The body is no operand of the call; the function that holds it is.
    obtain ⟨function, -, hf⟩ := ha
    exact h.body hf
  | raw => exact operand ha List.mem_cons_self
  | template =>
    obtain ⟨literal, hc, -⟩ := ha
    exact operand hc List.mem_cons_self

theorem Tests.calls {condition : Condition} (h : a.Tests names id condition) :
    ∃ text, a.Calls names id text condition.parts := by
  cases condition <;> exact ⟨_, h⟩

theorem Within.lt_size (hclosed : a.Closed) (hroot : root.index < a.size)
    (h : a.Within names root place id) : id.index < a.size := by
  cases h with
  | root => exact hroot
  | operation _ ha hp => exact hclosed.lt_size_of_part ha hp
  | condition _ ht hp =>
    obtain ⟨text, hc⟩ := ht.calls
    exact hclosed.lt_size_of_calls hc id hp

end Arena

theorem NameTable.operator_eq_fault_iff {names : NameTable} {callee : Name} {f : Fault} :
    names.operator callee = .error (.fault f) ↔
      names.text? callee = none ∧ f = .foreignName callee := by
  unfold operator
  constructor
  · intro h
    split at h
    · rename_i htext
      cases h
      exact ⟨htext, rfl⟩
    · split at h <;> cases h
  · rintro ⟨htext, rfl⟩
    rw [htext]
    rfl

namespace Arena

section Faults

variable {α : Type} {a : Arena} {names : NameTable} {place : Position} {id : NodeId} {callee : Name}
  {range : OperandRange} {f : Fault}

theorem Foreign.refuses (h : a.Foreign names id callee) (place : Position) :
    a.Refuses names place id (.fault (.foreignName callee)) := by
  obtain ⟨⟨range, hn⟩, htext⟩ := h
  have hcallee := NameTable.operator_eq_fault_iff.2 ⟨htext, rfl⟩
  cases place with
  | type =>
    change a.operation names id = _
    rw [operation, read_of_node hn, ok_bind]
    exact bind_eq_error_iff.2 (.inl hcallee)
  | condition =>
    change a.condition names id = _
    rw [Arena.condition, read_of_node hn, ok_bind]
    exact bind_eq_error_iff.2 (.inl hcallee)

end Faults

end Arena

end TypeCalculus
