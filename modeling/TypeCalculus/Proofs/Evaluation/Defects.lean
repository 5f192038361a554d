import TypeCalculus.Proofs.Evaluation.Decoding
import TypeCalculus.Proofs.Evaluation.Guards

/-!
What can be wrong with a node where it stands. A node that is not read as an operation, or not as a
condition, has a defect of its own, and the error says which.
-/

namespace TypeCalculus

/-- The operand that has to be a literal or a function, counted from 1, and what it has to be. -/
def Operator.demand? : Operator → Option (Nat × NodeKind)
  | .type .type => some (1, .stringLiteral)
  | .type .mapUnion => some (2, .function)
  | .type .templateTypeOf => some (2, .integerLiteral)
  | _ => none

/-- What the error says is the case for the node, which stands in the given position. -/
inductive Arena.Defect (a : Arena) (names : NameTable) (place : Position) (id : NodeId) :
    EvalError → Prop where
  | unknownOperator {callee range text} : a.node id = .ok (.call callee range) →
      names.text? callee = some text → (∀ op : Operator, op.spelling ≠ text) →
      Defect a names place id (.unknownOperator text)
  | misplaced {callee range op} : a.node id = .ok (.call callee range) →
      names.text? callee = some op.spelling → op.position ≠ place →
      Defect a names place id (.misplaced op place)
  | wrongArity {op operands} : a.Calls names id op.spelling operands → op.position = place →
      op.arity.accepts operands.length = false →
      Defect a names place id (.wrongArity op op.arity operands.length)
  | operandShape {op operands i expected operand node} : a.Calls names id op.spelling operands →
      op.position = place → op.arity.accepts operands.length = true →
      op.demand? = some (i + 1, expected) → operands[i]? = some operand →
      a.node operand = .ok node → node.kind ≠ expected →
      Defect a names place id (.operandShape op (i + 1) expected)
  | unexpectedNode {node} : a.node id = .ok node → node.kind ≠ .call →
      (place = .type → node.kind ≠ .typeVariable) →
      Defect a names place id (.unexpectedNode node.kind place)

/-- The reading may end in a fault, but in no error of the expression. -/
def OnlyFaults {α : Type} (x : Except Abort α) : Prop := ∀ e, x ≠ .error (.error e)

namespace OnlyFaults

variable {α β : Type} {x : Except Abort α} {f : α → Except Abort β} {e : EvalError}

theorem pure (a : α) : OnlyFaults (Pure.pure a : Except Abort α) := nofun

theorem bind (h : OnlyFaults x) (hf : ∀ a, OnlyFaults (f a)) : OnlyFaults (x >>= f) := by
  intro e he
  rcases bind_eq_error_iff.1 he with hx | ⟨a, -, ha⟩
  · exact h e hx
  · exact hf a e ha

theorem mapError (x : Except Fault α) : OnlyFaults (x.mapError Abort.fault) := by
  intro e he
  cases x <;> cases he

theorem operandAt (crash : Fault) (operands : List NodeId) (i : Nat) :
    OnlyFaults (operandAt crash operands i) := by
  intro e he
  unfold TypeCalculus.operandAt at he
  split at he <;> cases he

theorem operandsFrom (crash : Fault) (operands : List NodeId) (i : Nat) :
    OnlyFaults (operandsFrom crash operands i) := by
  intro e he
  unfold TypeCalculus.operandsFrom at he
  split at he <;> cases he

/-- The error comes from the second half. -/
theorem exists_of_bind (h : OnlyFaults x) (he : (x >>= f) = .error (.error e)) :
    ∃ a, x = .ok a ∧ f a = .error (.error e) :=
  (bind_eq_error_iff.1 he).resolve_left (h e)

/-- The error comes from the first half. -/
theorem error_of_bind (hf : ∀ a, OnlyFaults (f a)) (he : (x >>= f) = .error (.error e)) :
    x = .error (.error e) :=
  (bind_eq_error_iff.1 he).resolve_right fun ⟨a, _, ha⟩ => hf a e ha

end OnlyFaults

theorem operandAt_eq_ok_iff {crash : Fault} {operands : List NodeId} {i : Nat} {id : NodeId} :
    operandAt crash operands i = .ok id ↔ operands[i]? = some id := by
  unfold operandAt
  split <;> simp_all

variable {a : Arena} {names : NameTable} {id : NodeId} {e : EvalError}

theorem NameTable.error_of_operator {callee : Name} (h : names.operator callee = .error (.error e)) :
    ∃ text, names.text? callee = some text ∧ (∀ op : Operator, op.spelling ≠ text) ∧
      e = .unknownOperator text := by
  unfold operator at h
  split at h
  · cases h
  · rename_i text htext
    split at h
    · cases h
    · rename_i hnone
      cases h
      refine ⟨text, htext, ?_, rfl⟩
      rintro op rfl
      rw [Operator.ofSpelling?_spelling] at hnone
      cases hnone

theorem Node.kind_ne_of_text? {node : Node} (h : node.text? = none) : node.kind ≠ .stringLiteral := by
  cases node <;> simp_all [text?, kind]

theorem Node.kind_ne_of_value? {node : Node} (h : node.value? = none) :
    node.kind ≠ .integerLiteral := by
  cases node <;> simp_all [value?, kind]

theorem Node.kind_ne_of_function? {node : Node} (h : node.function? = none) :
    node.kind ≠ .function := by
  cases node <;> simp_all [function?, kind]

namespace Arena

theorem error_of_operand {α : Type} {op : TypeOperator} {place : Nat} {expected : NodeKind}
    {view : Node → Option α} (h : a.operand op place expected view id = .error (.error e)) :
    ∃ node, a.node id = .ok node ∧ view node = none ∧ e = .operandShape (.type op) place expected := by
  obtain ⟨node, hn, h⟩ := (OnlyFaults.mapError _).exists_of_bind h
  refine ⟨node, mapError_eq_ok_iff.1 hn, ?_⟩
  split at h
  · cases h
  · rename_i hview
    cases h
    exact ⟨hview, rfl⟩

end Arena

/-- The operand that the operator looks at is not what it has to be. -/
theorem Operation.error_of_ofPlaces {crash : Fault} {op : TypeOperator} {operands : List NodeId}
    (h : Operation.ofPlaces crash a op operands = .error (.error e)) :
    ∃ i expected operand node, (Operator.type op).demand? = some (i + 1, expected) ∧
      operands[i]? = some operand ∧ a.node operand = .ok node ∧ node.kind ≠ expected ∧
      e = .operandShape (.type op) (i + 1) expected := by
  have place (i : Nat) := OnlyFaults.operandAt crash operands i
  cases op with
  | union | none | all | unknown => cases h
  | type =>
    obtain ⟨literal, hl, h⟩ := (place 0).exists_of_bind h
    obtain ⟨node, hn, hview, rfl⟩ := Arena.error_of_operand <|
      OnlyFaults.error_of_bind (fun name => (OnlyFaults.operandsFrom _ _ _).bind fun _ => .pure _) h
    exact ⟨0, _, literal, node, rfl, operandAt_eq_ok_iff.1 hl, hn, Node.kind_ne_of_text? hview, rfl⟩
  | cond =>
    exact absurd h (((place 0).bind fun _ => (place 1).bind fun _ => (place 2).bind fun _ => .pure _) e)
  | mapUnion =>
    obtain ⟨function, hl, h⟩ := (place 1).exists_of_bind h
    obtain ⟨node, hn, hview, rfl⟩ := Arena.error_of_operand <|
      OnlyFaults.error_of_bind (fun _ => (place 0).bind fun _ => .pure _) h
    exact ⟨1, _, function, node, rfl, operandAt_eq_ok_iff.1 hl, hn, Node.kind_ne_of_function? hview, rfl⟩
  | rawTypeOf => exact absurd h (((place 0).bind fun _ => .pure _) e)
  | templateTypeOf =>
    obtain ⟨literal, hl, h⟩ := (place 1).exists_of_bind h
    obtain ⟨node, hn, hview, rfl⟩ := Arena.error_of_operand <|
      OnlyFaults.error_of_bind (fun _ => (place 0).bind fun _ => .pure _) h
    exact ⟨1, _, literal, node, rfl, operandAt_eq_ok_iff.1 hl, hn, Node.kind_ne_of_value? hview, rfl⟩

theorem Condition.onlyFaults_ofPlaces (crash : Fault) (op : PredicateOperator)
    (operands : List NodeId) : OnlyFaults (Condition.ofPlaces crash op operands) := by
  have place (i : Nat) := OnlyFaults.operandAt crash operands i
  cases op with
  | eq | sub => exact (place 0).bind fun _ => (place 1).bind fun _ => .pure _
  | isTemplatized | isUnknown => exact (place 0).bind fun _ => .pure _

theorem Operator.error_of_guard {α : Type} {op : Operator} {operands : List NodeId}
    {read : List NodeId → Except Abort α} (h : op.guard operands read = .error (.error e)) :
    op.arity.accepts operands.length = true ∧ read operands = .error (.error e) ∨
      op.arity.accepts operands.length = false ∧ e = .wrongArity op op.arity operands.length := by
  unfold guard at h
  split at h
  · rename_i haccepts
    exact .inl ⟨haccepts, h⟩
  · rename_i hrejects
    cases h
    exact .inr ⟨Bool.eq_false_iff.2 hrejects, rfl⟩

namespace Arena

theorem defect_of_operation (h : a.operation names id = .error (.error e)) :
    a.Defect names .type id e := by
  rw [← operationGuarded_eq (.danglingOperands .empty)] at h
  obtain ⟨node, hread, h⟩ := (OnlyFaults.mapError _).exists_of_bind h
  have hnode := mapError_eq_ok_iff.1 hread
  cases node with
  | var name => cases h
  | str | int | function =>
    cases h
    exact .unexpectedNode hnode nofun nofun
  | call callee range =>
    rcases bind_eq_error_iff.1 h with hop | ⟨op, hop, h⟩
    · obtain ⟨text, htext, hnone, rfl⟩ := NameTable.error_of_operator hop
      exact .unknownOperator hnode htext hnone
    · have htext := NameTable.operator_eq_ok_iff.1 hop
      cases op with
      | predicate op =>
        cases h
        exact .misplaced hnode htext nofun
      | type op =>
        obtain ⟨operands, hslice, h⟩ := (OnlyFaults.mapError _).exists_of_bind h
        have hcalls : a.Calls names id (Operator.type op).spelling operands :=
          ⟨callee, range, hnode, htext, mapError_eq_ok_iff.1 hslice⟩
        rcases Operator.error_of_guard h with ⟨haccepts, h⟩ | ⟨hrejects, rfl⟩
        · obtain ⟨i, expected, operand, node, hd, ho, hn, hk, rfl⟩ := Operation.error_of_ofPlaces h
          exact .operandShape hcalls rfl haccepts hd ho hn hk
        · exact .wrongArity hcalls rfl hrejects

theorem defect_of_condition (h : a.condition names id = .error (.error e)) :
    a.Defect names .condition id e := by
  rw [← conditionGuarded_eq (.danglingOperands .empty)] at h
  obtain ⟨node, hread, h⟩ := (OnlyFaults.mapError _).exists_of_bind h
  have hnode := mapError_eq_ok_iff.1 hread
  cases node with
  | var | str | int | function =>
    cases h
    exact .unexpectedNode hnode nofun nofun
  | call callee range =>
    rcases bind_eq_error_iff.1 h with hop | ⟨op, hop, h⟩
    · obtain ⟨text, htext, hnone, rfl⟩ := NameTable.error_of_operator hop
      exact .unknownOperator hnode htext hnone
    · have htext := NameTable.operator_eq_ok_iff.1 hop
      cases op with
      | type op =>
        cases h
        exact .misplaced hnode htext nofun
      | predicate op =>
        obtain ⟨operands, hslice, h⟩ := (OnlyFaults.mapError _).exists_of_bind h
        have hcalls : a.Calls names id (Operator.predicate op).spelling operands :=
          ⟨callee, range, hnode, htext, mapError_eq_ok_iff.1 hslice⟩
        rcases Operator.error_of_guard h with ⟨-, h⟩ | ⟨hrejects, rfl⟩
        · exact absurd h (Condition.onlyFaults_ofPlaces _ op operands e)
        · exact .wrongArity hcalls rfl hrejects

/-- The node is not read as what its position calls for. -/
def Refuses (a : Arena) (names : NameTable) (place : Position) (id : NodeId) (e : Abort) : Prop :=
  match place with
  | .type => a.operation names id = .error e
  | .condition => a.condition names id = .error e

theorem Refuses.defect {place : Position} (h : a.Refuses names place id (.error e)) :
    a.Defect names place id e := by
  cases place with
  | type => exact defect_of_operation h
  | condition => exact defect_of_condition h

theorem Defect.isContractViolation {place : Position} (h : a.Defect names place id e) :
    e.isContractViolation = true := by
  cases h <;> rfl

/-- Reading a node has nothing to do with how deep it stands. -/
theorem Refuses.ne_depthExceeded {place : Position} {abort : Abort}
    (h : a.Refuses names place id abort) (max : Nat) : abort ≠ .error (.depthExceeded max) := by
  rintro rfl
  have hviolation := h.defect.isContractViolation
  cases hviolation

end Arena

end TypeCalculus
