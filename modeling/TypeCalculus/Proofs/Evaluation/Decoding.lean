import TypeCalculus.Evaluation.Operation
import TypeCalculus.Proofs.Store.Growth

/-!
Reading a node, seen from its syntax: a node is read as an operation exactly if it is a variable or
calls the operator of that spelling with the operands and literals that belong to it.
-/

namespace TypeCalculus

namespace Arena

/-- The node calls the operator spelled `text` with these operands. -/
def Calls (a : Arena) (names : NameTable) (id : NodeId) (text : String) (operands : List NodeId) :
    Prop :=
  ∃ callee range, a.node id = .ok (.call callee range) ∧ names.text? callee = some text ∧
    a.slice range = .ok operands

def Asks (a : Arena) (names : NameTable) (id : NodeId) : Operation → Prop
  | .var name => a.node id = .ok (.var name)
  | .empty => a.Calls names id "none" []
  | .all => a.Calls names id "all" []
  | .unknown => a.Calls names id "unknown" []
  | .named name args => ∃ literal, a.Calls names id "type" (literal :: args) ∧
      a.node literal = .ok (.str name)
  | .union operands => a.Calls names id "union" operands ∧ 2 ≤ operands.length
  | .cond test yes no => a.Calls names id "cond" [test, yes, no]
  | .mapUnion source param body => ∃ function, a.Calls names id "mapunion" [source, function] ∧
      a.node function = .ok (.function param body)
  | .rawTypeOf subject => a.Calls names id "rawTypeOf" [subject]
  | .templateTypeOf subject place => ∃ literal,
      a.Calls names id "templateTypeOf" [subject, literal] ∧ a.node literal = .ok (.int place)

def Tests (a : Arena) (names : NameTable) (id : NodeId) : Condition → Prop
  | .eq left right => a.Calls names id "eq" [left, right]
  | .sub lower upper => a.Calls names id "sub" [lower, upper]
  | .isTemplatized subject => a.Calls names id "isTemplatized" [subject]
  | .isUnknown subject => a.Calls names id "isUnknown" [subject]

end Arena

theorem mapError_eq_ok_iff {ε ε' α : Type} {x : Except ε α} {f : ε → ε'} {a : α} :
    x.mapError f = .ok a ↔ x = .ok a := by
  cases x <;> simp [Except.mapError]

theorem NameTable.operator_eq_ok_iff {names : NameTable} {callee : Name} {op : Operator} :
    names.operator callee = .ok op ↔ names.text? callee = some op.spelling := by
  unfold operator
  cases names.text? callee with
  | none => simp
  | some text =>
    rw [Option.some.injEq]
    dsimp only
    constructor
    · intro h
      split at h
      · rename_i op' hop
        cases h
        exact (Operator.spelling_of_ofSpelling? hop).symm
      · cases h
    · rintro rfl
      rw [Operator.ofSpelling?_spelling]
      rfl

namespace Arena

variable {a : Arena} {names : NameTable} {id : NodeId}

theorem read_of_node {node : Node} (h : a.node id = .ok node) : a.read id = .ok node :=
  mapError_eq_ok_iff.2 h

section Calls

variable {callee : Name} {range : OperandRange}

theorem operation_of_call {op : TypeOperator} (hn : a.node id = .ok (.call callee range))
    (hop : names.operator callee = .ok (.type op)) :
    a.operation names id = (a.slice range).mapError .fault >>= Operation.ofCall a op := by
  rw [operation, read_of_node hn, ok_bind]
  dsimp only
  rw [hop, ok_bind]

theorem condition_of_call {op : PredicateOperator} (hn : a.node id = .ok (.call callee range))
    (hop : names.operator callee = .ok (.predicate op)) :
    a.condition names id = (a.slice range).mapError .fault >>= Condition.ofCall op := by
  rw [Arena.condition, read_of_node hn, ok_bind]
  dsimp only
  rw [hop, ok_bind]

end Calls

theorem operand_eq_ok_iff {α : Type} {op : TypeOperator} {place : Nat} {expected : NodeKind}
    {view : Node → Option α} {value : α} :
    a.operand op place expected view id = .ok value ↔
      ∃ node, a.node id = .ok node ∧ view node = some value := by
  simp only [operand, bind_eq_ok_iff, read, mapError_eq_ok_iff]
  refine exists_congr fun node => and_congr_right fun _ => ?_
  cases view node with
  | none => simp [throw, throwThe, MonadExceptOf.throw]
  | some value' => simp [pure_eq_ok_iff]

theorem operation_eq_ok_iff {op : Operation} :
    a.operation names id = .ok op ↔ (∃ name, a.node id = .ok (.var name) ∧ op = .var name) ∨
      ∃ called operands, a.Calls names id (Operator.spelling (.type called)) operands ∧
        Operation.ofCall a called operands = .ok op := by
  simp only [operation, bind_eq_ok_iff, read, mapError_eq_ok_iff]
  constructor
  · rintro ⟨node, hn, h⟩
    cases node with
    | var name =>
      cases h
      exact .inl ⟨name, hn, rfl⟩
    | call callee range =>
      obtain ⟨called, hc, h⟩ := bind_eq_ok_iff.1 h
      cases called with
      | type called =>
        obtain ⟨operands, hs, ho⟩ := bind_eq_ok_iff.1 h
        exact .inr ⟨called, operands, ⟨callee, range, hn, NameTable.operator_eq_ok_iff.1 hc,
          mapError_eq_ok_iff.1 hs⟩, ho⟩
      | predicate => cases h
    | str | int | function => cases h
  · rintro (⟨name, hn, rfl⟩ | ⟨called, operands, ⟨callee, range, hn, hc, hs⟩, ho⟩)
    · exact ⟨_, hn, rfl⟩
    · refine ⟨_, hn, bind_eq_ok_iff.2 ⟨_, NameTable.operator_eq_ok_iff.2 hc, ?_⟩⟩
      exact bind_eq_ok_iff.2 ⟨operands, mapError_eq_ok_iff.2 hs, ho⟩

theorem condition_eq_ok_iff {condition : Condition} :
    a.condition names id = .ok condition ↔
      ∃ called operands, a.Calls names id (Operator.spelling (.predicate called)) operands ∧
        Condition.ofCall called operands = .ok condition := by
  simp only [Arena.condition, bind_eq_ok_iff, read, mapError_eq_ok_iff]
  constructor
  · rintro ⟨node, hn, h⟩
    cases node with
    | call callee range =>
      obtain ⟨called, hc, h⟩ := bind_eq_ok_iff.1 h
      cases called with
      | predicate called =>
        obtain ⟨operands, hs, ho⟩ := bind_eq_ok_iff.1 h
        exact ⟨called, operands, ⟨callee, range, hn, NameTable.operator_eq_ok_iff.1 hc,
          mapError_eq_ok_iff.1 hs⟩, ho⟩
      | type => cases h
    | var | str | int | function => cases h
  · rintro ⟨called, operands, ⟨callee, range, hn, hc, hs⟩, ho⟩
    refine ⟨_, hn, bind_eq_ok_iff.2 ⟨_, NameTable.operator_eq_ok_iff.2 hc, ?_⟩⟩
    exact bind_eq_ok_iff.2 ⟨operands, mapError_eq_ok_iff.2 hs, ho⟩

theorem asks_of_ofCall {called : TypeOperator} {operands : List NodeId} {op : Operation}
    (hc : a.Calls names id called.spelling operands)
    (h : Operation.ofCall a called operands = .ok op) : a.Asks names id op := by
  unfold Operation.ofCall at h
  split at h
  · rename_i literal args
    obtain ⟨name, hname, h⟩ := bind_eq_ok_iff.1 h
    obtain ⟨node, hn, hview⟩ := operand_eq_ok_iff.1 hname
    cases h
    rw [Node.text?_eq_some_iff] at hview
    exact ⟨literal, hc, hview ▸ hn⟩
  · cases h
    exact ⟨hc, Nat.le_add_left 2 _⟩
  · cases h
    exact hc
  · cases h
    exact hc
  · cases h
    exact hc
  · cases h
    exact hc
  · rename_i source function
    obtain ⟨⟨param, body⟩, hfun, h⟩ := bind_eq_ok_iff.1 h
    obtain ⟨node, hn, hview⟩ := operand_eq_ok_iff.1 hfun
    cases h
    rw [Node.function?_eq_some_iff] at hview
    exact ⟨function, hc, hview ▸ hn⟩
  · cases h
    exact hc
  · rename_i subject literal
    obtain ⟨place, hplace, h⟩ := bind_eq_ok_iff.1 h
    obtain ⟨node, hn, hview⟩ := operand_eq_ok_iff.1 hplace
    cases h
    rw [Node.value?_eq_some_iff] at hview
    exact ⟨literal, hc, hview ▸ hn⟩
  · cases h

/-- A node is read as the operation that its syntax asks for. -/
theorem operation_iff {op : Operation} : a.operation names id = .ok op ↔ a.Asks names id op := by
  rw [operation_eq_ok_iff]
  constructor
  · rintro (⟨name, hn, rfl⟩ | ⟨called, operands, hc, h⟩)
    · exact hn
    · exact asks_of_ofCall hc h
  · intro h
    cases op with
    | var name => exact .inl ⟨name, h, rfl⟩
    | empty => exact .inr ⟨.none, _, h, rfl⟩
    | all => exact .inr ⟨.all, _, h, rfl⟩
    | unknown => exact .inr ⟨.unknown, _, h, rfl⟩
    | named name args =>
      obtain ⟨literal, hc, hn⟩ := h
      refine .inr ⟨.type, literal :: args, hc, bind_eq_ok_iff.2 ⟨name, ?_, rfl⟩⟩
      exact operand_eq_ok_iff.2 ⟨_, hn, rfl⟩
    | union operands =>
      obtain ⟨hc, hl⟩ := h
      match operands, hl with
      | first :: second :: rest, _ => exact .inr ⟨.union, _, hc, rfl⟩
    | cond test yes no => exact .inr ⟨.cond, _, h, rfl⟩
    | mapUnion source param body =>
      obtain ⟨function, hc, hn⟩ := h
      refine .inr ⟨.mapUnion, [source, function], hc, bind_eq_ok_iff.2 ⟨(param, body), ?_, rfl⟩⟩
      exact operand_eq_ok_iff.2 ⟨_, hn, rfl⟩
    | rawTypeOf subject => exact .inr ⟨.rawTypeOf, _, h, rfl⟩
    | templateTypeOf subject place =>
      obtain ⟨literal, hc, hn⟩ := h
      refine .inr ⟨.templateTypeOf, [subject, literal], hc, bind_eq_ok_iff.2 ⟨place, ?_, rfl⟩⟩
      exact operand_eq_ok_iff.2 ⟨_, hn, rfl⟩

theorem condition_iff {condition : Condition} :
    a.condition names id = .ok condition ↔ a.Tests names id condition := by
  rw [condition_eq_ok_iff]
  constructor
  · rintro ⟨called, operands, hc, ho⟩
    unfold Condition.ofCall at ho
    split at ho <;> cases ho <;> exact hc
  · intro h
    cases condition with
    | eq left right => exact ⟨.eq, _, h, rfl⟩
    | sub lower upper => exact ⟨.sub, _, h, rfl⟩
    | isTemplatized subject => exact ⟨.isTemplatized, _, h, rfl⟩
    | isUnknown subject => exact ⟨.isUnknown, _, h, rfl⟩

theorem Asks.unique {op op' : Operation} (h : a.Asks names id op) (h' : a.Asks names id op') :
    op = op' := Except.ok.inj ((operation_iff.2 h).symm.trans (operation_iff.2 h'))

theorem Tests.unique {condition condition' : Condition} (h : a.Tests names id condition)
    (h' : a.Tests names id condition') : condition = condition' :=
  Except.ok.inj ((condition_iff.2 h).symm.trans (condition_iff.2 h'))

end Arena

end TypeCalculus
