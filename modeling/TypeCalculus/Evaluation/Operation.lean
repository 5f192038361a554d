import TypeCalculus.Expression.Arena
import TypeCalculus.Evaluation.Error

/-!
The meaning of a single node. Reading a node checks its operator, where it stands, how many
operands it has and which of them have to be literals; what is left to evaluate is an operation in
type position or a condition.
-/

namespace TypeCalculus

inductive Operation where
  | var (name : Name)
  | empty
  | all
  | unknown
  /-- The type declared under `name`, with template arguments if there are any. -/
  | named (name : Name) (args : List NodeId)
  | union (operands : List NodeId)
  | cond (test yes no : NodeId)
  /-- The union of `body` over the members of `source`, each bound to `param` in turn. -/
  | mapUnion (source : NodeId) (param : Name) (body : NodeId)
  | rawTypeOf (subject : NodeId)
  /-- The template argument at `place`, counted from 0. -/
  | templateTypeOf (subject : NodeId) (place : Nat)
  deriving DecidableEq, Repr

inductive Condition where
  | eq (left right : NodeId)
  | sub (lower upper : NodeId)
  | isTemplatized (subject : NodeId)
  | isUnknown (subject : NodeId)
  deriving DecidableEq, Repr

namespace Arena

def read (a : Arena) (id : NodeId) : Except Abort Node :=
  (a.node id).mapError .fault

/-- What `view` sees of operand number `place` of `op`, which has to be of the expected kind. -/
def operand {α : Type} (a : Arena) (op : TypeOperator) (place : Nat) (expected : NodeKind)
    (view : Node → Option α) (id : NodeId) : Except Abort α := do
  match view (← a.read id) with
  | some value => return value
  | none => throw (.error (.operandShape (.type op) place expected))

end Arena

def Operation.ofCall (a : Arena) (op : TypeOperator) (operands : List NodeId) :
    Except Abort Operation :=
  match op, operands with
  | .type, literal :: args => do
    let name ← a.operand .type 1 .stringLiteral Node.text? literal
    return .named name args
  | .union, first :: second :: rest => return .union (first :: second :: rest)
  | .none, [] => return .empty
  | .all, [] => return .all
  | .unknown, [] => return .unknown
  | .cond, [test, yes, no] => return .cond test yes no
  | .mapUnion, [source, function] => do
    let (param, body) ← a.operand .mapUnion 2 .function Node.function? function
    return .mapUnion source param body
  | .rawTypeOf, [subject] => return .rawTypeOf subject
  | .templateTypeOf, [subject, literal] => do
    let place ← a.operand .templateTypeOf 2 .integerLiteral Node.value? literal
    return .templateTypeOf subject place
  | op, operands => throw (.error (.wrongArity (.type op) op.arity operands.length))

def Condition.ofCall (op : PredicateOperator) (operands : List NodeId) : Except Abort Condition :=
  match op, operands with
  | .eq, [left, right] => return .eq left right
  | .sub, [lower, upper] => return .sub lower upper
  | .isTemplatized, [subject] => return .isTemplatized subject
  | .isUnknown, [subject] => return .isUnknown subject
  | op, operands => throw (.error (.wrongArity (.predicate op) op.arity operands.length))

def NameTable.operator (names : NameTable) (callee : Name) : Except Abort Operator :=
  match names.text? callee with
  | none => throw (.fault (.foreignName callee))
  | some text =>
    match Operator.ofSpelling? text with
    | some op => return op
    | none => throw (.error (.unknownOperator text))

namespace Arena

def operation (a : Arena) (names : NameTable) (id : NodeId) : Except Abort Operation := do
  match ← a.read id with
  | .var name => return .var name
  | .call callee range =>
    match ← names.operator callee with
    | .type op => Operation.ofCall a op (← (a.slice range).mapError .fault)
    | .predicate op => throw (.error (.misplaced (.predicate op) .type))
  | node => throw (.error (.unexpectedNode node.kind .type))

def condition (a : Arena) (names : NameTable) (id : NodeId) : Except Abort Condition := do
  match ← a.read id with
  | .call callee range =>
    match ← names.operator callee with
    | .predicate op => Condition.ofCall op (← (a.slice range).mapError .fault)
    | .type op => throw (.error (.misplaced (.type op) .condition))
  | node => throw (.error (.unexpectedNode node.kind .condition))

end Arena

end TypeCalculus
