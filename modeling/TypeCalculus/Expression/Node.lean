import TypeCalculus.Name

/-!
The nodes of expression trees. Children are given by their place in an arena, and the operands of
a call by a range of the arena's operand list.
-/

namespace TypeCalculus

structure NodeId where
  index : Nat
  deriving DecidableEq, Repr

def NodeId.debugText (id : NodeId) : String := s!"TypeExprId({id.index})"

structure OperandRange where
  start : Nat
  length : Nat
  deriving DecidableEq, Repr

namespace OperandRange

def empty : OperandRange := ⟨0, 0⟩

def isEmpty (r : OperandRange) : Bool := r.length == 0

def stop (r : OperandRange) : Nat := r.start + r.length

/-- The end is written as a 32-bit word. -/
def debugText (r : OperandRange) : String := s!"ExprRange({r.start}..{r.stop % 0x100000000})"

end OperandRange

inductive NodeKind where
  | typeVariable
  | stringLiteral
  | integerLiteral
  | call
  | function
  deriving DecidableEq, Repr

def NodeKind.text : NodeKind → String
  | typeVariable => "type variable"
  | stringLiteral => "string literal"
  | integerLiteral => "integer literal"
  | call => "operator call"
  | function => "function"

inductive Node where
  | var (name : Name)
  | str (text : Name)
  | int (value : Nat)
  | call (callee : Name) (operands : OperandRange)
  | function (param : Name) (body : NodeId)
  deriving DecidableEq, Repr

namespace Node

def kind : Node → NodeKind
  | var _ => .typeVariable
  | str _ => .stringLiteral
  | int _ => .integerLiteral
  | call _ _ => .call
  | function _ _ => .function

def text? : Node → Option Name
  | str text => some text
  | _ => none

def value? : Node → Option Nat
  | int value => some value
  | _ => none

def function? : Node → Option (Name × NodeId)
  | function param body => some (param, body)
  | _ => none

@[simp] theorem text?_eq_some_iff {node : Node} {text : Name} :
    node.text? = some text ↔ node = str text := by
  cases node <;> simp [text?]

@[simp] theorem value?_eq_some_iff {node : Node} {value : Nat} :
    node.value? = some value ↔ node = int value := by
  cases node <;> simp [value?]

@[simp] theorem function?_eq_some_iff {node : Node} {param : Name} {body : NodeId} :
    node.function? = some (param, body) ↔ node = function param body := by
  cases node <;> simp [function?]

end Node

end TypeCalculus
