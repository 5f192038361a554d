import TypeCalculus.NameTable
import TypeCalculus.TypeId
import TypeCalculus.Expression.Node

/-!
Faults: a handle that leads nowhere, or no room left. A fault is the caller's mistake or the end of
a resource, never a property of the expression that is evaluated.
-/

namespace TypeCalculus

inductive Fault where
  | danglingType (type : TypeId)
  | danglingNode (node : NodeId)
  | danglingOperands (range : OperandRange)
  | foreignName (name : Name)
  | tooManyOperands
  | storeFull
  | nodesFull
  | operandsFull
  | shardFull (shard : ShardFull)
  deriving DecidableEq, Repr

/-- What is said when room runs out; a handle that leads nowhere has no message of its own. -/
def Fault.message? : Fault → Option String
  | danglingType _ | danglingNode _ | danglingOperands _ | foreignName _ => none
  | tooManyOperands => some "operator applied to more than u16::MAX operands"
  | storeFull => some "type pool exceeded u32::MAX types"
  | nodesFull => some "type expression arena exceeded u32::MAX nodes"
  | operandsFull => some "type expression operand list exceeded u32::MAX"
  | shardFull shard => some shard.message

end TypeCalculus
