import TypeCalculus.Fault
import TypeCalculus.DepthLimit

/-!
Why an evaluation ends without a type. Either the expression is malformed, or it is nested deeper
than the limit allows. A name that does not resolve is no error.
-/

namespace TypeCalculus

inductive EvalError where
  | unknownOperator (callee : String)
  | wrongArity (op : Operator) (expected : Arity) (found : Nat)
  /-- An operand, counted from 1, that is not the literal or function it has to be. -/
  | operandShape (op : Operator) (place : Nat) (expected : NodeKind)
  /-- A predicate where a type is expected, or a type operator where a condition is. -/
  | misplaced (op : Operator) (expected : Position)
  /-- Something other than a call or a variable where it cannot be evaluated. -/
  | unexpectedNode (found : NodeKind) (expected : Position)
  | depthExceeded (limit : Nat)
  deriving DecidableEq, Repr

namespace EvalError

def isResourceExhaustion : EvalError → Bool
  | depthExceeded _ => true
  | _ => false

def isContractViolation (e : EvalError) : Bool := !e.isResourceExhaustion

def message : EvalError → String
  | unknownOperator callee => s!"unrecognized type transformation operator `{callee}`"
  | wrongArity op expected found =>
    s!"`{op.spelling}` expects {expected.text} operand(s), found {found}"
  | operandShape op place expected =>
    s!"operand {place} of `{op.spelling}` must be a {expected.text}"
  | misplaced op expected => s!"`{op.spelling}` cannot be used as a {expected.text}"
  | unexpectedNode found expected => s!"{found.text} cannot be used as a {expected.text}"
  | depthExceeded limit => s!"type transformation exceeded the maximum depth of {limit}"

end EvalError

/-- What stops an evaluation: an error of the expression, or a fault of its surroundings. -/
inductive Abort where
  | error (e : EvalError)
  | fault (f : Fault)
  deriving DecidableEq, Repr

end TypeCalculus
