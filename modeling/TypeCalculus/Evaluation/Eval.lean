import TypeCalculus.Store.Build
import TypeCalculus.Store.Subtype
import TypeCalculus.Scope
import TypeCalculus.Evaluation.Operation

/-!
Evaluation of expressions to types. An evaluation adds types to the store as it goes and notes the
names that did not resolve; each of them counts as `?`. The rules for one operation take the
evaluation of operands as parameters, so that the depth limit is the only thing the recursion adds.
-/

namespace TypeCalculus

inductive Miss where
  /-- A type variable that no level of the scope binds. -/
  | unboundVariable (name : Name)
  | undeclaredType (name : Name)
  deriving DecidableEq, Repr

structure Progress where
  store : Store
  /-- The names that did not resolve, in order of their first miss. -/
  misses : List Miss

/-- A step of an evaluation. What it has done so far outlives its failure. -/
abbrev Eval := EStateM Abort Progress

namespace Eval

def ofExcept {α : Type} : Except Abort α → Eval α
  | .ok a => return a
  | .error e => throw e

def ask {α : Type} (question : Store → Except Fault α) : Eval α := fun p =>
  match question p.store with
  | .ok a => .ok a p
  | .error f => .error (.fault f) p

def build (make : StoreM TypeId) : Eval TypeId := fun p =>
  match make p.store with
  | .ok t store => .ok t { p with store }
  | .error f store => .error (.fault f) { p with store }

def note (miss : Miss) : Eval Unit :=
  modify fun p => if miss ∈ p.misses then p else { p with misses := p.misses ++ [miss] }

def resolved (found : Option TypeId) (miss : Miss) : Eval TypeId :=
  match found with
  | some t => return t
  | none => do
    note miss
    return .unknown

end Eval

section Rules

variable (typeOf : Scope → NodeId → Eval TypeId)

/-- The rule of each operation, given how operands in type and condition position are evaluated. -/
def Operation.eval (declared? : Name → Option TypeId) (holds : Scope → NodeId → Eval Bool)
    (scope : Scope) : Operation → Eval TypeId
  | var name => Eval.resolved (scope.lookup? name) (.unboundVariable name)
  | empty => return .empty
  | all => return .all
  | unknown => return .unknown
  | named name args => do
    let args ← args.mapM (typeOf scope)
    let base ← Eval.resolved (declared? name) (.undeclaredType name)
    if base = .unknown then return base
    Eval.build (Store.applied base args)
  | union operands => do
    let types ← operands.mapM (typeOf scope)
    Eval.build (Store.union types)
  | cond test yes no => do
    if ← holds scope test then typeOf scope yes else typeOf scope no
  | mapUnion source param body => do
    let source ← typeOf scope source
    let members ← Eval.ask (·.members source)
    let types ← members.mapM fun member => typeOf (scope.extend [(param, member)]) body
    Eval.build (Store.union types)
  | rawTypeOf subject => do
    let t ← typeOf scope subject
    return (← Eval.ask (·.base? t)).getD .unknown
  | templateTypeOf subject place => do
    let t ← typeOf scope subject
    return (← Eval.ask (·.args t))[place]?.getD .unknown

/-- The rule of each condition, given how operands in type position are evaluated. -/
def Condition.eval (scope : Scope) : Condition → Eval Bool
  | eq left right => do
    let left ← typeOf scope left
    let right ← typeOf scope right
    return left = right
  | sub lower upper => do
    let lower ← typeOf scope lower
    let upper ← typeOf scope upper
    Eval.ask (·.isSubtype lower upper)
  | isTemplatized subject => do
    let t ← typeOf scope subject
    return (← Eval.ask (·.traits t)).isApplied
  | isUnknown subject => return (← typeOf scope subject).isUnknown

end Rules

/-- What an expression is evaluated against, apart from the store and the scope. -/
structure Context where
  names : NameTable
  arena : Arena
  declared? : Name → Option TypeId
  limit : DepthLimit

namespace Context

def exhausted {α : Type} (cx : Context) : Eval α :=
  throw (.error (.depthExceeded cx.limit.max))

mutual

/-- The type of a node, with room for so many levels. -/
def typeAt (cx : Context) : Nat → Scope → NodeId → Eval TypeId
  | 0, _, _ => cx.exhausted
  | room + 1, scope, id => do
    let op ← Eval.ofExcept (cx.arena.operation cx.names id)
    op.eval (typeAt cx room) cx.declared? (holdsAt cx room) scope

def holdsAt (cx : Context) : Nat → Scope → NodeId → Eval Bool
  | 0, _, _ => cx.exhausted
  | room + 1, scope, id => do
    let condition ← Eval.ofExcept (cx.arena.condition cx.names id)
    condition.eval (typeAt cx room) scope

end

end Context

/-- The type of an expression, with the names that did not resolve on the way to it. -/
structure Evaluation where
  type : TypeId
  misses : List Miss
  deriving DecidableEq, Repr

/-- Evaluates the expression at `root`. The types made on the way stay in the store, also when the
evaluation fails. -/
def Context.evaluate (cx : Context) (scope : Scope) (root : NodeId) (store : Store) :
    Except Abort Evaluation × Store :=
  match cx.typeAt (cx.limit.room 0) scope root ⟨store, []⟩ with
  | .ok type p => (.ok ⟨type, p.misses⟩, p.store)
  | .error e p => (.error e, p.store)

end TypeCalculus
