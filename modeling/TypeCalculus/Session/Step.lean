import TypeCalculus.Session.Term

/-!
The steps of a session and their answers.
-/

namespace TypeCalculus

namespace Session

inductive Mode where
  | report
  | typeOnly
  /-- The type alone, under the standard limit whatever limit is given. -/
  | standard
  deriving DecidableEq, Repr

inductive Step where
  | intern (text : String)
  | find (text : String)
  | type (term : TypeTerm)
  | details (term : TypeTerm)
  | write (buffer : String) (term : TypeTerm)
  | compare (left right : TypeTerm)
  | matrix
  | dump
  | builtins
  | declare (name : String) (term : TypeTerm)
  | declareNamed (name : String)
  | resolve (name : String)
  | scope (bindings : List (String × TypeTerm))
  | callSite (params : List String) (args : List TypeTerm)
  | extend (register : Nat) (bindings : List (String × TypeTerm)) (times : Nat)
  | lookup (register : Nat) (name : String)
  | scopeInfo (register : Nat)
  | expr (term : ExprTerm)
  | arena
  | node (id : NodeId)
  | operands (range : OperandRange)
  | eval (term : ExprTerm) (scope : Option Nat) (limit : DepthLimit) (mode : Mode)

structure TypeView where
  type : TypeId
  text : String
  deriving DecidableEq, Repr

structure TypeDetails where
  view : TypeView
  shape : Shape
  traits : Traits
  members : List TypeId
  base : Option TypeId
  args : List TypeId
  types : Nat
  deriving DecidableEq, Repr

structure ScopeView where
  register : Nat
  localSize : Nat
  depth : Nat
  isEmpty : Bool
  /-- The bound texts of each level in ascending order, from the inside out. -/
  names : List (List String)
  deriving DecidableEq, Repr

inductive NodeView where
  | var (text : String)
  | str (text : String)
  | int (value : Nat)
  | call (callee : String) (start : Nat) (operands : List NodeId)
  | function (param : String) (body : NodeId)
  deriving DecidableEq, Repr

def NodeView.kind : NodeView → NodeKind
  | var _ => .typeVariable
  | str _ => .stringLiteral
  | int _ => .integerLiteral
  | call _ _ _ => .call
  | function _ _ => .function

inductive MissView where
  | unboundVariable (text : String)
  | undeclaredType (text : String)
  deriving DecidableEq, Repr

inductive Answer where
  | interned (number : Nat) (text : String) (size : Nat) (isEmpty : Bool)
  | found (name : Option (String × Option Nat)) (size : Nat) (isEmpty : Bool)
  | type (view : TypeView) (types : Nat)
  | details (details : TypeDetails)
  | text (text : String)
  | comparison (below above equal : Bool)
  | matrix (rows : List (List Bool))
  | dump (rows : List (String × Kind × Traits))
  | builtins (declared types names : Nat)
  | declared (previous : Option TypeView) (size : Nat)
  | resolved (type : Option TypeView) (contains : Bool) (size : Nat) (isEmpty : Bool)
  | scope (view : ScopeView)
  | looked (type : Option TypeView) (contains : Bool)
  | expr (id : NodeId) (size : Nat) (isEmpty : Bool)
  | arena (nodes : List NodeView)
  | node (view : NodeView)
  | operands (ids : List NodeId)
  | evaluated (view : TypeView) (types : Nat) (misses : Option (List MissView))
  | failed (e : EvalError) (types : Nat)
  deriving DecidableEq, Repr

end Session

namespace SessionM

open Session

def typeCount : SessionM Nat := return (← get).store.size

def typeView (t : TypeId) : SessionM TypeView := return ⟨t, ← typeText t⟩

def typeView? : Option TypeId → SessionM (Option TypeView)
  | some t => return some (← typeView t)
  | none => return none

def typeAnswer (t : TypeId) : SessionM Answer := return .type (← typeView t) (← typeCount)

def typeDetails (t : TypeId) : SessionM TypeDetails := do
  return {
    view := ← typeView t
    shape := ← askStore (·.shape t)
    traits := ← askStore (·.traits t)
    members := ← askStore (·.members t)
    base := ← askStore (·.base? t)
    args := ← askStore (·.args t)
    types := ← typeCount }

def scopeView (register : Nat) (scope : Scope) : SessionM ScopeView := do
  let names ← scope.namesByLevel.mapM fun level => return (← level.mapM textOf).mergeSort (· ≤ ·)
  return ⟨register, scope.localSize, scope.depth, scope.isEmpty, names⟩

def scopeAnswer (scope : Scope) : SessionM Answer := do
  let register ← keepScope scope
  return .scope (← scopeView register scope)

def binding (name : String) (term : TypeTerm) : SessionM (Name × TypeId) := do
  let name ← intern name
  return (name, ← term.make)

def nodeView (node : Node) : SessionM NodeView := do
  match node with
  | .var name => return .var (← textOf name)
  | .str text => return .str (← textOf text)
  | .int value => return .int value
  | .call callee range =>
    let arena := (← get).arena
    return .call (← textOf callee) range.start (← ofFault (arena.slice range))
  | .function param body => return .function (← textOf param) body

def missView : Miss → SessionM MissView
  | .unboundVariable name => return .unboundVariable (← textOf name)
  | .undeclaredType name => return .undeclaredType (← textOf name)

def allTypes : SessionM (List TypeId) := return (List.range (← typeCount)).map TypeId.mk

def evaluate (root : NodeId) (scope : Scope) (limit : DepthLimit) :
    SessionM (Except EvalError Evaluation) := do
  let session ← get
  let cx : Context := ⟨session.names, session.arena, session.declarations.resolve?, limit⟩
  let (result, store) := cx.evaluate scope root session.store
  modify fun session => { session with store }
  match result with
  | .ok evaluation => return .ok evaluation
  | .error (.error e) => return .error e
  | .error (.fault f) => throw (.fault f)

def run : Step → SessionM Answer
  | .intern text => do
    let name ← intern text
    let number ← number name
    return .interned number (← textOf name) (← get).names.size name.isEmpty
  | .find text => do
    let session ← get
    let name ← (session.names.get? text).mapM fun name =>
      return (← textOf name, session.seen.idxOf? name)
    return .found name session.names.size session.names.isEmpty
  | .type term => do
    let t ← term.make
    keepType t
    typeAnswer t
  | .details term => do
    let t ← term.make
    return .details (← typeDetails t)
  | .write buffer term => do
    let t ← term.make
    let names := (← get).names
    return .text (← askStore (·.write names buffer t))
  | .compare left right => do
    let left ← left.make
    let right ← right.make
    return .comparison (← askStore (·.isSubtype left right)) (← askStore (·.isSubtype right left))
      (left = right)
  | .matrix => do
    let ts ← allTypes
    return .matrix (← ts.mapM fun a => ts.mapM fun b => askStore (·.isSubtype a b))
  | .dump => do
    let ts ← allTypes
    return .dump (← ts.mapM fun t =>
      return (← typeText t, ← askStore (·.kind t), ← askStore (·.traits t)))
  | .builtins => do
    let (declarations, names) ← inStore (Declarations.ofBuiltins (← get).names)
    modify fun session => { session with declarations, names }
    return .builtins declarations.size (← typeCount) names.size
  | .declare name term => do
    let (name, t) ← binding name term
    let declarations := (← get).declarations
    modify fun session => { session with declarations := declarations.declare name t }
    return .declared (← typeView? (declarations.resolve? name)) (← get).declarations.size
  | .declareNamed name => do
    let name ← intern name
    let (t, declarations) ← inStore ((← get).declarations.declareNamed name)
    modify fun session => { session with declarations }
    keepType t
    typeAnswer t
  | .resolve name => do
    let name ← intern name
    let declarations := (← get).declarations
    return .resolved (← typeView? (declarations.resolve? name)) (declarations.contains name)
      declarations.size declarations.isEmpty
  | .scope bindings => do
    let bindings ← bindings.mapM fun (name, term) => binding name term
    scopeAnswer (.ofBindings bindings)
  | .callSite params args => do
    let params ← params.mapM intern
    let args ← TypeTerm.makeAll args
    scopeAnswer (.ofCallSite params args)
  | .extend register bindings times => do
    let scope ← scopeAt register
    let bindings ← bindings.mapM fun (name, term) => binding name term
    scopeAnswer (Nat.repeat (·.extend bindings) times scope)
  | .lookup register name => do
    let scope ← scopeAt register
    let name ← intern name
    return .looked (← typeView? (scope.lookup? name)) (scope.contains name)
  | .scopeInfo register => do return .scope (← scopeView register (← scopeAt register))
  | .expr term => do
    let id ← term.make
    let arena := (← get).arena
    return .expr id arena.size arena.isEmpty
  | .arena => do return .arena (← (← get).arena.nodes.toList.mapM nodeView)
  | .node id => do
    let node ← ofFault ((← get).arena.node id)
    return .node (← nodeView node)
  | .operands range => do return .operands (← ofFault ((← get).arena.slice range))
  | .eval term scope limit mode => do
    let root ← term.make
    let scope ← match scope with
      | some register => scopeAt register
      | none => pure .empty
    let limit := if mode = .standard then .standard else limit
    match ← evaluate root scope limit with
    | .error e => return .failed e (← typeCount)
    | .ok evaluation =>
      let misses ← if mode = .report then some <$> evaluation.misses.mapM missView else pure none
      return .evaluated (← typeView evaluation.type) (← typeCount) misses

end SessionM

namespace Session

/-- Runs one step; a step without an answer still leaves behind what it did. -/
def run (session : Session) (step : Step) : Except Stop Answer × Session :=
  match SessionM.run step session with
  | .ok answer session => (.ok answer, session)
  | .error stop session => (.error stop, session)

def runAll (session : Session) : List Step → List (Except Stop Answer) × Session
  | [] => ([], session)
  | step :: steps =>
    let (answer, session) := session.run step
    let (answers, session) := session.runAll steps
    (answer :: answers, session)

end Session

end TypeCalculus
