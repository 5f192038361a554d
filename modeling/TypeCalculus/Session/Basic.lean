import TypeCalculus.Declarations
import TypeCalculus.Store.Text
import TypeCalculus.Evaluation.Eval

/-!
A session owns one of everything: a name table, a store, declarations, an arena, and registers for
the types and scopes that later steps refer to. A step that stops keeps what it had done.
-/

namespace TypeCalculus

structure Session where
  names : NameTable
  store : Store
  declarations : Declarations
  arena : Arena
  types : Array TypeId
  scopes : Array Scope
  seen : Array Name

namespace Session

def new (spread : Spread) : Session :=
  ⟨.new spread, .new, .empty, .empty, #[], #[], #[]⟩

inductive Stop where
  | fault (f : Fault)
  | noTypeRegister (register : Nat)
  | noScopeRegister (register : Nat)
  deriving DecidableEq, Repr

end Session

abbrev SessionM := EStateM Session.Stop Session

namespace SessionM

def ofFault {α : Type} : Except Fault α → SessionM α
  | .ok a => return a
  | .error f => throw (.fault f)

def intern (text : String) : SessionM Name := do
  match (← get).names.intern text with
  | .ok (name, names) =>
    modify fun session => { session with names }
    return name
  | .error e => throw (.fault (.shardFull e))

def textOf (name : Name) : SessionM String := do
  match (← get).names.text? name with
  | some text => return text
  | none => throw (.fault (.foreignName name))

def askStore {α : Type} (question : Store → Except Fault α) : SessionM α := do
  ofFault (question (← get).store)

def inStore {α : Type} (act : StoreM α) : SessionM α := fun session =>
  match act session.store with
  | .ok a store => .ok a { session with store }
  | .error f store => .error (.fault f) { session with store }

def allocate (request : Arena.Request) : SessionM NodeId := fun session =>
  match request.make session.arena with
  | .ok id arena => .ok id { session with arena }
  | .error f arena => .error (.fault f) { session with arena }

def typeText (t : TypeId) : SessionM String := do
  let names := (← get).names
  askStore (·.text names t)

def typeAt (register : Nat) : SessionM TypeId := do
  match (← get).types[register]? with
  | some t => return t
  | none => throw (.noTypeRegister register)

def scopeAt (register : Nat) : SessionM Scope := do
  match (← get).scopes[register]? with
  | some scope => return scope
  | none => throw (.noScopeRegister register)

def keepType (t : TypeId) : SessionM Unit :=
  modify fun session => { session with types := session.types.push t }

def keepScope (scope : Scope) : SessionM Nat := do
  let register := (← get).scopes.size
  modify fun session => { session with scopes := session.scopes.push scope }
  return register

/-- The number of a name by first sight; a new name gets the next one. -/
def number (name : Name) : SessionM Nat := do
  let seen := (← get).seen
  match seen.idxOf? name with
  | some i => return i
  | none =>
    modify fun session => { session with seen := seen.push name }
    return seen.size

def iterate {α : Type} (step : α → SessionM α) : Nat → α → SessionM α
  | 0, a => return a
  | times + 1, a => do iterate step times (← step a)

end SessionM

end TypeCalculus
