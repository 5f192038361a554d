import TypeCalculus.Session.Basic

/-!
Descriptions of types and expressions, and how a session makes what they describe: parts before the
whole, from left to right.
-/

namespace TypeCalculus

inductive TypeTerm where
  | unknown
  | all
  | empty
  | named (text : String)
  | union (members : List TypeTerm)
  | applied (base : TypeTerm) (args : List TypeTerm)
  /-- `arg`, made the only argument of `base` again and again. -/
  | nested (base arg : TypeTerm) (times : Nat)
  | register (i : Nat)
  /-- A handle, whether or not it leads anywhere. -/
  | handle (t : TypeId)

mutual

def TypeTerm.make : TypeTerm → SessionM TypeId
  | .unknown => return .unknown
  | .all => return .all
  | .empty => return .empty
  | .named text => do
    let name ← SessionM.intern text
    SessionM.inStore (Store.named name)
  | .union members => do
    let ts ← TypeTerm.makeAll members
    SessionM.inStore (Store.union ts)
  | .applied base args => do
    let base ← base.make
    let args ← TypeTerm.makeAll args
    SessionM.inStore (Store.applied base args)
  | .nested base arg times => do
    let base ← base.make
    let arg ← arg.make
    SessionM.iterate (fun t => SessionM.inStore (Store.applied base [t])) times arg
  | .register i => SessionM.typeAt i
  | .handle t => return t

def TypeTerm.makeAll : List TypeTerm → SessionM (List TypeId)
  | [] => return []
  | term :: terms => do
    let t ← term.make
    return t :: (← TypeTerm.makeAll terms)

end

inductive ExprTerm where
  /-- A node that is there already, or may come later. -/
  | node (id : NodeId)
  | var (text : String)
  | str (text : String)
  | int (value : Nat)
  | function (param : String) (body : ExprTerm)
  /-- A call whose operands are `args`, listed `times` over. -/
  | call (callee : String) (args : List ExprTerm) (times : Nat)
  /-- `arg`, made an operand between `before` and `after` again and again. -/
  | wrapped (callee : String) (before : List ExprTerm) (arg : ExprTerm) (after : List ExprTerm)
      (times : Nat)

def repeated {α : Type} (times : Nat) (as : List α) : List α :=
  if as.isEmpty then [] else (List.replicate times as).flatten

mutual

def ExprTerm.make : ExprTerm → SessionM NodeId
  | .node id => return id
  | .var text => do
    let name ← SessionM.intern text
    SessionM.allocate (.var name)
  | .str text => do
    let name ← SessionM.intern text
    SessionM.allocate (.str name)
  | .int value => SessionM.allocate (.int value)
  | .function param body => do
    let body ← body.make
    let param ← SessionM.intern param
    SessionM.allocate (.function param body)
  | .call callee args times => do
    let ids ← ExprTerm.makeAll args
    let callee ← SessionM.intern callee
    SessionM.allocate (.call callee (repeated times ids))
  | .wrapped callee before arg after times => do
    let before ← ExprTerm.makeAll before
    let arg ← arg.make
    let after ← ExprTerm.makeAll after
    let callee ← SessionM.intern callee
    SessionM.iterate (fun id => SessionM.allocate (.call callee (before ++ id :: after))) times arg

def ExprTerm.makeAll : List ExprTerm → SessionM (List NodeId)
  | [] => return []
  | term :: terms => do
    let id ← term.make
    return id :: (← ExprTerm.makeAll terms)

end

end TypeCalculus
