import TypeCalculus.Store.Basic

/-!
When one stored type is below another. `?` is compatible in both directions, unions distribute, and
template arguments are invariant up to `?`, which matches any argument at any nesting.
-/

namespace TypeCalculus

namespace Store

/-- Whether two template arguments agree up to `?`. Parts have smaller indices than what they are
parts of, so the indices of `a` and `b` bound the nesting that `fuel` has to cover. Where it does not
there is no answer. -/
def argMatchesWithin (s : Store) : Nat → TypeId → TypeId → Except Fault Bool
  | 0, a, _ => .error (.danglingType a)
  | fuel + 1, a, b => do
    if a = b ∨ a = .unknown ∨ b = .unknown then return true
    if (← s.traits a).mentionsUnknown || (← s.traits b).mentionsUnknown then
      match ← s.shape a, ← s.shape b with
      | .applied base args, .applied base' args' =>
        if base = base' ∧ args.length = args'.length then
          (args.zip args').allM fun p => argMatchesWithin s fuel p.1 p.2
        else return false
      | _, _ => return false
    else return false

/-- Two template arguments agree up to `?`. Without `?` inside they agree only if they are equal. -/
def argMatches (s : Store) (a b : TypeId) : Except Fault Bool :=
  s.argMatchesWithin (a.index + b.index + 1) a b

def argsMatch (s : Store) (args args' : List TypeId) : Except Fault Bool :=
  if args.length = args'.length then (args.zip args').allM fun p => s.argMatches p.1 p.2
  else .ok false

/-- Subtyping, with `fuel` for the members of unions on either side; no answer without fuel. -/
def subtypeWithin (s : Store) : Nat → TypeId → TypeId → Except Fault Bool
  | 0, sub, _ => .error (.danglingType sub)
  | fuel + 1, sub, sup => do
    if sub = sup ∨ sup = .all ∨ sup = .unknown ∨ sub = .unknown ∨ sub = .empty then return true
    if sub.isSentinel || sup.isSentinel then return false
    match ← s.shape sub with
    | .union members => members.allM fun m => subtypeWithin s fuel m sup
    | lower =>
      match lower, ← s.shape sup with
      | _, .union members => members.anyM fun m => subtypeWithin s fuel sub m
      | .applied base _, .named _ => return base = sup
      | .applied base args, .applied base' args' =>
        if base = base' then s.argsMatch args args' else return false
      | _, _ => return false

def isSubtype (s : Store) (sub sup : TypeId) : Except Fault Bool :=
  s.subtypeWithin (sub.index + sup.index + 1) sub sup

end Store

end TypeCalculus
