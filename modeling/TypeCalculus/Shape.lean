import TypeCalculus.Name
import TypeCalculus.TypeId

/-!
What one stored type looks like. A shape holds handles of its parts instead of the parts, so two
shapes are compared without walking into them.
-/

namespace TypeCalculus

inductive Kind where
  | unknown
  | all
  | empty
  | named
  | union
  | applied
  deriving DecidableEq, Repr

/-- One stored type, its parts given by their handles. -/
inductive Shape where
  | unknown
  | all
  | empty
  | named (name : Name)
  /-- Two or more members in ascending order, none of them a union or one of `?`, `*`, `None`. -/
  | union (members : List TypeId)
  /-- A nominal type with at least one template argument. -/
  | applied (base : TypeId) (args : List TypeId)
  deriving DecidableEq, Repr

namespace Shape

def kind : Shape → Kind
  | unknown => .unknown
  | all => .all
  | empty => .empty
  | named _ => .named
  | union _ => .union
  | applied _ _ => .applied

/-- The handles a shape holds, a base before its arguments. -/
def parts : Shape → List TypeId
  | union members => members
  | applied base args => base :: args
  | _ => []

def name? : Shape → Option Name
  | named name => some name
  | _ => none

theorem eq_of_parts {a b : Shape} (hk : a.kind = b.kind) (hn : a.name? = b.name?)
    (hp : a.parts = b.parts) : a = b := by
  cases a <;> cases b <;> simp_all [kind, name?, parts]

/-- Shapes are ordered by kind, then by name, then by their parts. -/
def order : Shape → Shape → Ordering :=
  compareLex (compareOn (·.kind.ctorIdx)) (compareLex (compareOn name?) (compareOn parts))

instance : Ord Shape := ⟨order⟩

instance : Std.TransOrd Shape := inferInstanceAs (Std.TransCmp (compareLex _ (compareLex _ _)))

instance : Std.LawfulEqOrd Shape where
  eq_of_compare {a b} h := by
    obtain ⟨hk, h⟩ := compareLex_eq_eq.1 h
    obtain ⟨hn, hp⟩ := compareLex_eq_eq.1 h
    refine eq_of_parts ?_ (Std.LawfulEqOrd.eq_of_compare hn) (Std.LawfulEqOrd.eq_of_compare hp)
    have hk := Std.LawfulEqOrd.eq_of_compare hk
    cases ha : a.kind <;> cases hb : b.kind <;> simp_all [Kind.ctorIdx]

end Shape

end TypeCalculus
