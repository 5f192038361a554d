/-!
The operators of the language: how each is spelled, how many operands it takes, and whether it
stands where a type is expected or where a condition is.
-/

namespace TypeCalculus

inductive Arity where
  | exactly (n : Nat)
  | atLeast (n : Nat)
  deriving DecidableEq, Repr

namespace Arity

def accepts : Arity → Nat → Bool
  | exactly n, count => count == n
  | atLeast n, count => n ≤ count

def text : Arity → String
  | exactly n => toString n
  | atLeast n => "at least " ++ toString n

end Arity

/-- What an expression is read as: a type, or the condition of a choice. -/
inductive Position where
  | type
  | condition
  deriving DecidableEq, Repr

def Position.text : Position → String
  | type => "type expression"
  | condition => "boolean expression"

inductive TypeOperator where
  | type
  | union
  | none
  | all
  | unknown
  | cond
  | mapUnion
  | rawTypeOf
  | templateTypeOf
  deriving DecidableEq, Repr

inductive PredicateOperator where
  | eq
  | sub
  | isTemplatized
  | isUnknown
  deriving DecidableEq, Repr

inductive Operator where
  | type (op : TypeOperator)
  | predicate (op : PredicateOperator)
  deriving DecidableEq, Repr

def TypeOperator.spelling : TypeOperator → String
  | type => "type"
  | union => "union"
  | none => "none"
  | all => "all"
  | unknown => "unknown"
  | cond => "cond"
  | mapUnion => "mapunion"
  | rawTypeOf => "rawTypeOf"
  | templateTypeOf => "templateTypeOf"

def PredicateOperator.spelling : PredicateOperator → String
  | eq => "eq"
  | sub => "sub"
  | isTemplatized => "isTemplatized"
  | isUnknown => "isUnknown"

def TypeOperator.arity : TypeOperator → Arity
  | type => .atLeast 1
  | union => .atLeast 2
  | none | all | unknown => .exactly 0
  | cond => .exactly 3
  | mapUnion | templateTypeOf => .exactly 2
  | rawTypeOf => .exactly 1

def PredicateOperator.arity : PredicateOperator → Arity
  | eq | sub => .exactly 2
  | isTemplatized | isUnknown => .exactly 1

namespace Operator

def vocabulary : List Operator :=
  [.type .type, .type .union, .type .none, .type .all, .type .unknown, .type .cond,
    .type .mapUnion, .type .rawTypeOf, .type .templateTypeOf,
    .predicate .eq, .predicate .sub, .predicate .isTemplatized, .predicate .isUnknown]

def spelling : Operator → String
  | type op => op.spelling
  | predicate op => op.spelling

def arity : Operator → Arity
  | type op => op.arity
  | predicate op => op.arity

def position : Operator → Position
  | type _ => .type
  | predicate _ => .condition

/-- The operator spelled `text`; spellings are case sensitive. -/
def ofSpelling? (text : String) : Option Operator :=
  vocabulary.find? (·.spelling == text)

theorem mem_vocabulary (op : Operator) : op ∈ vocabulary := by
  cases op with
  | type op => cases op <;> decide
  | predicate op => cases op <;> decide

@[simp] theorem ofSpelling?_spelling (op : Operator) : ofSpelling? op.spelling = some op := by
  cases op with
  | type op => cases op <;> decide
  | predicate op => cases op <;> decide

theorem spelling_of_ofSpelling? {text : String} {op : Operator} (h : ofSpelling? text = some op) :
    op.spelling = text := by
  simpa using List.find?_some h

end Operator

end TypeCalculus
