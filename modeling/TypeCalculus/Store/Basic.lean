import TypeCalculus.Fault
import TypeCalculus.Traits

/-!
A store holds each type once. Storing a shape that is already there gives back its handle, so two
handles are equal exactly when what they stand for is.
-/

namespace TypeCalculus

structure Store.Entry where
  shape : Shape
  traits : Traits
  deriving DecidableEq, Repr

structure Store where
  entries : Array Store.Entry
  directory : Std.TreeMap Shape TypeId

namespace Store

/-- Handles are 32-bit words. -/
abbrev capacity : Nat := 0x100000000

def size (s : Store) : Nat := s.entries.size

def entry (s : Store) (t : TypeId) : Except Fault Entry :=
  match s.entries[t.index]? with
  | some e => .ok e
  | none => .error (.danglingType t)

def shape (s : Store) (t : TypeId) : Except Fault Shape :=
  return (← s.entry t).shape

def traits (s : Store) (t : TypeId) : Except Fault Traits :=
  return (← s.entry t).traits

def kind (s : Store) (t : TypeId) : Except Fault Kind :=
  return (← s.shape t).kind

/-- A type seen as a union: the empty type has no members and all but unions are their own. -/
def members (s : Store) (t : TypeId) : Except Fault (List TypeId) :=
  return match ← s.shape t with
    | .union members => members
    | .empty => []
    | _ => [t]

def base? (s : Store) (t : TypeId) : Except Fault (Option TypeId) :=
  return match ← s.shape t with
    | .applied base _ => some base
    | _ => none

def args (s : Store) (t : TypeId) : Except Fault (List TypeId) :=
  return match ← s.shape t with
    | .applied _ args => args
    | _ => []

def traitsOf (s : Store) (shape : Shape) : Except Fault Traits :=
  shape.parts.foldlM (fun acc part => return acc.join (← s.traits part).inherited)
    (.ofKind shape.kind)

def push (s : Store) (e : Entry) : Store :=
  ⟨s.entries.push e, s.directory.insert e.shape ⟨s.size⟩⟩

def new : Store :=
  [Shape.unknown, .all, .empty].foldl (fun s shape => s.push ⟨shape, .ofKind shape.kind⟩) ⟨#[], ∅⟩

instance : Inhabited Store := ⟨new⟩

end Store

/-- A step that may add types to a store. What it has added outlives its failure. -/
abbrev StoreM := EStateM Fault Store

namespace StoreM

def ask {α : Type} (question : Store → Except Fault α) : StoreM α := fun s =>
  match question s with
  | .ok a => .ok a s
  | .error f => .error f s

end StoreM

namespace Store

/-- The handle of `shape`, which enters the store if it is new. The traits come first, so a handle
that leads nowhere keeps the shape out. -/
def intern (shape : Shape) : StoreM TypeId := fun s =>
  match s.directory[shape]? with
  | some t => .ok t s
  | none =>
    if s.size < capacity then
      match s.traitsOf shape with
      | .ok traits => .ok ⟨s.size⟩ (s.push ⟨shape, traits⟩)
      | .error f => .error f s
    else .error .storeFull s

end Store

end TypeCalculus
