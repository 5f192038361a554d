import TypeCalculus.Store.Basic

/-!
The written form of a stored type: `?`, `*`, `None`, a name, `(A|B)` or `Base<A, B>`.
-/

namespace TypeCalculus

def writeSeparated {α : Type} (separator : String) (write : String → α → Except Fault String)
    (buffer : String) : List α → Except Fault String
  | [] => .ok buffer
  | [a] => write buffer a
  | a :: as => do writeSeparated separator write ((← write buffer a) ++ separator) as

namespace Store

/-- Writes a type behind `buffer`. The index of the type bounds the nesting that `fuel` has to
cover. Where it does not there is no text. -/
def writeWithin (s : Store) (names : NameTable) :
    Nat → String → TypeId → Except Fault String
  | 0, _, t => .error (.danglingType t)
  | fuel + 1, buffer, t => do
    match ← s.shape t with
    | .unknown => return buffer ++ "?"
    | .all => return buffer ++ "*"
    | .empty => return buffer ++ "None"
    | .named name =>
      match names.text? name with
      | some text => return buffer ++ text
      | none => throw (.foreignName name)
    | .union members =>
      return (← writeSeparated "|" (writeWithin s names fuel) (buffer ++ "(") members) ++ ")"
    | .applied base args =>
      let buffer ← writeWithin s names fuel buffer base
      return (← writeSeparated ", " (writeWithin s names fuel) (buffer ++ "<") args) ++ ">"

def write (s : Store) (names : NameTable) (buffer : String) (t : TypeId) : Except Fault String :=
  s.writeWithin names (t.index + 1) buffer t

def text (s : Store) (names : NameTable) (t : TypeId) : Except Fault String :=
  s.write names "" t

end Store

end TypeCalculus
