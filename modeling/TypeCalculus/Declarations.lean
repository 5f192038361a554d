import TypeCalculus.Store.Build

/-!
The types that are declared under a name. Declaring a name again replaces what it stood for.
-/

namespace TypeCalculus

structure Declarations where
  types : Std.TreeMap Name TypeId

namespace Declarations

def empty : Declarations := ⟨∅⟩

instance : Inhabited Declarations := ⟨empty⟩

def size (d : Declarations) : Nat := d.types.size

def isEmpty (d : Declarations) : Bool := d.types.isEmpty

def resolve? (d : Declarations) (name : Name) : Option TypeId := d.types[name]?

def contains (d : Declarations) (name : Name) : Bool := d.types.contains name

def declare (d : Declarations) (name : Name) (t : TypeId) : Declarations :=
  ⟨d.types.insert name t⟩

theorem resolve?_declare {d : Declarations} {name other : Name} {t : TypeId} :
    (d.declare name t).resolve? other = if name = other then some t else d.resolve? other := by
  simp [resolve?, declare, Std.TreeMap.getElem?_insert]

/-- Declares under `name` the nominal type of that name. -/
def declareNamed (d : Declarations) (name : Name) : StoreM (TypeId × Declarations) := do
  let t ← Store.named name
  return (t, d.declare name t)

def builtins : List String :=
  ["Object", "Array", "Function", "string", "number", "boolean", "null", "undefined"]

/-- Declarations of the builtin types alone, each of them interned and stored in turn. -/
def ofBuiltins (names : NameTable) : StoreM (Declarations × NameTable) :=
  builtins.foldlM
    (fun (d, names) text => do
      let (name, names) ← StoreM.ask fun _ => (names.intern text).mapError .shardFull
      let (_, d) ← d.declareNamed name
      return (d, names))
    (empty, names)

end Declarations

end TypeCalculus
