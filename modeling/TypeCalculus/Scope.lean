import Std.Data.TreeMap
import TypeCalculus.Name
import TypeCalculus.TypeId

/-!
Scopes bind type variables. A scope is a chain of levels; the innermost level that binds a name
decides, and within a level the last binding does.
-/

namespace TypeCalculus

abbrev Level := Std.TreeMap Name TypeId

def Level.ofBindings (bindings : List (Name × TypeId)) : Level :=
  bindings.foldl (fun level (name, t) => level.insert name t) ∅

theorem Level.getElem?_ofBindings_concat {bindings : List (Name × TypeId)} {name other : Name}
    {t : TypeId} : (Level.ofBindings (bindings ++ [(name, t)]))[other]? =
      if name = other then some t else (Level.ofBindings bindings)[other]? := by
  simp [Level.ofBindings, List.foldl_append, Std.TreeMap.getElem?_insert]

structure Scope where
  inner : Level
  outer : List Level

namespace Scope

def levels (scope : Scope) : List Level := scope.inner :: scope.outer

def ofBindings (bindings : List (Name × TypeId)) : Scope := ⟨.ofBindings bindings, []⟩

def empty : Scope := ofBindings []

instance : Inhabited Scope := ⟨empty⟩

/-- Binds parameters to arguments in order, as far as both go. -/
def ofCallSite (params : List Name) (args : List TypeId) : Scope := ofBindings (params.zip args)

def extend (scope : Scope) (bindings : List (Name × TypeId)) : Scope :=
  ⟨.ofBindings bindings, scope.levels⟩

def lookup? (scope : Scope) (name : Name) : Option TypeId :=
  scope.levels.findSome? fun level => level[name]?

def contains (scope : Scope) (name : Name) : Bool := (scope.lookup? name).isSome

theorem lookup?_ofBindings (bindings : List (Name × TypeId)) (name : Name) :
    (ofBindings bindings).lookup? name = (Level.ofBindings bindings)[name]? := by
  simp [lookup?, levels, ofBindings]

theorem lookup?_extend {scope : Scope} {bindings : List (Name × TypeId)} {name : Name} :
    (scope.extend bindings).lookup? name =
      (Level.ofBindings bindings)[name]?.or (scope.lookup? name) := by
  simp only [lookup?, levels, extend, List.findSome?_cons]
  cases (Level.ofBindings bindings)[name]? <;> rfl

theorem lookup?_extend_single (scope : Scope) (param name : Name) (t : TypeId) :
    (scope.extend [(param, t)]).lookup? name =
      if param = name then some t else scope.lookup? name := by
  have hlevel : (Level.ofBindings [(param, t)])[name]? = if param = name then some t else none := by
    simpa [Level.ofBindings] using @Level.getElem?_ofBindings_concat [] param name t
  rw [lookup?_extend, hlevel]
  split <;> rfl

theorem forall_lookup?_extend_single {K : TypeId → Prop} {scope : Scope}
    (h : ∀ name t, scope.lookup? name = some t → K t) {param : Name} {u : TypeId} (hu : K u) :
    ∀ name t, (scope.extend [(param, u)]).lookup? name = some t → K t := by
  intro name t ht
  rw [lookup?_extend_single] at ht
  split at ht
  · cases ht
    exact hu
  · exact h name t ht

def localSize (scope : Scope) : Nat := scope.inner.size

def depth (scope : Scope) : Nat := scope.levels.length

def isEmpty (scope : Scope) : Bool := scope.levels.all (·.isEmpty)

def namesByLevel (scope : Scope) : List (List Name) := scope.levels.map (·.keys)

/-- All bound names, from the inside out; a name is listed once for each level that binds it. -/
def names (scope : Scope) : List Name := scope.namesByLevel.flatten

end Scope

end TypeCalculus
