/-!
Handles of stored types. Three places are the same in every store; all others are given out as
types are made.
-/

namespace TypeCalculus

/-- The place of a type in a store. -/
@[ext] structure TypeId where
  index : Nat
  deriving DecidableEq, Repr

namespace TypeId

def unknown : TypeId := ⟨0⟩

def all : TypeId := ⟨1⟩

def empty : TypeId := ⟨2⟩

/-- The places taken by `?`, `*` and the empty type in every store. -/
abbrev sentinels : Nat := 3

def isSentinel (t : TypeId) : Bool := t.index < sentinels

def isUnknown (t : TypeId) : Bool := t = unknown

instance : Inhabited TypeId := ⟨unknown⟩

instance : Ord TypeId := ⟨compareOn index⟩

instance : LT TypeId := ⟨fun a b => a.index < b.index⟩

instance (a b : TypeId) : Decidable (a < b) := inferInstanceAs (Decidable (a.index < b.index))

instance : Std.TransOrd TypeId := inferInstanceAs (Std.TransCmp (compareOn index))

instance : Std.LawfulEqOrd TypeId where
  eq_of_compare h := TypeId.ext (Nat.compare_eq_eq.1 h)

theorem compare_eq_lt {a b : TypeId} : compare a b = .lt ↔ a < b := Nat.compare_eq_lt

def debugText (t : TypeId) : String :=
  if t = unknown then "Idx::UNKNOWN"
  else if t = all then "Idx::ALL"
  else if t = empty then "Idx::NO_TYPE"
  else s!"Idx({t.index})"

@[simp] theorem isUnknown_iff {t : TypeId} : t.isUnknown = true ↔ t = unknown := by
  simp [isUnknown]

@[simp] theorem isSentinel_iff {t : TypeId} :
    t.isSentinel = true ↔ t = unknown ∨ t = all ∨ t = empty := by
  obtain ⟨i⟩ := t
  simp only [isSentinel, sentinels, unknown, all, empty, TypeId.mk.injEq, decide_eq_true_eq]
  omega

end TypeId

end TypeCalculus
