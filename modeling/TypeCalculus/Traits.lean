import TypeCalculus.Shape

/-!
The traits of a type: which kind it is of, and whether `?` occurs in it. They are computed once,
from the traits of its parts.
-/

namespace TypeCalculus

structure Traits where
  isSentinel : Bool
  isNamed : Bool
  isUnion : Bool
  isApplied : Bool
  /-- The type is `?` or has `?` somewhere inside. -/
  mentionsUnknown : Bool
  deriving DecidableEq, Repr

namespace Traits

def none : Traits := ⟨false, false, false, false, false⟩

def join (a b : Traits) : Traits :=
  ⟨a.isSentinel || b.isSentinel, a.isNamed || b.isNamed, a.isUnion || b.isUnion,
    a.isApplied || b.isApplied, a.mentionsUnknown || b.mentionsUnknown⟩

/-- What a compound type takes over from one of its parts. -/
def inherited (t : Traits) : Traits := { none with mentionsUnknown := t.mentionsUnknown }

theorem join_inherited (a t : Traits) :
    a.join t.inherited = { a with mentionsUnknown := a.mentionsUnknown || t.mentionsUnknown } := by
  simp [join, inherited, none]

def ofKind : Kind → Traits
  | .unknown => { none with isSentinel := true, mentionsUnknown := true }
  | .all | .empty => { none with isSentinel := true }
  | .named => { none with isNamed := true }
  | .union => { none with isUnion := true }
  | .applied => { none with isApplied := true }

/-- The traits in a bit set; bits from the sixth on mean nothing. -/
def ofBits (bits : Nat) : Traits :=
  ⟨bits.testBit 0, bits.testBit 1, bits.testBit 2, bits.testBit 3, bits.testBit 4⟩

def toBits (t : Traits) : Nat :=
  t.isSentinel.toNat + 2 * t.isNamed.toNat + 4 * t.isUnion.toNat + 8 * t.isApplied.toNat +
    16 * t.mentionsUnknown.toNat

@[simp] theorem ofBits_toBits (t : Traits) : ofBits t.toBits = t := by
  obtain ⟨a, b, c, d, e⟩ := t
  cases a <;> cases b <;> cases c <;> cases d <;> cases e <;> decide

end Traits

end TypeCalculus
