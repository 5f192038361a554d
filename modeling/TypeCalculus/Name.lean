/-!
Names stand for texts. A name is a shard and a slot in that shard; its number packs the two, so
names are ordered by shard first.
-/

namespace TypeCalculus

abbrev Name.slots : Nat := 0x10000000

abbrev Name.shards : Nat := 16

@[ext] structure Name where
  shard : Fin Name.shards
  slot : Fin Name.slots
  deriving DecidableEq, Repr

namespace Name

-- Shards and slots are written as literals. What makes the number of them nonzero is named here, so
-- that a literal is the same term wherever it stands.
instance : @NeZero Nat Zero.ofOfNat0 shards := ⟨by decide⟩

instance : @NeZero Nat Zero.ofOfNat0 slots := ⟨by decide⟩

/-- The first slot of the first shard, which holds the empty text. -/
def empty : Name := ⟨0, 0⟩

instance : Inhabited Name := ⟨empty⟩

/-- The number of a name: the shard in the upper four bits of a 32-bit word, the slot below. -/
def raw (n : Name) : Nat := n.shard * slots + n.slot

def ofRaw (raw : Nat) : Name :=
  ⟨⟨raw / slots % shards, Nat.mod_lt _ (by decide)⟩, ⟨raw % slots, Nat.mod_lt _ (by decide)⟩⟩

def isEmpty (n : Name) : Bool := n = empty

instance : Ord Name := ⟨compareLex (compareOn shard) (compareOn slot)⟩

instance : LT Name := ⟨fun a b => a.raw < b.raw⟩

instance (a b : Name) : Decidable (a < b) := inferInstanceAs (Decidable (a.raw < b.raw))

def debugText (n : Name) : String := s!"Name({n.shard.val}:{n.slot.val})"

theorem raw_lt (n : Name) : n.raw < 0x100000000 := by
  have := n.shard.isLt
  have := n.slot.isLt
  simp only [raw, slots, shards] at *
  omega

@[simp] theorem ofRaw_raw (n : Name) : ofRaw n.raw = n := by
  obtain ⟨⟨a, ha⟩, ⟨b, hb⟩⟩ := n
  have ha : a < 16 := ha
  have hb : b < 0x10000000 := hb
  simp only [ofRaw, raw, slots, shards, Name.mk.injEq, Fin.mk.injEq]
  omega

theorem raw_ofRaw {r : Nat} (h : r < 0x100000000) : (ofRaw r).raw = r := by
  simp only [ofRaw, raw, slots, shards]
  omega

theorem raw_injective {a b : Name} (h : a.raw = b.raw) : a = b := by
  rw [← ofRaw_raw a, h, ofRaw_raw]

instance : Std.TransOrd Name :=
  inferInstanceAs (Std.TransCmp (compareLex (compareOn shard) (compareOn slot)))

instance : Std.LawfulEqOrd Name where
  eq_of_compare {a b} h := by
    obtain ⟨h₁, h₂⟩ := compareLex_eq_eq.1 h
    cases a
    cases b
    cases Std.LawfulEqOrd.eq_of_compare h₁
    cases Std.LawfulEqOrd.eq_of_compare h₂
    rfl

end Name

end TypeCalculus
