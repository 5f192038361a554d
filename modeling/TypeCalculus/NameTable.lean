import Std.Data.TreeMap
import TypeCalculus.Operator
import TypeCalculus.Name

/-!
The table between texts and names. A text is given the next free slot of its shard when it is
first seen and keeps that name for good. Every table knows the empty text and the spelling of each
operator.
-/

namespace TypeCalculus

structure Spread where
  shardOf : String → Fin Name.shards
  shardOf_empty : shardOf "" = 0

/-- The sum of the scalar values of a text, up to multiples of the number of shards. -/
def scalarShard (text : String) : Fin Name.shards :=
  ⟨text.toList.foldl (fun sum c => sum + c.toNat) 0 % Name.shards, Nat.mod_lt _ (by decide)⟩

theorem scalarShard_empty : scalarShard "" = 0 := by decide

def Spread.byScalars : Spread := ⟨scalarShard, scalarShard_empty⟩

structure ShardFull where
  shard : Nat
  count : Nat
  deriving DecidableEq, Repr

def ShardFull.message (e : ShardFull) : String :=
  s!"name shard {e.shard} is full after {e.count} names (limit {Name.slots - 1})"

/-- One shard: the slot of each of its texts, and the text of each slot that is taken. -/
structure NameTable.Shard where
  index : Std.TreeMap String (Fin Name.slots)
  texts : Array String

namespace NameTable.Shard

def empty : Shard := ⟨∅, #[]⟩

def find? (s : Shard) (text : String) : Option (Fin Name.slots) := s.index[text]?

/-- Puts a text into the next slot. `shard` is the number of this shard. -/
def push (s : Shard) (shard : Nat) (text : String) : Except ShardFull (Fin Name.slots × Shard) :=
  if h : s.texts.size < Name.slots then
    let slot : Fin Name.slots := ⟨s.texts.size, h⟩
    .ok (slot, ⟨s.index.insert text slot, s.texts.push text⟩)
  else .error ⟨shard, s.texts.size⟩

end NameTable.Shard

structure NameTable where
  spread : Spread
  shards : Vector NameTable.Shard Name.shards
  /-- How many texts have been put into shards. -/
  size : Nat

namespace NameTable

def blank (spread : Spread) : NameTable := ⟨spread, Vector.replicate Name.shards .empty, 0⟩

def get? (t : NameTable) (text : String) : Option Name :=
  let shard := t.spread.shardOf text
  ((t.shards.get shard).find? text).map fun slot => ⟨shard, slot⟩

def text? (t : NameTable) (n : Name) : Option String := (t.shards.get n.shard).texts[n.slot.val]?

def isEmpty (t : NameTable) : Bool := t.size ≤ 1

/-- The table with one text more, which `held` has in the place of an earlier shard. -/
def put (t : NameTable) (shard : Fin Name.shards) (held : Shard) : NameTable :=
  { t with shards := t.shards.set shard held, size := t.size + 1 }

/-- The name of `text`, which enters the table if it is new. -/
def intern (t : NameTable) (text : String) : Except ShardFull (Name × NameTable) :=
  let shard := t.spread.shardOf text
  match (t.shards.get shard).find? text with
  | some slot => .ok (⟨shard, slot⟩, t)
  | none =>
    match (t.shards.get shard).push shard text with
    | .ok (slot, held) => .ok (⟨shard, slot⟩, t.put shard held)
    | .error e => .error e

/-- The table after `texts` were interned in turn; a text whose shard is full is passed over. -/
def addAll (t : NameTable) : List String → NameTable
  | [] => t
  | text :: texts =>
    match t.intern text with
    | .ok (_, t') => t'.addAll texts
    | .error _ => t.addAll texts

/-- A new table, with the empty text first and the operators after it. -/
def new (spread : Spread) : NameTable :=
  (blank spread).addAll ("" :: Operator.vocabulary.map (·.spelling))

end NameTable

end TypeCalculus
