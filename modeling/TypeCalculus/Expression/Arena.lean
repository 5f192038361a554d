import TypeCalculus.Fault

/-!
An arena holds the nodes of expression trees, and the operands of all calls one list after the
other.
-/

namespace TypeCalculus

structure Arena where
  nodes : Array Node
  operands : Array NodeId
  deriving DecidableEq, Repr

namespace Arena

/-- Nodes are numbered by 32-bit words, and so are the places of operands. -/
abbrev capacity : Nat := 0x100000000

abbrev maxOperands : Nat := 0xFFFF

def empty : Arena := ⟨#[], #[]⟩

instance : Inhabited Arena := ⟨empty⟩

def size (a : Arena) : Nat := a.nodes.size

def isEmpty (a : Arena) : Bool := a.nodes.isEmpty

def node (a : Arena) (id : NodeId) : Except Fault Node :=
  match a.nodes[id.index]? with
  | some node => .ok node
  | none => .error (.danglingNode id)

/-- The operands in a range, which must end inside the list even when it is empty. -/
def slice (a : Arena) (r : OperandRange) : Except Fault (List NodeId) :=
  if r.stop ≤ a.operands.size then .ok (a.operands.extract r.start r.stop).toList
  else .error (.danglingOperands r)

def add (a : Arena) (node : Node) : Except Fault (NodeId × Arena) :=
  if a.size < capacity then .ok (⟨a.size⟩, { a with nodes := a.nodes.push node })
  else .error .nodesFull

def addOperands (a : Arena) (ids : List NodeId) : Except Fault (OperandRange × Arena) :=
  if capacity ≤ a.operands.size then .error .operandsFull
  else if maxOperands < ids.length then .error .tooManyOperands
  else .ok (⟨a.operands.size, ids.length⟩, { a with operands := a.operands ++ ids.toArray })

theorem node_eq_ok_iff {a : Arena} {id : NodeId} {node : Node} :
    a.node id = .ok node ↔ a.nodes[id.index]? = some node := by
  unfold Arena.node
  cases a.nodes[id.index]? <;> simp

theorem lt_size_of_node {a : Arena} {id : NodeId} {node : Node} (h : a.node id = .ok node) :
    id.index < a.size :=
  (Array.getElem?_eq_some_iff.1 (node_eq_ok_iff.1 h)).choose

theorem add_eq_ok_iff {a a' : Arena} {node : Node} {id : NodeId} : a.add node = .ok (id, a') ↔
    a.size < capacity ∧ id = ⟨a.size⟩ ∧ a' = { a with nodes := a.nodes.push node } := by
  unfold add
  split
  · rename_i hroom
    simp [hroom, eq_comm]
  · rename_i hfull
    exact iff_of_false nofun fun h => hfull h.1

theorem addOperands_eq_ok_iff {a a' : Arena} {ids : List NodeId} {r : OperandRange} :
    a.addOperands ids = .ok (r, a') ↔ a.operands.size < capacity ∧ ids.length ≤ maxOperands ∧
      r = ⟨a.operands.size, ids.length⟩ ∧ a' = { a with operands := a.operands ++ ids.toArray } := by
  unfold addOperands
  split
  · rename_i hfull
    exact iff_of_false nofun fun h => Nat.not_lt.2 hfull h.1
  · rename_i hroom
    split
    · rename_i hmany
      exact iff_of_false nofun fun h => Nat.not_lt.2 h.2.1 hmany
    · rename_i hfew
      simp [Nat.not_le.1 hroom, Nat.not_lt.1 hfew, eq_comm]

theorem node_of_add {a a' : Arena} {node : Node} {id : NodeId} (h : a.add node = .ok (id, a')) :
    a'.node id = .ok node := by
  obtain ⟨-, rfl, rfl⟩ := add_eq_ok_iff.1 h
  simp [Arena.node, size]

theorem slice_of_addOperands {a a' : Arena} {ids : List NodeId} {r : OperandRange}
    (h : a.addOperands ids = .ok (r, a')) : a'.slice r = .ok ids := by
  obtain ⟨-, -, rfl, rfl⟩ := addOperands_eq_ok_iff.1 h
  simp [slice, OperandRange.stop]

end Arena

/-- A step that may add to an arena. What it has added outlives its failure. -/
abbrev ArenaM := EStateM Fault Arena

namespace ArenaM

/-- Adds one thing to the arena, or nothing at all. -/
def grow {α : Type} (add : Arena → Except Fault (α × Arena)) : ArenaM α := fun a =>
  match add a with
  | .ok (given, a) => .ok given a
  | .error f => .error f a

theorem grow_eq_ok_iff {α : Type} {add : Arena → Except Fault (α × Arena)} {a b : Arena} {given : α} :
    grow add a = .ok given b ↔ add a = .ok (given, b) := by
  unfold grow
  cases add a <;> simp [Prod.ext_iff]

theorem grow_eq_error_iff {α : Type} {add : Arena → Except Fault (α × Arena)} {a b : Arena}
    {f : Fault} : grow add a = .error f b ↔ add a = .error f ∧ b = a := by
  unfold grow
  cases add a <;> simp [eq_comm]

end ArenaM

namespace Arena

/-- What can be asked of an arena: a node of one of the kinds, and for a call also to store its
operands. -/
inductive Request where
  | var (name : Name)
  | str (text : Name)
  | int (value : Nat)
  | call (callee : Name) (operands : List NodeId)
  | function (param : Name) (body : NodeId)
  deriving DecidableEq, Repr

/-- Makes the node that is asked for. The operands of a call are stored first, and stay if there is no
room for the node. -/
def Request.make : Request → ArenaM NodeId
  | var name => ArenaM.grow (·.add (.var name))
  | str text => ArenaM.grow (·.add (.str text))
  | int value => ArenaM.grow (·.add (.int value))
  | call callee operands => do
    let range ← ArenaM.grow (·.addOperands operands)
    ArenaM.grow (·.add (.call callee range))
  | function param body => ArenaM.grow (·.add (.function param body))

end Arena

end TypeCalculus
