import Mathlib.Data.Finset.Card
import Mathlib.Data.Finset.Range
import Mathlib.Logic.Relation
import TypeCalculus.Proofs.Evaluation.Cells
import TypeCalculus.Proofs.Evaluation.Reach

/-!
How high expressions are. In an arena without cycles every node stands one level above the highest
of the nodes below it. Literals are not below anything, and of a function that is mapped it is the
body that is. Where nodes refer to earlier nodes only, no node is higher than its place.
-/

namespace TypeCalculus

theorem foldr_max_le_iff {ns : List Nat} {n : Nat} : ns.foldr max 0 ≤ n ↔ ∀ m ∈ ns, m ≤ n := by
  induction ns with
  | nil => simp
  | cons m ns ih => rw [List.foldr_cons, Nat.max_le, ih, List.forall_mem_cons]

namespace Arena

/-- What a node refers to: the operands of a call, the body of a function. -/
def children (a : Arena) (id : NodeId) : List NodeId :=
  match a.node id with
  | .ok (.call _ range) => (a.slice range).toOption.getD []
  | .ok (.function _ body) => [body]
  | _ => []

def Refers (a : Arena) (id child : NodeId) : Prop := child ∈ a.children id

/-- No node refers to itself, be it by way of other nodes. -/
def Acyclic (a : Arena) : Prop := ∀ id, ¬Relation.TransGen a.Refers id id

/-- Nodes refer to earlier nodes only. -/
def Ascending (a : Arena) : Prop := ∀ id child, a.Refers id child → child.index < id.index

/-- The node whose height an operand that is a function has. -/
def mapped (a : Arena) (operand : NodeId) : NodeId :=
  match a.node operand with
  | .ok (.function _ body) => body
  | _ => operand

/-- What is one level below a call of the operator: not the name of a type nor the place of a template
argument, and of a function that is mapped the body. -/
def lower (a : Arena) (op : Operator) (operands : List NodeId) : List NodeId :=
  match op with
  | .type .type => operands.tail
  | .type .templateTypeOf => operands.eraseIdx 1
  | .type .mapUnion => operands.modify 1 a.mapped
  | _ => operands

def below (a : Arena) (names : NameTable) (id : NodeId) : List NodeId :=
  match a.node id with
  | .ok (.call callee range) =>
    let operands := (a.slice range).toOption.getD []
    match names.operator callee with
    | .ok op => a.lower op operands
    | .error _ => operands
  | _ => []

/-- The height of a node as far as it is within `fuel` levels. -/
def heightWithin (a : Arena) (names : NameTable) : Nat → NodeId → Nat
  | 0, _ => 0
  | fuel + 1, id => ((a.below names id).map (heightWithin a names fuel)).foldr max 0 + 1

/-- The height of a node. A path without cycles leaves the arena after as many nodes as there are. -/
def height (a : Arena) (names : NameTable) (id : NodeId) : Nat := a.heightWithin names (a.size + 1) id

section Paths

variable {a : Arena} {names : NameTable} {id child : NodeId}

theorem lt_size_of_refers (h : a.Refers id child) : id.index < a.size := by
  unfold Refers children at h
  split at h
  · rename_i hn
    exact lt_size_of_node hn
  · rename_i hn
    exact lt_size_of_node hn
  · cases h

theorem transGen_mapped {operand : NodeId} (h : a.Refers id operand) :
    Relation.TransGen a.Refers id (a.mapped operand) := by
  unfold mapped
  split
  · rename_i body hn
    have hbody : a.Refers operand body := by simp [Refers, children, hn]
    exact .tail (.single h) hbody
  · exact .single h

/-- What is below a node is what the node refers to, or what a function does that it refers to. -/
theorem transGen_of_mem_below (h : child ∈ a.below names id) :
    Relation.TransGen a.Refers id child := by
  unfold below at h
  split at h
  · rename_i callee range hn
    have hrefers : ∀ operand ∈ (a.slice range).toOption.getD [], a.Refers id operand := by
      simp [Refers, children, hn]
    generalize (a.slice range).toOption.getD [] = operands at h hrefers
    dsimp only at h
    split at h
    · unfold lower at h
      split at h
      · exact .single (hrefers child (List.mem_of_mem_tail h))
      · exact .single (hrefers child (List.mem_of_mem_eraseIdx h))
      · obtain ⟨i, hi⟩ := List.getElem?_of_mem h
        rw [List.getElem?_modify] at hi
        obtain ⟨operand, ho, rfl⟩ := Option.map_eq_some_iff.1 hi
        have hmem : operand ∈ operands := List.mem_of_getElem? ho
        split
        · exact transGen_mapped (hrefers operand hmem)
        · exact .single (hrefers operand hmem)
      · exact .single (hrefers child h)
    · exact .single (hrefers child h)
  · cases h

open Classical in
/-- The places of the nodes that can be come to from a node, its own among them. -/
noncomputable def reach (a : Arena) (id : NodeId) : Finset Nat :=
  (Finset.range a.size).filter fun i => Relation.ReflTransGen a.Refers id ⟨i⟩

theorem mem_reach_iff {i : Nat} :
    i ∈ a.reach id ↔ i < a.size ∧ Relation.ReflTransGen a.Refers id ⟨i⟩ := by
  simp [reach]

theorem card_reach_le : (a.reach id).card ≤ a.size := by
  have hsub : a.reach id ⊆ Finset.range a.size :=
    fun i hi => Finset.mem_range.2 (mem_reach_iff.1 hi).1
  have hcard := Finset.card_le_card hsub
  rwa [Finset.card_range] at hcard

theorem Acyclic.card_reach_lt (hacyclic : a.Acyclic) (h : Relation.TransGen a.Refers id child) :
    (a.reach child).card < (a.reach id).card := by
  have hid : id.index < a.size := by
    obtain ⟨next, hnext, -⟩ := Relation.TransGen.head'_iff.1 h
    exact lt_size_of_refers hnext
  have hsub : a.reach child ⊆ a.reach id := by
    intro i hi
    obtain ⟨hlt, hpath⟩ := mem_reach_iff.1 hi
    exact mem_reach_iff.2 ⟨hlt, h.to_reflTransGen.trans hpath⟩
  have hmem : id.index ∈ a.reach id := mem_reach_iff.2 ⟨hid, .refl⟩
  -- A way back from the child would close a cycle.
  have hnot : id.index ∉ a.reach child :=
    fun hback => hacyclic id (h.trans_left (mem_reach_iff.1 hback).2)
  exact Finset.card_lt_card ((Finset.ssubset_iff_of_subset hsub).2 ⟨id.index, hmem, hnot⟩)

/-- As the nodes that can be come to get fewer with each level, the fuel lasts. -/
theorem Acyclic.heightWithin_eq (hacyclic : a.Acyclic) {fuel : Nat}
    (hfuel : (a.reach id).card < fuel) : a.heightWithin names fuel id = a.height names id := by
  induction hn : (a.reach id).card using Nat.strongRecOn generalizing id fuel with
  | _ n ih =>
    subst hn
    obtain ⟨fuel, rfl⟩ := Nat.exists_eq_add_of_lt hfuel
    have hlevel : ∀ x ∈ a.below names id,
        a.heightWithin names ((a.reach id).card + fuel) x = a.heightWithin names a.size x := by
      intro x hx
      have hlt := hacyclic.card_reach_lt (transGen_of_mem_below hx)
      have hmore := ih _ hlt (Nat.lt_of_lt_of_le hlt (Nat.le_add_right _ fuel)) rfl
      have hjust := ih _ hlt (Nat.lt_of_lt_of_le hlt card_reach_le) rfl
      exact hmore.trans hjust.symm
    unfold height heightWithin
    rw [List.map_congr_left hlevel]

end Paths

section Heights

variable {a : Arena} {names : NameTable} {id : NodeId} {n : Nat}

/-- A node is one level higher than the highest of the nodes below it. -/
theorem Acyclic.height_eq (hacyclic : a.Acyclic) (names : NameTable) (id : NodeId) :
    a.height names id = ((a.below names id).map (a.height names)).foldr max 0 + 1 := by
  have hlevel : ∀ x ∈ a.below names id, a.heightWithin names a.size x = a.height names x := by
    intro x hx
    have hlt := hacyclic.card_reach_lt (transGen_of_mem_below hx)
    exact hacyclic.heightWithin_eq (Nat.lt_of_lt_of_le hlt card_reach_le)
  rw [← List.map_congr_left hlevel]
  rfl

theorem height_pos : 0 < a.height names id := Nat.succ_pos _

theorem Acyclic.height_le_succ_iff (hacyclic : a.Acyclic) :
    a.height names id ≤ n + 1 ↔ ∀ x ∈ a.below names id, a.height names x ≤ n := by
  rw [hacyclic.height_eq, Nat.succ_le_succ_iff, foldr_max_le_iff, List.forall_mem_map]

theorem Ascending.lt_of_transGen (hascending : a.Ascending) {child : NodeId}
    (h : Relation.TransGen a.Refers id child) : child.index < id.index := by
  induction h with
  | single h => exact hascending _ _ h
  | tail _ h ih => exact Nat.lt_trans (hascending _ _ h) ih

theorem Ascending.acyclic (hascending : a.Ascending) : a.Acyclic :=
  fun id h => Nat.lt_irrefl id.index (hascending.lt_of_transGen h)

theorem Ascending.height_le (hascending : a.Ascending) (names : NameTable) (id : NodeId) :
    a.height names id ≤ id.index + 1 := by
  obtain ⟨i⟩ := id
  induction i using Nat.strongRecOn with
  | _ i ih =>
    refine hascending.acyclic.height_le_succ_iff.2 fun x hx => ?_
    have hlt : x.index < i := hascending.lt_of_transGen (transGen_of_mem_below hx)
    exact (ih x.index hlt).trans hlt

end Heights

section Building

/-- Built node by node, each from nodes that are there already. -/
inductive Built : Arena → Prop where
  | empty : Built .empty
  | make {a b id} {request : Request} : Built a →
      (∀ child ∈ request.children, child.index < a.size) → request.make a = .ok id b → Built b

/-- The operands of each call are there, and they and the bodies of functions are earlier nodes. -/
structure Grounded (a : Arena) : Prop where
  operands : ∀ {id callee range}, a.node id = .ok (.call callee range) →
    ∃ operands, a.slice range = .ok operands ∧ ∀ operand ∈ operands, operand.index < id.index
  body : ∀ {id param body}, a.node id = .ok (.function param body) → body.index < id.index

variable {a b : Arena} {node : Node} {id : NodeId}

theorem Grounded.ascending (h : a.Grounded) : a.Ascending := by
  intro id child hchild
  unfold Refers children at hchild
  split at hchild
  · rename_i callee range hn
    obtain ⟨operands, hs, hlt⟩ := h.operands hn
    rw [hs] at hchild
    exact hlt child hchild
  · rename_i param body hn
    rw [List.mem_singleton.1 hchild]
    exact h.body hn
  · cases hchild

theorem node_add_cases (h : a.add node = .ok (id, b)) {id' : NodeId} {node' : Node}
    (hn : b.node id' = .ok node') : a.node id' = .ok node' ∨ id'.index = a.size ∧ node' = node := by
  obtain ⟨i⟩ := id'
  obtain ⟨-, -, rfl⟩ := add_eq_ok_iff.1 h
  simp only [Arena.node, Array.getElem?_push] at hn ⊢
  by_cases hi : i = a.nodes.size
  · rw [if_pos hi] at hn
    cases hn
    exact .inr ⟨hi, rfl⟩
  · rw [if_neg hi] at hn
    exact .inl hn

theorem node_of_grown {node : Node} (hgrown : a.Grown b) (h : a.node id = .ok node) :
    b.node id = .ok node := by
  have hcell : ¬a.Lacks (.node id) := by
    rintro ⟨f, hf⟩
    cases h.symm.trans hf
  have hsame : b.node id = a.node id := hgrown.sameAt hcell
  rw [hsame, h]

theorem slice_of_grown {range : OperandRange} {operands : List NodeId} (hgrown : a.Grown b)
    (h : a.slice range = .ok operands) : b.slice range = .ok operands := by
  have hcell : ¬a.Lacks (.operands range) := by
    rintro ⟨f, hf⟩
    cases h.symm.trans hf
  have hsame : b.slice range = a.slice range := hgrown.sameAt hcell
  rw [hsame, h]

theorem Grounded.add (h : a.Grounded) (hadd : a.add node = .ok (id, b))
    (hoperands : ∀ callee range, node = .call callee range → ∃ operands,
      b.slice range = .ok operands ∧ ∀ operand ∈ operands, operand.index < a.size)
    (hbody : ∀ param body, node = .function param body → body.index < a.size) : b.Grounded := by
  have hgrown : a.Grown b := .add .refl hadd
  constructor
  · intro id' callee range hn
    rcases node_add_cases hadd hn with hold | ⟨hid, hnew⟩
    · obtain ⟨operands, hs, hlt⟩ := h.operands hold
      exact ⟨operands, slice_of_grown hgrown hs, hlt⟩
    · rw [hid]
      exact hoperands callee range hnew.symm
  · intro id' param body hn
    rcases node_add_cases hadd hn with hold | ⟨hid, hnew⟩
    · exact h.body hold
    · rw [hid]
      exact hbody param body hnew.symm

theorem Grounded.store (h : a.Grounded) {request : Request} {range : OperandRange}
    (hstore : a.store request = .ok (range, b)) : b.Grounded := by
  have hgrown : a.Grown b := .store .refl hstore
  have hnode : ∀ id, b.node id = a.node id := fun id => by
    simp only [Arena.node, nodes_of_store hstore]
  constructor
  · intro id callee range hn
    rw [hnode] at hn
    obtain ⟨operands, hs, hlt⟩ := h.operands hn
    exact ⟨operands, slice_of_grown hgrown hs, hlt⟩
  · intro id param body hn
    rw [hnode] at hn
    exact h.body hn

theorem Grounded.make (h : a.Grounded) {request : Request}
    (hchildren : ∀ child ∈ request.children, child.index < a.size)
    (hmake : request.make a = .ok id b) : b.Grounded := by
  obtain ⟨range, a', hstore, hadd⟩ := make_eq_ok_iff.1 hmake
  have hslice : b.slice range = .ok request.operands :=
    slice_of_grown (.add .refl hadd) (slice_of_store hstore)
  rw [← size_of_store hstore] at hchildren
  refine (h.store hstore).add hadd ?_ ?_
  · intro callee range' hn
    obtain ⟨rfl, hrequest⟩ := Request.eq_call_of_node hn
    rw [hrequest] at hchildren
    exact ⟨_, hslice, hchildren⟩
  · intro param body hn
    rw [Request.eq_function_of_node hn] at hchildren
    exact hchildren body List.mem_cons_self

theorem Built.grounded (h : a.Built) : a.Grounded := by
  induction h with
  | empty => exact ⟨nofun, nofun⟩
  | make _ hchildren hmake ih => exact ih.make hchildren hmake

theorem Built.ascending (h : a.Built) : a.Ascending := h.grounded.ascending

end Building

end Arena

end TypeCalculus
