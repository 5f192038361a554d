import TypeCalculus.Proofs.Evaluation.Defects
import TypeCalculus.Proofs.Expression.Requests

/-!
An arena as a store of cells. What a node asks for in its position depends only on the cells that are
looked at to find it out. As the arena grows, no cell that holds anything changes.
-/

namespace TypeCalculus

theorem bind_congr_of_ok {α β : Type} {x : Except Abort α} {f g : α → Except Abort β}
    (h : ∀ a, x = .ok a → f a = g a) : (x >>= f) = (x >>= g) := by
  cases x with
  | ok a => exact h a rfl
  | error e => rfl

/-- What an arena holds: its nodes, and the operand lists of its calls. -/
inductive Arena.Cell where
  | node (id : NodeId)
  | operands (range : OperandRange)

namespace Arena

/-- Both arenas have the same in this cell, or both have nothing there. -/
def SameAt (a a' : Arena) : Cell → Prop
  | .node id => a'.node id = a.node id
  | .operands range => a'.slice range = a.slice range

/-- There is nothing in this cell. -/
def Lacks (a : Arena) : Cell → Prop
  | .node id => ∃ f, a.node id = .error f
  | .operands range => ∃ f, a.slice range = .error f

/-- The arena may have got further nodes and operand lists since. -/
inductive Grown (a : Arena) : Arena → Prop where
  | refl : Grown a a
  | add {b c node id} : Grown a b → b.add node = .ok (id, c) → Grown a c
  | addOperands {b c ids range} : Grown a b → b.addOperands ids = .ok (range, c) → Grown a c

section Grown

variable {a b c : Arena} {cell : Cell}

theorem SameAt.trans (h : a.SameAt b cell) (h' : b.SameAt c cell) : a.SameAt c cell := by
  cases cell with
  | node id => exact Eq.trans h' h
  | operands range => exact Eq.trans h' h

theorem SameAt.lacks_iff (h : a.SameAt b cell) : b.Lacks cell ↔ a.Lacks cell := by
  cases cell with
  | node id =>
    have hnode : b.node id = a.node id := h
    rw [Lacks, Lacks, hnode]
  | operands range =>
    have hslice : b.slice range = a.slice range := h
    rw [Lacks, Lacks, hslice]

theorem sameAt_of_add {node : Node} {id : NodeId} (h : a.add node = .ok (id, b))
    (hcell : ¬a.Lacks cell) : a.SameAt b cell := by
  obtain ⟨-, -, rfl⟩ := add_eq_ok_iff.1 h
  cases cell with
  | operands range => rfl
  | node id =>
    by_cases hid : id.index < a.nodes.size
    · change Arena.node _ id = Arena.node _ id
      unfold Arena.node
      rw [Array.getElem?_push_lt hid, Array.getElem?_eq_getElem hid]
    · refine absurd ⟨.danglingNode id, ?_⟩ hcell
      unfold Arena.node
      rw [Array.getElem?_eq_none (Nat.not_lt.1 hid)]

theorem sameAt_of_addOperands {ids : List NodeId} {range : OperandRange}
    (h : a.addOperands ids = .ok (range, b)) (hcell : ¬a.Lacks cell) : a.SameAt b cell := by
  obtain ⟨-, -, -, rfl⟩ := addOperands_eq_ok_iff.1 h
  cases cell with
  | node id => rfl
  | operands range =>
    by_cases hrange : range.stop ≤ a.operands.size
    · have hlonger : range.stop ≤ (a.operands ++ ids.toArray).size := by
        rw [Array.size_append]
        exact Nat.le_add_right_of_le hrange
      have hprefix : (a.operands ++ ids.toArray).extract range.start range.stop =
          a.operands.extract range.start range.stop := by
        simp [Array.extract_append, hrange]
      change slice _ range = slice _ range
      unfold slice
      rw [if_pos hrange, if_pos hlonger, hprefix]
    · exact absurd ⟨.danglingOperands range, if_neg hrange⟩ hcell

/-- What an arena holds stays where it is. -/
theorem Grown.sameAt (h : a.Grown b) (hcell : ¬a.Lacks cell) : a.SameAt b cell := by
  induction h with
  | refl => cases cell <;> rfl
  | add _ hadd ih => exact ih.trans (sameAt_of_add hadd (mt ih.lacks_iff.1 hcell))
  | addOperands _ hadd ih => exact ih.trans (sameAt_of_addOperands hadd (mt ih.lacks_iff.1 hcell))

theorem Grown.store {request : Request} {range : OperandRange} (h : a.Grown b)
    (hstore : b.store request = .ok (range, c)) : a.Grown c := by
  rcases store_ok_cases hstore with ⟨rfl, -⟩ | hadd
  · exact h
  · exact h.addOperands hadd

/-- Whether a request is served or refused, the arena only grows. -/
theorem Grown.make {request : Request} (h : a.Grown b)
    (hmake : finalState (request.make b) = c) : a.Grown c := by
  subst hmake
  cases hmake : request.make b with
  | ok id c =>
    obtain ⟨range, b', hstore, hadd⟩ := make_eq_ok_iff.1 hmake
    exact (h.store hstore).add hadd
  | error f c =>
    rcases make_eq_error_iff.1 hmake with ⟨-, rfl⟩ | ⟨range, hstore, -⟩
    · exact h
    · exact h.store hstore

theorem Grown.trans (h : a.Grown b) (h' : b.Grown c) : a.Grown c := by
  induction h' with
  | refl => exact h
  | add _ hadd ih => exact ih.add hadd
  | addOperands _ hadd ih => exact ih.addOperands hadd

theorem Grown.size_le (h : a.Grown b) :
    a.size ≤ b.size ∧ a.operands.size ≤ b.operands.size := by
  induction h with
  | refl => exact ⟨Nat.le_refl _, Nat.le_refl _⟩
  | add _ hadd ih =>
    obtain ⟨-, -, rfl⟩ := add_eq_ok_iff.1 hadd
    simp only [size, Array.size_push] at ih ⊢
    exact ⟨Nat.le_succ_of_le ih.1, ih.2⟩
  | addOperands _ hadd ih =>
    obtain ⟨-, -, -, rfl⟩ := addOperands_eq_ok_iff.1 hadd
    rw [Array.size_append]
    exact ⟨ih.1, Nat.le_add_right_of_le ih.2⟩

end Grown

/-- What is read of the arena to see what a node asks for in its position: the node; the operands, if
the node calls an operator that belongs there; and the literal or the function among them, if their
number is right. -/
inductive Looks (a : Arena) (names : NameTable) (place : Position) (id : NodeId) : Cell → Prop where
  | node : Looks a names place id (.node id)
  | operands {callee range op} : a.node id = .ok (.call callee range) →
      names.operator callee = .ok op → op.position = place → Looks a names place id (.operands range)
  | demanded {op operands i expected operand} : a.Calls names id (Operator.spelling op) operands →
      op.position = place → op.arity.accepts operands.length = true →
      op.demand? = some (i + 1, expected) → operands[i]? = some operand →
      Looks a names place id (.node operand)

variable {a a' : Arena} {names : NameTable} {id : NodeId}

theorem operand_congr {α : Type} (h : a'.node id = a.node id) (op : TypeOperator) (place : Nat)
    (expected : NodeKind) (view : Node → Option α) :
    a'.operand op place expected view id = a.operand op place expected view id := by
  rw [operand, operand, read, read, h]

theorem guard_congr {α : Type} {op : Operator} {operands : List NodeId}
    {read read' : List NodeId → Except Abort α}
    (h : op.arity.accepts operands.length = true → read' operands = read operands) :
    op.guard operands read' = op.guard operands read := by
  unfold Operator.guard
  split
  · rename_i haccepts
    exact h haccepts
  · rfl

theorem ofCall_congr {op : TypeOperator} {operands : List NodeId}
    (h : (Operator.type op).arity.accepts operands.length = true → ∀ {i expected operand},
      (Operator.type op).demand? = some (i + 1, expected) → operands[i]? = some operand →
      a'.node operand = a.node operand) :
    Operation.ofCall a' op operands = Operation.ofCall a op operands := by
  have hguard (b : Arena) := Operation.guard_ofPlaces (.danglingOperands .empty) b op operands
  rw [← hguard, ← hguard]
  refine guard_congr fun haccepts => ?_
  cases op with
  | union | none | all | unknown | cond | rawTypeOf => rfl
  | type =>
    refine bind_congr_of_ok fun literal hl => ?_
    rw [operand_congr (h haccepts rfl (operandAt_eq_ok_iff.1 hl))]
  | mapUnion =>
    refine bind_congr_of_ok fun function hf => ?_
    rw [operand_congr (h haccepts rfl (operandAt_eq_ok_iff.1 hf))]
  | templateTypeOf =>
    refine bind_congr_of_ok fun literal hl => ?_
    rw [operand_congr (h haccepts rfl (operandAt_eq_ok_iff.1 hl))]

theorem operation_congr (h : ∀ cell, a.Looks names .type id cell → a.SameAt a' cell) :
    a'.operation names id = a.operation names id := by
  have hnode : a'.node id = a.node id := h _ .node
  rw [operation, operation, read, read, hnode]
  refine bind_congr_of_ok fun node hn => ?_
  rw [mapError_eq_ok_iff] at hn
  cases node with
  | var | str | int | function => rfl
  | call callee range =>
    refine bind_congr_of_ok fun op hop => ?_
    cases op with
    | predicate op => rfl
    | type op =>
      have hslice : a'.slice range = a.slice range := h _ (.operands hn hop rfl)
      dsimp only
      rw [hslice]
      refine bind_congr_of_ok fun operands hs => ?_
      rw [mapError_eq_ok_iff] at hs
      have hc : a.Calls names id (Operator.type op).spelling operands :=
        ⟨callee, range, hn, NameTable.operator_eq_ok_iff.1 hop, hs⟩
      exact ofCall_congr fun haccepts _ _ _ hd ho => h _ (.demanded hc rfl haccepts hd ho)

theorem condition_congr (h : ∀ cell, a.Looks names .condition id cell → a.SameAt a' cell) :
    a'.condition names id = a.condition names id := by
  have hnode : a'.node id = a.node id := h _ .node
  rw [Arena.condition, Arena.condition, read, read, hnode]
  refine bind_congr_of_ok fun node hn => ?_
  rw [mapError_eq_ok_iff] at hn
  cases node with
  | var | str | int | function => rfl
  | call callee range =>
    refine bind_congr_of_ok fun op hop => ?_
    cases op with
    | type op => rfl
    | predicate op =>
      have hslice : a'.slice range = a.slice range := h _ (.operands hn hop rfl)
      dsimp only
      rw [hslice]

theorem operand_of_lacks {α : Type} {f : Fault} (h : a.node id = .error f) (op : TypeOperator)
    (place : Nat) (expected : NodeKind) (view : Node → Option α) :
    a.operand op place expected view id = .error (.fault f) := by
  rw [operand, read, h]
  rfl

theorem ofCall_of_lacks {op : TypeOperator} {operands : List NodeId} {i : Nat} {expected : NodeKind}
    {operand : NodeId} {f : Fault} (haccepts : (Operator.type op).arity.accepts operands.length = true)
    (hd : (Operator.type op).demand? = some (i + 1, expected)) (ho : operands[i]? = some operand)
    (h : a.node operand = .error f) : Operation.ofCall a op operands = .error (.fault f) := by
  have hplace (crash : Fault) : operandAt crash operands i = .ok operand := operandAt_eq_ok_iff.2 ho
  rw [← Operation.guard_ofPlaces (.danglingOperands .empty), Operator.guard, if_pos haccepts]
  cases op with
  | union | none | all | unknown | cond | rawTypeOf => cases hd
  | type =>
    cases hd
    rw [Operation.ofPlaces, hplace, ok_bind, operand_of_lacks h]
    rfl
  | mapUnion =>
    cases hd
    rw [Operation.ofPlaces, hplace, ok_bind, operand_of_lacks h]
    rfl
  | templateTypeOf =>
    cases hd
    rw [Operation.ofPlaces, hplace, ok_bind, operand_of_lacks h]
    rfl

/-- Without the cell there is no telling what the node asks for. -/
theorem Looks.refuses {place : Position} {cell : Cell} (h : a.Looks names place id cell)
    (hl : a.Lacks cell) : ∃ f, a.Refuses names place id (.fault f) := by
  cases h with
  | node =>
    obtain ⟨f, hf⟩ := hl
    refine ⟨f, ?_⟩
    cases place with
    | type =>
      change a.operation names id = _
      rw [operation, read, hf]
      rfl
    | condition =>
      change a.condition names id = _
      rw [Arena.condition, read, hf]
      rfl
  | @operands callee range op hn hop hplace =>
    obtain ⟨f, hf⟩ := hl
    refine ⟨f, ?_⟩
    subst hplace
    cases op with
    | type op =>
      change a.operation names id = _
      rw [operation_of_call hn hop, hf]
      rfl
    | predicate op =>
      change a.condition names id = _
      rw [condition_of_call hn hop, hf]
      rfl
  | @demanded op operands i expected operand hc hplace haccepts hd ho =>
    obtain ⟨f, hf⟩ := hl
    obtain ⟨callee, range, hn, htext, hs⟩ := hc
    have hop : names.operator callee = .ok op := NameTable.operator_eq_ok_iff.2 htext
    refine ⟨f, ?_⟩
    subst hplace
    cases op with
    | predicate op => cases hd
    | type op =>
      change a.operation names id = _
      rw [operation_of_call hn hop, hs]
      exact ofCall_of_lacks haccepts hd ho hf

theorem Looks.mem_of_calls {place : Position} {part : NodeId} {text : String} {operands : List NodeId}
    (h : a.Looks names place id (.node part)) (hc : a.Calls names id text operands) :
    part = id ∨ part ∈ operands := by
  obtain ⟨callee, range, hn, -, hs⟩ := hc
  cases h with
  | node => exact .inl rfl
  | demanded hc' _ _ _ ho =>
    obtain ⟨callee', range', hn', -, hs'⟩ := hc'
    cases hn.symm.trans hn'
    cases hs.symm.trans hs'
    exact .inr (List.mem_of_getElem? ho)

/-- An error other than that of a wrong operand is found out from the node and the number of its
operands. -/
theorem Looks.eq_of_refuses {place : Position} {part : NodeId} {e : EvalError}
    (h : a.Looks names place id (.node part)) (he : a.Refuses names place id (.error e))
    (hshape : ∀ op i expected, e ≠ .operandShape op i expected) : part = id := by
  cases h with
  | node => rfl
  | @demanded op operands i expected operand hc hplace haccepts hd ho =>
    obtain ⟨callee, range, hn, htext, hs⟩ := hc
    subst hplace
    cases op with
    | predicate op => cases hd
    | type op =>
      have hop : a.operation names id = Operation.ofCall a op operands := by
        rw [operation_of_call hn (NameTable.operator_eq_ok_iff.2 htext), hs]
        rfl
      have hread := hop.symm.trans he
      rw [← Operation.guard_ofPlaces (.danglingOperands .empty)] at hread
      rcases Operator.error_of_guard hread with ⟨-, hread⟩ | ⟨hrejects, -⟩
      · obtain ⟨_, _, _, _, -, -, -, -, rfl⟩ := Operation.error_of_ofPlaces hread
        exact absurd rfl (hshape _ _ _)
      · cases haccepts.symm.trans hrejects

end Arena

end TypeCalculus
