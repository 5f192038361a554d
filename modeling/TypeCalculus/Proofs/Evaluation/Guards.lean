import TypeCalculus.Evaluation.Eval

/-!
Evaluation as it is guarded. Here the operands of a call are taken by their places once the table of
arities lets the call pass, and levels are counted in a word of limited size. A place that is not
there and a count that leaves the word end in a crash. As neither happens, this is the evaluation
that reads its operands by their shape and counts the room that is left.
-/

namespace TypeCalculus

/-- The operand at place `i`, counted from 0. -/
def operandAt (crash : Fault) (operands : List NodeId) (i : Nat) : Except Abort NodeId :=
  match operands[i]? with
  | some id => .ok id
  | none => .error (.fault crash)

/-- The operands from place `i` on. -/
def operandsFrom (crash : Fault) (operands : List NodeId) (i : Nat) : Except Abort (List NodeId) :=
  if i ≤ operands.length then .ok (operands.drop i) else .error (.fault crash)

/-- What a call of accepted arity asks for, its operands taken one by one. -/
def Operation.ofPlaces (crash : Fault) (a : Arena) (op : TypeOperator) (operands : List NodeId) :
    Except Abort Operation :=
  match op with
  | .type => do
    let name ← a.operand .type 1 .stringLiteral Node.text? (← operandAt crash operands 0)
    return .named name (← operandsFrom crash operands 1)
  | .union => return .union operands
  | .none => return .empty
  | .all => return .all
  | .unknown => return .unknown
  | .cond => do
    let test ← operandAt crash operands 0
    return .cond test (← operandAt crash operands 1) (← operandAt crash operands 2)
  | .mapUnion => do
    let (param, body) ← a.operand .mapUnion 2 .function Node.function?
      (← operandAt crash operands 1)
    return .mapUnion (← operandAt crash operands 0) param body
  | .rawTypeOf => return .rawTypeOf (← operandAt crash operands 0)
  | .templateTypeOf => do
    let place ← a.operand .templateTypeOf 2 .integerLiteral Node.value?
      (← operandAt crash operands 1)
    return .templateTypeOf (← operandAt crash operands 0) place

def Condition.ofPlaces (crash : Fault) (op : PredicateOperator) (operands : List NodeId) :
    Except Abort Condition :=
  match op with
  | .eq => return .eq (← operandAt crash operands 0) (← operandAt crash operands 1)
  | .sub => return .sub (← operandAt crash operands 0) (← operandAt crash operands 1)
  | .isTemplatized => return .isTemplatized (← operandAt crash operands 0)
  | .isUnknown => return .isUnknown (← operandAt crash operands 0)

/-- The table of arities comes before `read`. -/
def Operator.guard {α : Type} (op : Operator) (operands : List NodeId)
    (read : List NodeId → Except Abort α) : Except Abort α :=
  if op.arity.accepts operands.length then read operands
  else .error (.error (.wrongArity op op.arity operands.length))

/-- A call that the table lets pass has every operand that is taken from it. -/
theorem Operation.guard_ofPlaces (crash : Fault) (a : Arena) (op : TypeOperator)
    (operands : List NodeId) :
    (Operator.type op).guard operands (Operation.ofPlaces crash a op) =
      Operation.ofCall a op operands := by
  -- No place beyond the third is ever taken, so longer lists need no further cases.
  rcases operands with _ | ⟨x, _ | ⟨y, _ | ⟨z, _ | ⟨w, rest⟩⟩⟩⟩ <;> cases op <;> rfl

theorem Condition.guard_ofPlaces (crash : Fault) (op : PredicateOperator) (operands : List NodeId) :
    (Operator.predicate op).guard operands (Condition.ofPlaces crash op) =
      Condition.ofCall op operands := by
  rcases operands with _ | ⟨x, _ | ⟨y, _ | ⟨z, rest⟩⟩⟩ <;> cases op <;> rfl

namespace Arena

/-- The operator called and its operands, for an operator that belongs to the position. -/
def operationGuarded (crash : Fault) (a : Arena) (names : NameTable) (id : NodeId) :
    Except Abort Operation := do
  match ← a.read id with
  | .var name => return .var name
  | .call callee range =>
    match ← names.operator callee with
    | .type op =>
      (Operator.type op).guard (← (a.slice range).mapError .fault) (Operation.ofPlaces crash a op)
    | .predicate op => throw (.error (.misplaced (.predicate op) .type))
  | node => throw (.error (.unexpectedNode node.kind .type))

def conditionGuarded (crash : Fault) (a : Arena) (names : NameTable) (id : NodeId) :
    Except Abort Condition := do
  match ← a.read id with
  | .call callee range =>
    match ← names.operator callee with
    | .predicate op =>
      (Operator.predicate op).guard (← (a.slice range).mapError .fault)
        (Condition.ofPlaces crash op)
    | .type op => throw (.error (.misplaced (.type op) .condition))
  | node => throw (.error (.unexpectedNode node.kind .condition))

theorem operationGuarded_eq (crash : Fault) (a : Arena) (names : NameTable) (id : NodeId) :
    a.operationGuarded crash names id = a.operation names id := by
  refine bind_congr fun node => ?_
  cases node with
  | var | str | int | function => rfl
  | call callee range =>
    refine bind_congr fun op => ?_
    cases op with
    | type op => exact bind_congr fun operands => Operation.guard_ofPlaces crash a op operands
    | predicate op => rfl

theorem conditionGuarded_eq (crash : Fault) (a : Arena) (names : NameTable) (id : NodeId) :
    a.conditionGuarded crash names id = a.condition names id := by
  refine bind_congr fun node => ?_
  cases node with
  | var | str | int | function => rfl
  | call callee range =>
    refine bind_congr fun op => ?_
    cases op with
    | type op => rfl
    | predicate op => exact bind_congr fun operands => Condition.guard_ofPlaces crash op operands

end Arena

/-- Enters the level at `depth`, which is counted in words of the given size. -/
def DepthLimit.enter (word : Nat) (crash : Fault) (limit : DepthLimit) (depth : Nat) :
    Except Abort Nat :=
  match limit.descend depth with
  | .error e => .error (.error (.depthExceeded e.max))
  | .ok below => if below < word then .ok below else .error (.fault crash)

namespace DepthLimit

variable {word : Nat} {crash : Fault} {limit : DepthLimit} {depth below : Nat}

theorem room_of_enter (h : limit.enter word crash depth = .ok below) :
    limit.room depth = limit.room below + 1 := by
  unfold enter at h
  split at h
  · cases h
  · rename_i hd
    split at h
    · cases h
      exact room_of_descend hd
    · cases h

theorem enter_of_room_eq_zero (h : limit.room depth = 0) :
    limit.enter word crash depth = .error (.error (.depthExceeded limit.max)) := by
  rw [enter, descend_eq_error_iff.2 ⟨h, rfl⟩]

/-- No level that the limit allows is so deep that counting it leaves the word. -/
theorem exists_enter_of_room {room : Nat} (hword : limit.max < word)
    (h : limit.room depth = room + 1) : ∃ below, limit.enter word crash depth = .ok below := by
  have hlt : depth < limit.max := Nat.lt_of_sub_eq_succ h
  refine ⟨depth + 1, ?_⟩
  rw [enter, descend, if_pos hlt]
  exact if_pos (Nat.lt_of_le_of_lt hlt hword)

end DepthLimit

namespace Context

mutual

/-- The type of a node that stands at the given depth. -/
def typeFrom (cx : Context) (word : Nat) (crash : Fault) (depth : Nat) (scope : Scope)
    (id : NodeId) : Eval TypeId :=
  match _h : cx.limit.enter word crash depth with
  | .error e => throw e
  | .ok below => do
    let op ← Eval.ofExcept (cx.arena.operationGuarded crash cx.names id)
    op.eval (fun scope id => typeFrom cx word crash below scope id) cx.declared?
      (fun scope id => holdsFrom cx word crash below scope id) scope
termination_by cx.limit.room depth
decreasing_by
  all_goals
    have := DepthLimit.room_of_enter _h
    omega

def holdsFrom (cx : Context) (word : Nat) (crash : Fault) (depth : Nat) (scope : Scope)
    (id : NodeId) : Eval Bool :=
  match _h : cx.limit.enter word crash depth with
  | .error e => throw e
  | .ok below => do
    let condition ← Eval.ofExcept (cx.arena.conditionGuarded crash cx.names id)
    condition.eval (fun scope id => typeFrom cx word crash below scope id) scope
termination_by cx.limit.room depth
decreasing_by
  have := DepthLimit.room_of_enter _h
  omega

end

/-- The evaluation of an expression, its guards spelled out. -/
def evaluateGuarded (cx : Context) (word : Nat) (crash : Fault) (scope : Scope) (root : NodeId)
    (store : Store) : Except Abort Evaluation × Store :=
  match cx.typeFrom word crash 0 scope root ⟨store, []⟩ with
  | .ok type p => (.ok ⟨type, p.misses⟩, p.store)
  | .error e p => (.error e, p.store)

variable {cx : Context} {word : Nat}

theorem typeFrom_and_holdsFrom_eq (hword : cx.limit.max < word) (crash : Fault) {room depth : Nat}
    (hroom : cx.limit.room depth = room) :
    cx.typeFrom word crash depth = cx.typeAt room ∧
      cx.holdsFrom word crash depth = cx.holdsAt room := by
  induction room generalizing depth with
  | zero =>
    have hstop := @DepthLimit.enter_of_room_eq_zero word crash _ _ hroom
    constructor
    · funext scope id
      rw [typeFrom]
      split
      · rename_i he
        cases hstop.symm.trans he
        rfl
      · rename_i he
        cases hstop.symm.trans he
    · funext scope id
      rw [holdsFrom]
      split
      · rename_i he
        cases hstop.symm.trans he
        rfl
      · rename_i he
        cases hstop.symm.trans he
  | succ room ih =>
    obtain ⟨below, hbelow⟩ := @DepthLimit.exists_enter_of_room word crash _ _ _ hword hroom
    have hleft : cx.limit.room below = room := by
      have := DepthLimit.room_of_enter hbelow
      omega
    obtain ⟨ht, hh⟩ := ih hleft
    constructor
    · funext scope id
      rw [typeFrom]
      split
      · rename_i he
        cases hbelow.symm.trans he
      · rename_i he
        cases hbelow.symm.trans he
        rw [ht, hh, Arena.operationGuarded_eq]
        rfl
    · funext scope id
      rw [holdsFrom]
      split
      · rename_i he
        cases hbelow.symm.trans he
      · rename_i he
        cases hbelow.symm.trans he
        rw [ht, Arena.conditionGuarded_eq]
        rfl

/-- Whatever a crash would be, it does not come about. -/
theorem evaluateGuarded_eq (hword : cx.limit.max < word) (crash : Fault) (scope : Scope)
    (root : NodeId) (s : Store) :
    cx.evaluateGuarded word crash scope root s = cx.evaluate scope root s := by
  have ht : cx.typeFrom word crash 0 = cx.typeAt (cx.limit.room 0) :=
    (typeFrom_and_holdsFrom_eq hword crash rfl).1
  rw [evaluateGuarded, ht]
  rfl

end Context

end TypeCalculus
