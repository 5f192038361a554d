import TypeCalculus.Expression.Arena
import TypeCalculus.Proofs.Store.Growth

/-!
What a request does to an arena. Whatever is asked for, operands are stored first, if there are any,
and then the node is added.
-/

namespace TypeCalculus

namespace Arena

namespace Request

/-- The operands that come with the request. Only a call has any. -/
def operands : Request → List NodeId
  | call _ operands => operands
  | _ => []

/-- The nodes that the new node is to refer to. -/
def children : Request → List NodeId
  | call _ operands => operands
  | function _ body => [body]
  | _ => []

/-- The node that is asked for, if the operands are in this range. -/
def node (range : OperandRange) : Request → Node
  | var name => .var name
  | str text => .str text
  | int value => .int value
  | call callee _ => .call callee range
  | function param body => .function param body

theorem eq_call_of_node {request : Request} {range range' : OperandRange} {callee : Name}
    (h : request.node range = .call callee range') :
    range' = range ∧ request = .call callee request.operands := by
  cases request with
  | call callee operands =>
    cases h
    exact ⟨rfl, rfl⟩
  | var | str | int | function => cases h

theorem eq_function_of_node {request : Request} {range : OperandRange} {param : Name} {body : NodeId}
    (h : request.node range = .function param body) : request = .function param body := by
  cases request with
  | function param body =>
    cases h
    rfl
  | var | str | int | call => cases h

end Request

/-- What is done before there is a node: the operands of a call are stored. -/
def store (a : Arena) : Request → Except Fault (OperandRange × Arena)
  | .call _ operands => a.addOperands operands
  | _ => .ok (.empty, a)

theorem make_eq_store_bind (request : Request) : request.make =
    ArenaM.grow (·.store request) >>= fun range => ArenaM.grow (·.add (request.node range)) := by
  cases request <;> rfl

variable {a b : Arena} {request : Request} {id : NodeId} {range : OperandRange} {f : Fault}

theorem make_eq_ok_iff : request.make a = .ok id b ↔
    ∃ range a', a.store request = .ok (range, a') ∧ a'.add (request.node range) = .ok (id, b) := by
  simp only [make_eq_store_bind, bind_apply_eq_ok_iff, ArenaM.grow_eq_ok_iff]

/-- When it is the node that there is no room for, the operands are stored already. -/
theorem make_eq_error_iff : request.make a = .error f b ↔ a.store request = .error f ∧ b = a ∨
    ∃ range, a.store request = .ok (range, b) ∧ b.add (request.node range) = .error f := by
  simp only [make_eq_store_bind, bind_apply_eq_error_iff, ArenaM.grow_eq_ok_iff,
    ArenaM.grow_eq_error_iff]
  refine or_congr_right ⟨?_, ?_⟩
  · rintro ⟨range, a', hstore, hadd, rfl⟩
    exact ⟨range, hstore, hadd⟩
  · rintro ⟨range, hstore, hadd⟩
    exact ⟨range, b, hstore, hadd, rfl⟩

/-- Only a call stores anything before its node. -/
theorem store_ok_cases (h : a.store request = .ok (range, b)) :
    (b = a ∧ range = .empty ∧ request.operands = [] ∧
      ∀ callee range', request.node range ≠ .call callee range') ∨
    a.addOperands request.operands = .ok (range, b) := by
  cases request with
  | call callee operands => exact .inr h
  | var | str | int | function =>
    cases h
    exact .inl ⟨rfl, rfl, rfl, nofun⟩

theorem nodes_of_store (h : a.store request = .ok (range, b)) : b.nodes = a.nodes := by
  rcases store_ok_cases h with ⟨rfl, -⟩ | hadd
  · rfl
  · obtain ⟨-, -, -, rfl⟩ := addOperands_eq_ok_iff.1 hadd
    rfl

theorem size_of_store (h : a.store request = .ok (range, b)) : b.size = a.size :=
  congrArg Array.size (nodes_of_store h)

theorem slice_of_store (h : a.store request = .ok (range, b)) :
    b.slice range = .ok request.operands := by
  rcases store_ok_cases h with ⟨rfl, rfl, hnone, -⟩ | hadd
  · rw [hnone]
    simp [slice, OperandRange.stop, OperandRange.empty]
  · exact slice_of_addOperands hadd

end Arena

end TypeCalculus
