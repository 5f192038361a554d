import TypeCalculus.Proofs.Evaluation.Lockstep

/-!
What all evaluations have in common. A property that the primitive steps have and that sequencing
keeps is a property of every evaluation, whatever the expression and however deep it may go.
-/

namespace TypeCalculus

section Parts

variable {P : ∀ α : Type, Eval α → Prop} {typeOf : Scope → NodeId → Eval TypeId}
  {holds : Scope → NodeId → Eval Bool} {declared? : Name → Option TypeId} {scope : Scope}

/-- What one side of two evaluations in lockstep has in all parts of an operation, it has in the
operation. -/
theorem Eval.Lockstep.operation_of_parts (h : Lockstep fun α act _ => P α act) {op : Operation}
    (ht : ∀ scope part, op.Part .type part → P TypeId (typeOf scope part))
    (hh : ∀ part, op.Part .condition part → P Bool (holds scope part)) :
    P TypeId (op.eval typeOf declared? holds scope) := by
  let S (place : Position) (scope₁ : Scope) (id : NodeId) (_ : Scope) (_ : NodeId) : Prop :=
    op.Part place id ∧ (place = .condition → scope₁ = scope)
  have htype {part} (hp : op.Part .type part) (scope₁ : Scope) : S .type scope₁ part scope₁ part :=
    ⟨hp, nofun⟩
  have hop : op.Resembles (ties (fun α act _ => P α act) S declared? declared? scope scope) op := by
    cases op with
    | var x => exact .var (h.resolved _ _)
    | empty => exact .empty
    | all => exact .all
    | unknown => exact .unknown
    | named name args =>
      exact .named (h.resolved _ _) (List.forall₂_same.2 fun arg hmem => htype (.arg hmem) _)
    | union operands =>
      exact .union (List.forall₂_same.2 fun operand hmem => htype (.member hmem) _)
    | cond test yes no => exact .cond ⟨.test, fun _ => rfl⟩ (htype .yes _) (htype .no _)
    | mapUnion source param body => exact .mapUnion (htype .source _) fun t => htype .body _
    | rawTypeOf subject => exact .rawTypeOf (htype .raw _)
    | templateTypeOf subject place => exact .templateTypeOf (htype .template _)
  refine @operation _ declared? declared? S typeOf typeOf holds holds scope scope h ?_ ?_ op op hop
  · intro scope₁ part _ _ hs
    exact ht scope₁ part hs.1
  · intro scope₁ part _ _ hs
    rw [hs.2 rfl]
    exact hh part hs.1

theorem Eval.Lockstep.condition_of_parts (h : Lockstep fun α act _ => P α act)
    {condition : Condition} (ht : ∀ part ∈ condition.parts, P TypeId (typeOf scope part)) :
    P Bool (condition.eval typeOf scope) := by
  let S (_ : Position) (scope₁ : Scope) (id : NodeId) (_ : Scope) (_ : NodeId) : Prop :=
    id ∈ condition.parts ∧ scope₁ = scope
  have hpart (part) (hp : part ∈ condition.parts) : S .type scope part scope part := ⟨hp, rfl⟩
  have hcondition : condition.Resembles
      (ties (fun α act _ => P α act) S (fun _ => none) (fun _ => none) scope scope) condition := by
    cases condition with
    | eq | sub => constructor <;> exact hpart _ (by simp [Condition.parts])
    | isTemplatized | isUnknown => constructor; exact hpart _ (by simp [Condition.parts])
  refine @Eval.Lockstep.condition _ _ _ S typeOf typeOf scope scope h ?_ condition condition hcondition
  intro scope₁ part _ _ hs
  rw [hs.2]
  exact ht part hs.1

end Parts

/-- The primitive steps have the property, and sequencing keeps it. -/
structure Eval.Stepwise (P : ∀ α : Type, Eval α → Prop) : Prop where
  pure : ∀ {α} (a : α), P α (Pure.pure a)
  throw : ∀ {α} (e : Abort), P α (throw e)
  bind : ∀ {α β} {act : Eval α} {next : α → Eval β}, P α act → (∀ a, P β (next a)) →
    P β (act >>= next)
  note : ∀ miss, P Unit (Eval.note miss)
  ask : ∀ {α} {question : Store → Except Fault α}, Store.Lasting question → P α (Eval.ask question)
  union : ∀ ts, P TypeId (Eval.build (Store.union ts))
  applied : ∀ base args, P TypeId (Eval.build (Store.applied base args))

namespace Eval.Stepwise

variable {P : ∀ α : Type, Eval α → Prop}

/-- A property is a relation that does not look at its right-hand side. -/
theorem lockstep (h : Stepwise P) : Lockstep fun α act _ => P α act where
  pure := h.pure
  throw e _ := h.throw e
  bind := h.bind
  note := h.note
  ask := h.ask
  union := h.union
  applied := h.applied

theorem typeAt_and_holdsAt (h : Stepwise P) (cx : Context) (room : Nat) :
    (∀ scope id, P TypeId (cx.typeAt room scope id)) ∧
      ∀ scope id, P Bool (cx.holdsAt room scope id) := by
  obtain ⟨ht, hh⟩ := h.lockstep.typeAt_and_holdsAt cx cx rfl rfl (h.lockstep.alike _)
    (fun _ _ _ => h.throw _) (fun _ _ _ => h.throw _) (Nat.le_refl room)
  exact ⟨fun scope id => ht id rfl, fun scope id => hh id rfl⟩

theorem typeAt (h : Stepwise P) (cx : Context) (room : Nat) (scope : Scope) (id : NodeId) :
    P TypeId (cx.typeAt room scope id) := (h.typeAt_and_holdsAt cx room).1 scope id

end Eval.Stepwise

end TypeCalculus
