import TypeCalculus.Proofs.Evaluation.Stability

/-!
The stores that come about: whatever is made and evaluated, in whatever order, a store only grows,
and what was evaluated once keeps its outcome.
-/

namespace TypeCalculus

namespace Store

inductive Former where
  | named (name : Name)
  | union (ts : List TypeId)
  | applied (base : TypeId) (args : List TypeId)

def Former.make : Former → StoreM TypeId
  | named name => Store.named name
  | union ts => Store.union ts
  | applied base args => Store.applied base args

/-- A call that may add types to a store. The handles in it need not lead anywhere. -/
inductive Call where
  | make (former : Former)
  | evaluate (cx : Context) (scope : Scope) (root : NodeId)

/-- The store that a call leaves behind, whether or not it succeeds. -/
def after (s : Store) : Call → Store
  | .make former => finalState (former.make s)
  | .evaluate cx scope root => (cx.evaluate scope root s).2

def run (s : Store) (calls : List Call) : Store := calls.foldl after s

def Reachable (s : Store) : Prop := ∃ calls, s = new.run calls

theorem run_append (s : Store) (calls later : List Call) :
    s.run (calls ++ later) = (s.run calls).run later := List.foldl_append

/-- What holds of a store and is kept by every call holds after every run. -/
theorem run_induction {P : Store → Prop} {s : Store} (hs : P s)
    (step : ∀ s call, P s → P (s.after call)) (calls : List Call) : P (s.run calls) := by
  induction calls generalizing s with
  | nil => exact hs
  | cons call calls ih => exact ih (step s call hs)

theorem Reachable.run {s : Store} (h : s.Reachable) (calls : List Call) :
    (s.run calls).Reachable := by
  obtain ⟨before, rfl⟩ := h
  exact ⟨before ++ calls, (run_append new before calls).symm⟩

theorem Former.settles (former : Former) : former.make.Settles := by
  cases former with
  | named name => exact .named name
  | union ts => exact .union ts
  | applied base args => exact .applied base args

theorem le_after (s : Store) (call : Call) : s ≤ s.after call := by
  cases call with
  | make former => exact former.settles.grows s
  | evaluate cx scope root => exact cx.le_evaluate scope root s

theorem le_run (s : Store) (calls : List Call) : s ≤ s.run calls :=
  run_induction (le_refl s) (fun q call h => h.trans (le_after q call)) calls

end Store

/-- The union of the variables `x` and `y`. -/
def Context.sample : Context where
  names := .new .byScalars
  arena := ⟨#[.var ⟨0, 1⟩, .var ⟨0, 2⟩, .call ⟨9, 0⟩ ⟨0, 2⟩], #[⟨0⟩, ⟨1⟩]⟩
  declared? _ := none
  limit := ⟨2⟩

def Scope.sample (x y : TypeId) : Scope := .ofBindings [(⟨0, 1⟩, x), (⟨0, 2⟩, y)]

def Store.sample (first second : Name) : Store :=
  Store.new.run [.make (.named first), .make (.named second)]

theorem Store.sample_reachable (first second : Name) : (Store.sample first second).Reachable :=
  ⟨_, rfl⟩

/-- `A` at place 3 and `B` at 4, then `(A|B)`, `A<?>`, `A<B>` and `(B|A<?>)`. -/
def Store.sampleTypes : Store :=
  (Store.sample ⟨1, 0⟩ ⟨2, 0⟩).run [.make (.union [⟨4⟩, ⟨3⟩]), .make (.applied ⟨3⟩ [.unknown]),
    .make (.applied ⟨3⟩ [⟨4⟩]), .make (.union [⟨6⟩, ⟨4⟩])]

theorem Store.sampleTypes_reachable : Store.sampleTypes.Reachable :=
  (Store.sample_reachable ⟨1, 0⟩ ⟨2, 0⟩).run _

theorem Context.sample_evaluate :
    (sample.evaluate (.sample ⟨3⟩ ⟨4⟩) ⟨2⟩ (.sample ⟨1, 0⟩ ⟨2, 0⟩)).1 = .ok ⟨⟨5⟩, []⟩ := rfl

/-- An evaluation that ended without a fault ends the same way again, with the same misses, after
any further calls, and adds nothing. -/
theorem Context.evaluate_again (cx : Context) (scope : Scope) (root : NodeId) (s : Store)
    (calls : List Store.Call) (hf : ∀ f, (cx.evaluate scope root s).1 ≠ .error (.fault f)) :
    cx.evaluate scope root ((cx.evaluate scope root s).2.run calls) =
      ((cx.evaluate scope root s).1, (cx.evaluate scope root s).2.run calls) :=
  cx.evaluate_of_le scope root hf (Store.le_run _ calls)

/-- A third type is made between the two evaluations, and a union with a handle that leads nowhere
is tried. -/
theorem Context.sample_evaluate_again :
    sample.evaluate (.sample ⟨3⟩ ⟨4⟩) ⟨2⟩
        ((sample.evaluate (.sample ⟨3⟩ ⟨4⟩) ⟨2⟩ (.sample ⟨1, 0⟩ ⟨2, 0⟩)).2.run
          [.make (.named ⟨3, 0⟩), .make (.union [⟨3⟩, ⟨9⟩])]) =
      (.ok ⟨⟨5⟩, []⟩, (sample.evaluate (.sample ⟨3⟩ ⟨4⟩) ⟨2⟩ (.sample ⟨1, 0⟩ ⟨2, 0⟩)).2.run
          [.make (.named ⟨3, 0⟩), .make (.union [⟨3⟩, ⟨9⟩])]) := by
  refine sample.evaluate_again (.sample ⟨3⟩ ⟨4⟩) ⟨2⟩ (.sample ⟨1, 0⟩ ⟨2, 0⟩) _ fun f hf => ?_
  rw [sample_evaluate] at hf
  cases hf

end TypeCalculus
