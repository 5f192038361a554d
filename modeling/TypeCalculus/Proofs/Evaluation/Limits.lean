import TypeCalculus.Proofs.History

/-!
The depth limit cuts an evaluation off and does nothing else. With a higher limit the evaluation
takes the same steps; where the lower one stops it, the other goes on from what is there.
-/

namespace TypeCalculus

namespace Eval

/-- The step does what `act'` does, or it is cut off at `max` levels; then `act'` goes on from what
it leaves. -/
structure CutAt (max : Nat) {α : Type} (act act' : Eval α) : Prop where
  outcome : ∀ p, (act p = act' p ∧ ∀ n cut, act p ≠ .error (.error (.depthExceeded n)) cut) ∨
    ∃ cut, act p = .error (.error (.depthExceeded max)) cut ∧
      cut.store ≤ (finalState (act' p)).store
  grows : ∀ p, p.store ≤ (finalState (act' p)).store

namespace CutAt

variable {α β : Type} {max : Nat}

theorem of_settles {act : Eval α} (h : act.Settles)
    (hend : ∀ p n cut, act p ≠ .error (.error (.depthExceeded n)) cut) : CutAt max act act :=
  ⟨fun p => .inl ⟨rfl, hend p⟩, h.grows⟩

theorem exhausted {cx : Context} {act' : Eval α} (hmax : cx.limit.max = max) (h : act'.Settles) :
    CutAt max cx.exhausted act' := by
  subst hmax
  exact ⟨fun p => .inr ⟨p, rfl, h.grows p⟩, h.grows⟩

theorem bind {act act' : Eval α} {next next' : α → Eval β} (h : CutAt max act act')
    (hn : ∀ a, CutAt max (next a) (next' a)) : CutAt max (act >>= next) (act' >>= next') where
  outcome p := by
    have hgrows := @le_finalState_bind _ _ act' _ (fun a => (hn a).grows) p
    rw [bind_apply]
    rcases h.outcome p with ⟨heq, hend⟩ | ⟨cut, hcut, hle⟩
    · rw [bind_apply, ← heq]
      cases hact : act p with
      | ok a p' => exact (hn a).outcome p'
      | error e p' =>
        refine .inl ⟨rfl, fun n cut hcut => hend n cut ?_⟩
        rw [hact]
        cases hcut
        rfl
    · rw [hcut]
      exact .inr ⟨cut, rfl, hle.trans hgrows⟩
  grows p := (h.grows p).trans (le_finalState_bind (fun a => (hn a).grows) p)

theorem ask {question : Store → Except Fault α} (hq : Store.Lasting question) :
    CutAt max (Eval.ask question) (Eval.ask question) :=
  of_settles (.ask hq) fun _ _ _ => ask_ne_error

theorem build {make : StoreM TypeId} (hm : make.Settles) :
    CutAt max (Eval.build make) (Eval.build make) :=
  of_settles (.build hm) fun _ _ _ => build_ne_error

theorem lockstep (max : Nat) : Lockstep fun _ act act' => CutAt max act act' where
  pure a := of_settles (.pure a) nofun
  throw e he := by
    refine of_settles (.throw e) fun p n cut h => ?_
    cases h
    exact he n rfl
  bind := bind
  note miss := of_settles (.note miss) nofun
  ask := ask
  union ts := build (.union ts)
  applied base args := build (.applied base args)

end CutAt

end Eval

namespace Context

variable (names : NameTable) (arena : Arena) (declared? : Name → Option TypeId)
  {lower higher : DepthLimit}

theorem cutAt_typeAt (h : lower.max ≤ higher.max) (scope : Scope) (root : NodeId) :
    Eval.CutAt lower.max (typeAt ⟨names, arena, declared?, lower⟩ (lower.room 0) scope root)
      (typeAt ⟨names, arena, declared?, higher⟩ (higher.room 0) scope root) := by
  have hlock := Eval.CutAt.lockstep lower.max
  have hsettles := Eval.Settles.stepwise.typeAt_and_holdsAt ⟨names, arena, declared?, higher⟩
  have hroom : lower.room 0 ≤ higher.room 0 := Nat.sub_le_sub_right h 0
  exact (hlock.typeAt_and_holdsAt ⟨names, arena, declared?, lower⟩
    ⟨names, arena, declared?, higher⟩ rfl rfl (hlock.alike _)
    (fun room scope id => .exhausted rfl ((hsettles room).1 scope id))
    (fun room scope id => .exhausted rfl ((hsettles room).2 scope id)) hroom).1 root rfl

/-- With a higher limit an evaluation has the same outcome, unless the lower limit cut it off. Then
the error names the lower limit, and the store it leaves is the beginning of the one that the other
evaluation leaves. -/
theorem evaluate_limit (h : lower.max ≤ higher.max) (scope : Scope) (root : NodeId) (s : Store) :
    match evaluate ⟨names, arena, declared?, lower⟩ scope root s with
    | (.error (.error (.depthExceeded n)), cut) => n = lower.max ∧
        cut ≤ (evaluate ⟨names, arena, declared?, higher⟩ scope root s).2 ∧
        cut.entries.toList <+:
          (evaluate ⟨names, arena, declared?, higher⟩ scope root s).2.entries.toList
    | outcome => evaluate ⟨names, arena, declared?, higher⟩ scope root s = outcome := by
  rcases (cutAt_typeAt names arena declared? h scope root).outcome ⟨s, []⟩ with
    ⟨heq, hend⟩ | ⟨cut, hcut, hle⟩
  · unfold evaluate
    rw [← heq]
    cases hact : typeAt ⟨names, arena, declared?, lower⟩ (lower.room 0) scope root ⟨s, []⟩ with
    | ok t p => rfl
    | error e p =>
      dsimp only
      split
      · rename_i n cut he
        cases he
        exact absurd hact (hend n p)
      · rfl
  · rw [← evaluate_snd] at hle
    have hlower : evaluate ⟨names, arena, declared?, lower⟩ scope root s =
        (.error (.error (.depthExceeded lower.max)), cut.store) := by
      unfold evaluate
      rw [hcut]
    rw [hlower]
    exact ⟨rfl, hle, Store.prefix_of_le hle⟩

/-- `union(type('T', all()), …)` with itself as the second operand, where `T` is declared. -/
def endless (limit : DepthLimit) : Context where
  names := .new .byScalars
  arena := ⟨#[.str ⟨1, 0⟩, .call ⟨9, 1⟩ ⟨0, 0⟩, .call ⟨2, 0⟩ ⟨0, 2⟩, .call ⟨9, 0⟩ ⟨2, 2⟩],
    #[⟨0⟩, ⟨1⟩, ⟨2⟩, ⟨3⟩]⟩
  declared? name := if name = ⟨1, 0⟩ then some ⟨3⟩ else none
  limit := limit

/-- Three levels are enough to make `T<*>`, but no number of levels is enough for a type. -/
theorem endless_evaluate_limit :
    ((endless ⟨3⟩).evaluate .empty ⟨3⟩ (.sample ⟨1, 0⟩ ⟨2, 0⟩)).1 =
        .error (.error (.depthExceeded 3)) ∧
      ((endless ⟨3⟩).evaluate .empty ⟨3⟩ (.sample ⟨1, 0⟩ ⟨2, 0⟩)).2.entries.toList <+:
        ((endless ⟨7⟩).evaluate .empty ⟨3⟩ (.sample ⟨1, 0⟩ ⟨2, 0⟩)).2.entries.toList := by
  have h := evaluate_limit (endless ⟨3⟩).names (endless ⟨3⟩).arena (endless ⟨3⟩).declared?
    (show (⟨3⟩ : DepthLimit).max ≤ (⟨7⟩ : DepthLimit).max by decide) .empty ⟨3⟩
    (.sample ⟨1, 0⟩ ⟨2, 0⟩)
  exact ⟨rfl, h.2.2⟩

end Context

end TypeCalculus
