import TypeCalculus.Proofs.Evaluation.Stepwise

/-!
Evaluation only adds to the store, and an evaluation that ends without a fault can be done again:
in any store that holds what it left behind, it ends the same way and adds nothing.
-/

namespace TypeCalculus

namespace Eval

variable {α : Type} {p p' : Progress} {miss : Miss} {e : EvalError}

theorem ofExcept_eq_ok_iff {r : Except Abort α} {a : α} :
    Eval.ofExcept r p = .ok a p' ↔ r = .ok a ∧ p = p' := by
  cases r with
  | ok b =>
    change EStateM.Result.ok b p = .ok a p' ↔ _
    simp
  | error e =>
    change EStateM.Result.error e p = .ok a p' ↔ _
    simp

theorem ask_eq_ok_iff {question : Store → Except Fault α} {a : α} :
    Eval.ask question p = .ok a p' ↔ question p.store = .ok a ∧ p = p' := by
  unfold ask
  cases question p.store <;> simp

theorem ask_ne_error {question : Store → Except Fault α} :
    Eval.ask question p ≠ .error (.error e) p' := by
  unfold ask
  cases question p.store <;> simp

theorem ask_store (question : Store → Except Fault α) (p : Progress) :
    (finalState (Eval.ask question p)).store = p.store := by
  unfold ask
  cases question p.store <;> rfl

theorem build_eq_ok_iff {make : StoreM TypeId} {t : TypeId} :
    Eval.build make p = .ok t p' ↔ ∃ s, make p.store = .ok t s ∧ ⟨s, p.misses⟩ = p' := by
  unfold build
  cases make p.store <;> simp [and_assoc]

theorem build_ne_error {make : StoreM TypeId} : Eval.build make p ≠ .error (.error e) p' := by
  unfold build
  cases make p.store <;> simp

theorem build_store (make : StoreM TypeId) (p : Progress) :
    (finalState (Eval.build make p)).store = finalState (make p.store) := by
  unfold build
  cases make p.store <;> rfl

theorem note_of_mem (h : miss ∈ p.misses) : Eval.note miss p = .ok () p :=
  congrArg (EStateM.Result.ok ()) (if_pos h)

theorem note_of_not_mem (h : miss ∉ p.misses) :
    Eval.note miss p = .ok () ⟨p.store, p.misses ++ [miss]⟩ :=
  congrArg (EStateM.Result.ok ()) (if_neg h)

theorem note_store (miss : Miss) (p : Progress) :
    (finalState (Eval.note miss p)).store = p.store := by
  by_cases h : miss ∈ p.misses
  · rw [note_of_mem h]
    rfl
  · rw [note_of_not_mem h]
    rfl

end Eval

/-- What the first half of a step leaves is still there in the end, however either half ends. -/
theorem Eval.le_finalState_bind {α β : Type} {act : Eval α} {next : α → Eval β}
    (hn : ∀ a p, p.store ≤ (finalState (next a p)).store) (p : Progress) :
    (finalState (act p)).store ≤ (finalState ((act >>= next) p)).store := by
  rw [bind_apply]
  cases act p with
  | ok a p' => exact hn a p'
  | error e p' => exact le_refl p'.store

/-- A step of an evaluation that only adds to the store. If it ends without a fault and is taken
again, it ends the same way, with the same misses, and adds nothing. -/
structure Eval.Settles {α : Type} (act : Eval α) : Prop where
  grows : ∀ p, p.store ≤ (finalState (act p)).store
  again : ∀ {p a p' s}, act p = .ok a p' → p'.store ≤ s → act ⟨s, p.misses⟩ = .ok a ⟨s, p'.misses⟩
  fails : ∀ {p e p' s}, act p = .error (.error e) p' → p'.store ≤ s →
    act ⟨s, p.misses⟩ = .error (.error e) ⟨s, p'.misses⟩

namespace Eval.Settles

variable {α β : Type}

theorem pure (a : α) : Settles (Pure.pure a : Eval α) where
  grows p := le_refl p.store
  again h _ := by
    cases h
    rfl
  fails h := by cases h

theorem throw (e : Abort) : Settles (MonadExcept.throw e : Eval α) where
  grows p := le_refl p.store
  again h := by cases h
  fails h _ := by
    cases h
    rfl

theorem note (miss : Miss) : Settles (Eval.note miss) where
  grows p := by rw [note_store]
  again {p _ p' s} h _ := by
    by_cases hmem : miss ∈ p.misses
    · rw [note_of_mem hmem] at h
      cases h
      exact note_of_mem hmem
    · rw [note_of_not_mem hmem] at h
      cases h
      exact note_of_not_mem hmem
  fails h := by cases h

theorem ask {question : Store → Except Fault α} (hq : Store.Lasting question) :
    Settles (Eval.ask question) where
  grows p := by rw [ask_store]
  again h hle := by
    obtain ⟨ha, rfl⟩ := ask_eq_ok_iff.1 h
    exact ask_eq_ok_iff.2 ⟨hq hle ha, rfl⟩
  fails h := absurd h ask_ne_error

theorem build {make : StoreM TypeId} (hm : make.Settles) : Settles (Eval.build make) where
  grows p := by
    rw [build_store]
    exact hm.grows p.store
  again h hle := by
    obtain ⟨s, ht, rfl⟩ := build_eq_ok_iff.1 h
    exact build_eq_ok_iff.2 ⟨_, hm.again ht hle, rfl⟩
  fails h := absurd h build_ne_error

theorem bind {act : Eval α} {next : α → Eval β} (h : Settles act) (hn : ∀ a, Settles (next a)) :
    Settles (act >>= next) where
  grows p := (h.grows p).trans (le_finalState_bind (fun a => (hn a).grows) p)
  again {p b p' s} hb hle := by
    obtain ⟨a, p₁, ha, hb⟩ := bind_apply_eq_ok_iff.1 hb
    -- What the first half leaves is in the final store, so it can be taken again there.
    have hle₁ : p₁.store ≤ p'.store := by
      have hgrows := (hn a).grows p₁
      rwa [hb] at hgrows
    have hfirst := h.again ha (hle₁.trans hle)
    have hsecond := (hn a).again hb hle
    exact bind_apply_eq_ok_iff.2 ⟨a, _, hfirst, hsecond⟩
  fails {p e p' s} hb hle := by
    rcases bind_apply_eq_error_iff.1 hb with ha | ⟨a, p₁, ha, hb⟩
    · exact bind_apply_eq_error_iff.2 (.inl (h.fails ha hle))
    · have hle₁ : p₁.store ≤ p'.store := by
        have hgrows := (hn a).grows p₁
        rwa [hb] at hgrows
      have hfirst := h.again ha (hle₁.trans hle)
      have hsecond := (hn a).fails hb hle
      exact bind_apply_eq_error_iff.2 (.inr ⟨a, _, hfirst, hsecond⟩)

theorem stepwise : Eval.Stepwise fun _ act => Settles act where
  pure := pure
  throw := throw
  bind := bind
  note := note
  ask := ask
  union ts := build (.union ts)
  applied base args := build (.applied base args)

end Eval.Settles

namespace Context

variable (cx : Context) (scope : Scope) (root : NodeId)

theorem evaluate_snd (s : Store) : (cx.evaluate scope root s).2 =
    (finalState (cx.typeAt (cx.limit.room 0) scope root ⟨s, []⟩)).store := by
  unfold evaluate
  cases cx.typeAt (cx.limit.room 0) scope root ⟨s, []⟩ <;> rfl

theorem le_evaluate (s : Store) : s ≤ (cx.evaluate scope root s).2 := by
  rw [evaluate_snd]
  exact (Eval.Settles.stepwise.typeAt cx (cx.limit.room 0) scope root).grows ⟨s, []⟩

theorem evaluate_of_le {s q : Store}
    (hf : ∀ f, (cx.evaluate scope root s).1 ≠ .error (.fault f))
    (hle : (cx.evaluate scope root s).2 ≤ q) :
    cx.evaluate scope root q = ((cx.evaluate scope root s).1, q) := by
  have h := Eval.Settles.stepwise.typeAt cx (cx.limit.room 0) scope root
  unfold evaluate at hf hle ⊢
  cases ha : cx.typeAt (cx.limit.room 0) scope root ⟨s, []⟩ with
  | ok t p =>
    rw [ha] at hle
    rw [h.again ha hle]
  | error e p =>
    rw [ha] at hf hle
    cases e with
    | error e => rw [h.fails ha hle]
    | fault f => exact absurd rfl (hf f)

end Context

end TypeCalculus
