import Mathlib.Data.List.Induction
import TypeCalculus.Proofs.Evaluation.Realization

/-!
How a store came about does not change what expressions evaluate to. Two stores may hold their
types in different places and in a different order; an evaluation in the one succeeds exactly if it
does in the other, and gives a type of the same structure.
-/

namespace TypeCalculus

/-- The handles that names stand for lead somewhere. -/
def Store.Holds (s : Store) (found : Name → Option TypeId) : Prop :=
  ∀ name t, found name = some t → t.index < s.size

theorem Level.mem_of_getElem?_ofBindings {bindings : List (Name × TypeId)} {name : Name}
    {t : TypeId} (h : (Level.ofBindings bindings)[name]? = some t) : (name, t) ∈ bindings := by
  induction bindings using List.reverseRecOn with
  | nil => simp [ofBindings] at h
  | append_singleton bindings b ih =>
    rw [getElem?_ofBindings_concat] at h
    split at h
    · rename_i hn
      cases h
      simp [← hn]
    · exact List.mem_append_left _ (ih h)

theorem Scope.mem_of_lookup?_ofBindings {bindings : List (Name × TypeId)} {name : Name} {t : TypeId}
    (h : (Scope.ofBindings bindings).lookup? name = some t) : (name, t) ∈ bindings := by
  rw [lookup?_ofBindings] at h
  exact Level.mem_of_getElem?_ofBindings h

theorem Store.holds_ofBindings {s : Store} {bindings : List (Name × TypeId)}
    (h : ∀ b ∈ bindings, b.2.index < s.size) : s.Holds (Scope.ofBindings bindings).lookup? :=
  fun _ _ ht => h _ (Scope.mem_of_lookup?_ofBindings ht)

/-- The trees of the handles that names stand for. -/
def Store.treesOf (s : Store) (found : Name → Option TypeId) : Env :=
  fun name => (found name).bind fun t => (s.tree t).toOption

theorem Store.WellFormed.binds_treesOf {s : Store} (h : s.WellFormed) {found : Name → Option TypeId}
    (hf : s.Holds found) : s.Binds found (s.treesOf found) := by
  intro name
  unfold treesOf
  cases ht : found name with
  | none => exact .none
  | some t =>
    obtain ⟨T, hT⟩ := h.exists_reads t (hf name t ht)
    rw [Option.bind_some, hT]
    exact .some hT

/-- Two evaluations both fail, or both give types with one tree and the same misses. -/
def SameOutcome : Except Abort Evaluation × Store → Except Abort Evaluation × Store → Prop
  | (.ok e₁, s₁), (.ok e₂, s₂) =>
    (∃ T, s₁.tree e₁.type = .ok T ∧ s₂.tree e₂.type = .ok T) ∧ e₁.misses.Perm e₂.misses
  | (.error _, _), (.error _, _) => True
  | _, _ => False

theorem Context.evaluate_sameOutcome (names : NameTable) (arena : Arena) (limit : DepthLimit)
    (root : NodeId) {s₁ s₂ : Store} (h₁ : s₁.Reachable) (h₂ : s₂.Reachable)
    {declared₁ declared₂ : Name → Option TypeId} {scope₁ scope₂ : Scope}
    (hd₁ : s₁.Holds declared₁) (hd₂ : s₂.Holds declared₂) (hs₁ : s₁.Holds scope₁.lookup?)
    (hs₂ : s₂.Holds scope₂.lookup?) (hd : s₁.treesOf declared₁ = s₂.treesOf declared₂)
    (hs : s₁.treesOf scope₁.lookup? = s₂.treesOf scope₂.lookup?)
    (hfull₁ : (Context.evaluate ⟨names, arena, declared₁, limit⟩ scope₁ root s₁).1 ≠
      .error (.fault .storeFull))
    (hfull₂ : (Context.evaluate ⟨names, arena, declared₂, limit⟩ scope₂ root s₂).1 ≠
      .error (.fault .storeFull)) :
    SameOutcome (Context.evaluate ⟨names, arena, declared₁, limit⟩ scope₁ root s₁)
      (Context.evaluate ⟨names, arena, declared₂, limit⟩ scope₂ root s₂) := by
  have hbinds₁ := h₁.wellFormed.binds_treesOf hs₁
  have hbinds₂ := h₂.wellFormed.binds_treesOf hs₂
  have hdecl₁ := h₁.wellFormed.binds_treesOf hd₁
  have hdecl₂ := h₂.wellFormed.binds_treesOf hd₂
  rw [← hs] at hbinds₂
  rw [← hd] at hdecl₂
  have hacc₁ := @Context.evaluate_accords ⟨names, arena, declared₁, limit⟩ _ _ h₁.wellFormed
    hdecl₁ _ _ hbinds₁ root
  have hacc₂ := @Context.evaluate_accords ⟨names, arena, declared₂, limit⟩ _ _ h₂.wellFormed
    hdecl₂ _ _ hbinds₂ root
  generalize Context.evaluate ⟨names, arena, declared₁, limit⟩ scope₁ root s₁ = r₁ at *
  generalize Context.evaluate ⟨names, arena, declared₂, limit⟩ scope₂ root s₂ = r₂ at *
  match r₁, r₂ with
  | (.ok e₁, s₁'), (.ok e₂, s₂') =>
    obtain ⟨T₁, D₁, hm₁, hT₁, hnodup₁, hD₁⟩ := hacc₁
    obtain ⟨T₂, D₂, hm₂, hT₂, hnodup₂, hD₂⟩ := hacc₂
    -- Both evaluations realise one and the same meaning, which does not know of the stores.
    cases hm₁.symm.trans hm₂
    refine ⟨⟨T₁, hT₁, hT₂⟩, (List.perm_ext_iff_of_nodup hnodup₁ hnodup₂).2 fun miss => ?_⟩
    rw [hD₁, hD₂]
  | (.ok e₁, s₁'), (.error e, _) =>
    obtain ⟨T₁, D₁, hm₁, -⟩ := hacc₁
    rcases hacc₂ with rfl | hm₂
    · exact absurd rfl hfull₂
    · cases hm₁.symm.trans hm₂
  | (.error e, _), (.ok e₂, s₂') =>
    obtain ⟨T₂, D₂, hm₂, -⟩ := hacc₂
    rcases hacc₁ with rfl | hm₁
    · exact absurd rfl hfull₁
    · cases hm₁.symm.trans hm₂
  | (.error _, _), (.error _, _) => exact trivial

theorem Scope.sample_lookup? (x y : TypeId) (name : Name) : (Scope.sample x y).lookup? name =
    if ⟨0, 2⟩ = name then some y else if ⟨0, 1⟩ = name then some x else none := by
  have hy := @Level.getElem?_ofBindings_concat [(⟨0, 1⟩, x)] ⟨0, 2⟩ name y
  have hx := @Level.getElem?_ofBindings_concat [] ⟨0, 1⟩ name x
  rw [List.nil_append] at hx
  rw [hx] at hy
  exact (lookup?_ofBindings _ name).trans hy

/-- It does not matter which of two types a store holds first. -/
theorem Store.sample_treesOf {s₁ s₂ : Store} {A B : Tree} (ha₁ : s₁.Reads ⟨3⟩ A)
    (hb₁ : s₁.Reads ⟨4⟩ B) (ha₂ : s₂.Reads ⟨4⟩ A) (hb₂ : s₂.Reads ⟨3⟩ B) :
    s₁.treesOf (Scope.sample ⟨3⟩ ⟨4⟩).lookup? = s₂.treesOf (Scope.sample ⟨4⟩ ⟨3⟩).lookup? := by
  funext name
  unfold treesOf
  rw [Scope.sample_lookup?, Scope.sample_lookup?]
  split
  · rw [Option.bind_some, Option.bind_some, hb₁, hb₂]
  · split
    · rw [Option.bind_some, Option.bind_some, ha₁, ha₂]
    · rfl

theorem Context.sample_evaluate_sameOutcome :
    SameOutcome (sample.evaluate (.sample ⟨3⟩ ⟨4⟩) ⟨2⟩ (.sample ⟨1, 0⟩ ⟨2, 0⟩))
      (sample.evaluate (.sample ⟨4⟩ ⟨3⟩) ⟨2⟩ (.sample ⟨2, 0⟩ ⟨1, 0⟩)) := by
  have h₁ : (sample.evaluate (.sample ⟨3⟩ ⟨4⟩) ⟨2⟩ (.sample ⟨1, 0⟩ ⟨2, 0⟩)).1 = .ok ⟨⟨5⟩, []⟩ := rfl
  have h₂ : (sample.evaluate (.sample ⟨4⟩ ⟨3⟩) ⟨2⟩ (.sample ⟨2, 0⟩ ⟨1, 0⟩)).1 = .ok ⟨⟨5⟩, []⟩ := rfl
  have hd : ∀ s₁ s₂ : Store, s₁.treesOf sample.declared? = s₂.treesOf sample.declared? := by
    intro s₁ s₂
    rfl
  exact evaluate_sameOutcome sample.names sample.arena sample.limit ⟨2⟩
    (Store.sample_reachable ⟨1, 0⟩ ⟨2, 0⟩) (Store.sample_reachable ⟨2, 0⟩ ⟨1, 0⟩) nofun nofun
    (Store.holds_ofBindings (by decide)) (Store.holds_ofBindings (by decide)) (hd _ _)
    (Store.sample_treesOf rfl rfl rfl rfl) (fun h => by cases h₁.symm.trans h)
    fun h => by cases h₂.symm.trans h

end TypeCalculus
