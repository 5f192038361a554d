import TypeCalculus.Proofs.Store.Unions

/-!
Taking a type apart and building it again. What is stored is in the normal form that the ways to make
a type lead to, so from the parts of a type they come back to its handle, and add nothing. The other
way round, a templatised type is made with the base and the arguments that it is then found to have.
-/

namespace TypeCalculus

theorem normalize_eq_self {α : Type} [Ord α] [Std.TransOrd α] [Std.LawfulEqOrd α] {as : List α}
    (h : as.Pairwise fun a b => compare a b = .lt) : normalize as = as :=
  eq_of_pairwise_lt (pairwise_normalize as) h fun _ => mem_normalize

namespace Store

variable {s : Store} {t b : TypeId} {ms args : List TypeId} {shape : Shape}

theorem members_of_union (hs : s.shape t = .ok (.union ms)) : s.members t = .ok ms :=
  bind_eq_ok_iff.2 ⟨_, hs, rfl⟩

theorem args_of_applied (hs : s.shape t = .ok (.applied b args)) : s.args t = .ok args :=
  bind_eq_ok_iff.2 ⟨_, hs, rfl⟩

theorem base?_eq_some_iff : s.base? t = .ok (some b) ↔ ∃ args, s.shape t = .ok (.applied b args) := by
  simp only [base?, bind_eq_ok_iff, pure_eq_ok_iff]
  constructor
  · rintro ⟨shape, hs, hb⟩
    cases shape with
    | applied base args =>
      cases hb
      exact ⟨args, hs⟩
    | unknown | all | empty | named | union => cases hb
  · rintro ⟨args, hs⟩
    exact ⟨_, hs, rfl⟩

/-- Base and arguments together are all there is to a templatised type. -/
theorem shape_of_base?_of_args (hb : s.base? t = .ok (some b)) (ha : s.args t = .ok args) :
    s.shape t = .ok (.applied b args) := by
  obtain ⟨args', hs⟩ := base?_eq_some_iff.1 hb
  cases (args_of_applied hs).symm.trans ha
  exact hs

/-- What a union in normal form has as its members: nominal types, templatised or not. -/
def IsAtom (s : Store) (t : TypeId) : Prop := s.kind t = .ok .named ∨ s.kind t = .ok .applied

theorem IsAtom.members_eq (h : s.IsAtom t) : s.members t = .ok [t] := by
  rcases h with h | h
  all_goals
    obtain ⟨shape, hs, hk⟩ := kind_eq_ok_iff.1 h
    refine bind_eq_ok_iff.2 ⟨shape, hs, ?_⟩
    cases shape <;> cases hk
    rfl

theorem IsAtom.eq_of_kind (h : s.IsAtom t) {kind : Kind} (hk : s.kind t = .ok kind) :
    kind = .named ∨ kind = .applied :=
  h.imp (fun h => Except.ok.inj (hk.symm.trans h)) (fun h => Except.ok.inj (hk.symm.trans h))

namespace WellFormed

theorem intern_of_shape (h : s.WellFormed) (hs : s.shape t = .ok shape) :
    Store.intern shape s = .ok t s := by
  unfold Store.intern
  rw [h.directory.2 hs]

theorem kind_unknown (h : s.WellFormed) : s.kind .unknown = .ok .unknown :=
  kind_eq_ok_iff.2 ⟨_, h.unknown.2 rfl, rfl⟩

theorem kind_all (h : s.WellFormed) : s.kind .all = .ok .all :=
  kind_eq_ok_iff.2 ⟨_, h.all.2 rfl, rfl⟩

theorem not_isAtom_unknown (h : s.WellFormed) : ¬s.IsAtom .unknown := by
  intro ha
  rcases ha.eq_of_kind h.kind_unknown with hk | hk <;> cases hk

theorem not_isAtom_all (h : s.WellFormed) : ¬s.IsAtom .all := by
  intro ha
  rcases ha.eq_of_kind h.kind_all with hk | hk <;> cases hk

theorem flatten?_of_atoms (h : s.WellFormed) (hms : ∀ m ∈ ms, s.IsAtom m) :
    s.flatten? ms = .ok (some ms) := by
  induction ms with
  | nil => rfl
  | cons m ms ih =>
    obtain ⟨hm, hms⟩ := List.forall_mem_cons.1 hms
    have hu : m ≠ .unknown := by
      rintro rfl
      exact h.not_isAtom_unknown hm
    simp [flatten?, hu, hm.members_eq, ih hms, bind, Except.bind, pure, Except.pure]

/-- The union of nominal types that are in ascending order is that of a stored union. -/
theorem union_of_atoms (h : s.WellFormed) (hms : ∀ m ∈ ms, s.IsAtom m) (hlt : ms.Pairwise (· < ·)) :
    Store.union ms s = match ms with
      | [] => .ok .empty s
      | [t] => .ok t s
      | members => Store.intern (.union members) s := by
  have hall : TypeId.all ∉ ms := fun hmem => h.not_isAtom_all (hms _ hmem)
  have hself : normalize ms = ms := normalize_eq_self (hlt.imp TypeId.compare_eq_lt.2)
  have hflat := h.flatten?_of_atoms hms
  rcases ms with _ | ⟨m, _ | ⟨m', rest⟩⟩ <;> simp only [union_eq, hflat, if_neg hall, hself]

theorem union_of_isAtom (h : s.WellFormed) (ht : s.IsAtom t) : Store.union [t] s = .ok t s :=
  h.union_of_atoms (List.forall_mem_singleton.2 ht) (List.pairwise_singleton _ t)

theorem union_members (h : s.WellFormed) (hs : s.shape t = .ok shape) :
    ∃ ms, s.members t = .ok ms ∧ Store.union ms s = .ok t s := by
  cases shape with
  | unknown =>
    obtain rfl := h.unknown.1 hs
    exact ⟨[.unknown], bind_eq_ok_iff.2 ⟨_, hs, rfl⟩, rfl⟩
  | all =>
    obtain rfl := h.all.1 hs
    have hms : s.members .all = .ok [.all] := bind_eq_ok_iff.2 ⟨_, hs, rfl⟩
    have hne : TypeId.all ≠ .unknown := by decide
    have hflat : s.flatten? [.all] = .ok (some [.all]) := by
      simp [flatten?, hms, hne, bind, Except.bind, pure, Except.pure]
    refine ⟨[.all], hms, ?_⟩
    rw [union_eq, hflat]
    exact if_pos (List.mem_singleton.2 rfl)
  | empty =>
    obtain rfl := h.empty.1 hs
    exact ⟨[], bind_eq_ok_iff.2 ⟨_, hs, rfl⟩, h.union_of_atoms (List.forall_mem_nil _) .nil⟩
  | named name =>
    have ht : s.IsAtom t := .inl (kind_eq_ok_iff.2 ⟨_, hs, rfl⟩)
    exact ⟨[t], ht.members_eq, h.union_of_isAtom ht⟩
  | applied base args =>
    have ht : s.IsAtom t := .inr (kind_eq_ok_iff.2 ⟨_, hs, rfl⟩)
    exact ⟨[t], ht.members_eq, h.union_of_isAtom ht⟩
  | union ms =>
    obtain ⟨hlen, hlt, hms⟩ := h.normal hs
    refine ⟨ms, members_of_union hs, ?_⟩
    rw [h.union_of_atoms hms hlt]
    -- A stored union has two members at least, so the cases before are not met.
    rcases ms with _ | ⟨m, _ | ⟨m', rest⟩⟩
    · simp at hlen
    · simp at hlen
    · exact h.intern_of_shape hs

theorem applied_of_named (hb : s.kind b = .ok .named) (hargs : args ≠ []) :
    Store.applied b args s = Store.intern (.applied b args) s := by
  rw [applied_eq, if_neg (mt List.isEmpty_iff.1 hargs), hb]
  rfl

/-- Storing a shape whose parts are there: afterwards the shape is found at the handle. -/
theorem intern_ends (h : s.WellFormed) (hn : s.Normal shape)
    (hparts : ∀ part ∈ shape.parts, part.index < s.size) :
    Ends (fun t s' => s'.WellFormed ∧ s'.shape t = .ok shape) (Store.intern shape s) := by
  have hwf := h.intern hn
  rcases intern_cases shape s with ⟨t, ht, hr⟩ | ⟨traits, -, -, hr⟩ | ⟨f, hf, -⟩ | hr
  · rw [hr]
    exact ⟨h, h.directory.1 ht⟩
  · rw [hr] at hwf ⊢
    exact ⟨hwf, shape_push_iff.2 (.inr ⟨rfl, rfl⟩)⟩
  · obtain ⟨traits, htraits⟩ := exists_traitsOf_iff.2 hparts
    cases htraits.symm.trans hf
  · rw [hr]
    refine ⟨rfl, Nat.le_of_not_lt fun hroom => ?_⟩
    obtain ⟨t, s', hok⟩ := exists_intern_of_room hroom hparts
    cases hr.symm.trans hok

end WellFormed

/-- The parts of `t`, put together again, are `t`, and nothing is added to the store. -/
structure Rebuilds (s : Store) (t : TypeId) : Prop where
  union : ∃ ms, s.members t = .ok ms ∧ Store.union ms s = .ok t s
  applied : ∀ b, s.base? t = .ok (some b) →
    ∃ args, s.args t = .ok args ∧ Store.applied b args s = .ok t s
  named : ∀ name, s.shape t = .ok (.named name) → Store.named name s = .ok t s

theorem WellFormed.rebuilds (h : s.WellFormed) (ht : t.index < s.size) : s.Rebuilds t := by
  obtain ⟨shape, hs⟩ := exists_shape_of_lt_size ht
  refine ⟨h.union_members hs, fun b hb => ?_, fun name hs => h.intern_of_shape hs⟩
  obtain ⟨args, hs⟩ := base?_eq_some_iff.1 hb
  obtain ⟨hnamed, hargs⟩ := h.normal hs
  refine ⟨args, args_of_applied hs, ?_⟩
  rw [WellFormed.applied_of_named hnamed hargs]
  exact h.intern_of_shape hs

/-- `t` has this base and these arguments, and no other type has both. -/
structure OnlyApplied (b : TypeId) (args : List TypeId) (t : TypeId) (s : Store) : Prop where
  base_eq : s.base? t = .ok (some b)
  args_eq : s.args t = .ok args
  only : ∀ u, s.base? u = .ok (some b) → s.args u = .ok args → u = t

theorem WellFormed.onlyApplied (h : s.WellFormed) (hs : s.shape t = .ok (.applied b args)) :
    OnlyApplied b args t s where
  base_eq := base?_eq_some_iff.2 ⟨args, hs⟩
  args_eq := args_of_applied hs
  only _ hbase hargs := h.eq_of_shape (shape_of_base?_of_args hbase hargs) hs

/-- Each type comes back from its parts, and the store stays as it is. A nominal type with arguments
has this base and these arguments in their order, and is the only type that has both. -/
theorem Reachable.comes_back_from_parts (h : s.Reachable) :
    (∀ t : TypeId, t.index < s.size → s.Rebuilds t) ∧
      ∀ (b : TypeId) (args : List TypeId), s.kind b = .ok .named → args ≠ [] →
        (∀ a ∈ args, a.index < s.size) → Ends (OnlyApplied b args) (Store.applied b args s) := by
  have hwf := h.wellFormed
  refine ⟨fun t ht => hwf.rebuilds ht, fun b args hb hargs hlt => ?_⟩
  obtain ⟨shape, hs, -⟩ := kind_eq_ok_iff.1 hb
  obtain ⟨traits, he⟩ := shape_eq_ok_iff.1 hs
  have hparts : ∀ part ∈ (Shape.applied b args).parts, part.index < s.size :=
    List.forall_mem_cons.2 ⟨lt_size_of_entry he, hlt⟩
  have hn : s.Normal (.applied b args) := ⟨hb, hargs⟩
  rw [WellFormed.applied_of_named hb hargs]
  refine (hwf.intern_ends hn hparts).imp fun t s' ht => ?_
  exact ht.1.onlyApplied ht.2

/-- `(B|A<?>)` comes back from its members, and is then an argument of `A`. -/
theorem sampleTypes_comes_back_from_parts : sampleTypes.Rebuilds ⟨8⟩ ∧
    Ends (OnlyApplied ⟨3⟩ [⟨8⟩, .unknown]) (Store.applied ⟨3⟩ [⟨8⟩, .unknown] sampleTypes) := by
  obtain ⟨hback, hforth⟩ := sampleTypes_reachable.comes_back_from_parts
  exact ⟨hback ⟨8⟩ (by decide), hforth ⟨3⟩ _ rfl (by simp) (by decide)⟩

end Store

end TypeCalculus
