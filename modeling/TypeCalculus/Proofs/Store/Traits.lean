import Mathlib.Logic.Relation
import TypeCalculus.Proofs.Store.Building

/-!
The traits of a type are exact, although they are computed only once, from the traits of the parts.
They tell its kind, and they tell whether `?` can be come to from it by way of parts.
-/

namespace TypeCalculus

/-- The traits are those of a type of this kind, which mentions `?` or does not. -/
structure Traits.Tell (traits : Traits) (kind : Kind) (mentions : Prop) : Prop where
  isSentinel : traits.isSentinel = true ↔ kind = .unknown ∨ kind = .all ∨ kind = .empty
  isNamed : traits.isNamed = true ↔ kind = .named
  isUnion : traits.isUnion = true ↔ kind = .union
  isApplied : traits.isApplied = true ↔ kind = .applied
  mentionsUnknown : traits.mentionsUnknown = true ↔ mentions

theorem Traits.tell_ofKind (kind : Kind) {mentionsUnknown : Bool} {mentions : Prop}
    (h : mentionsUnknown = true ↔ mentions) :
    ({ ofKind kind with mentionsUnknown } : Traits).Tell kind mentions := by
  cases kind <;> exact ⟨by simp [ofKind, none], by simp [ofKind, none], by simp [ofKind, none],
    by simp [ofKind, none], h⟩

theorem Traits.mentionsUnknown_ofKind {kind : Kind} :
    (ofKind kind).mentionsUnknown = true ↔ kind = .unknown := by
  cases kind <;> simp [ofKind, none]

namespace Store

variable {s : Store} {t whole part : TypeId} {e : Entry}

/-- `part` is a member of the type `whole`, or its base, or one of its arguments. -/
inductive HasPart (s : Store) : TypeId → TypeId → Prop where
  | member {whole members part} : s.shape whole = .ok (.union members) → part ∈ members →
      HasPart s whole part
  | base {whole base args} : s.shape whole = .ok (.applied base args) → HasPart s whole base
  | arg {whole base args part} : s.shape whole = .ok (.applied base args) → part ∈ args →
      HasPart s whole part

theorem hasPart_iff {shape : Shape} (hs : s.shape whole = .ok shape) :
    s.HasPart whole part ↔ part ∈ shape.parts := by
  constructor
  · rintro (⟨hs', hm⟩ | hs' | ⟨hs', ha⟩)
    · cases hs.symm.trans hs'
      exact hm
    · cases hs.symm.trans hs'
      exact List.mem_cons_self
    · cases hs.symm.trans hs'
      exact List.mem_cons_of_mem _ ha
  · intro hp
    cases shape with
    | unknown | all | empty | named => cases hp
    | union members => exact .member hs hp
    | applied base args =>
      rcases List.mem_cons.1 hp with rfl | hp
      · exact .base hs
      · exact .arg hs hp

theorem HasPart.exists_entry (h : s.HasPart whole part) : ∃ e, s.entry whole = .ok e := by
  cases h with
  | member hs | base hs | arg hs =>
    obtain ⟨traits, he⟩ := shape_eq_ok_iff.1 hs
    exact ⟨_, he⟩

namespace WellFormed

/-- The traits of a type are flagged for `?` itself or for one of the parts. -/
theorem flagged_iff_exists_part (h : s.WellFormed) (he : s.entry t = .ok e) :
    s.Flagged t ↔ t = .unknown ∨ ∃ part, s.HasPart t part ∧ s.Flagged part := by
  have hs : s.shape t = .ok e.shape := shape_eq_ok_iff.2 ⟨e.traits, he⟩
  have htraits : s.traits t = .ok e.traits := bind_eq_ok_iff.2 ⟨e, he, rfl⟩
  have hunknown : e.shape.kind = .unknown ↔ t = .unknown := by
    rw [← h.unknown, hs, Except.ok.injEq]
    cases e.shape <;> simp [Shape.kind]
  rw [flagged_iff_of_traits htraits, (traitsOf_spec (h.traits he)).2, Traits.mentionsUnknown_ofKind,
    hunknown]
  simp only [hasPart_iff hs]

theorem flagged_unknown (h : s.WellFormed) : s.Flagged .unknown :=
  (h.flagged_iff h.reads_unknown).2 .unknown

theorem flagged_iff_leads (h : s.WellFormed) (ht : t.index < s.size) :
    s.Flagged t ↔ Relation.ReflTransGen s.HasPart t .unknown := by
  constructor
  · intro hflagged
    induction t using h.induction with
    | step t ih =>
      obtain ⟨e, he⟩ := exists_entry_of_lt_size ht
      have hs : s.shape t = .ok e.shape := shape_eq_ok_iff.2 ⟨e.traits, he⟩
      rcases (h.flagged_iff_exists_part he).1 hflagged with rfl | ⟨part, hpart, hflagged⟩
      · exact .refl
      · have hp : part ∈ e.shape.parts := (hasPart_iff hs).1 hpart
        have hlt : part.index < s.size := Nat.lt_trans (h.parts_lt hs part hp) ht
        exact .head hpart (ih _ hs part hp hlt hflagged)
  · intro hleads
    clear ht
    induction hleads using Relation.ReflTransGen.head_induction_on with
    | refl => exact h.flagged_unknown
    | head hpart _ ih =>
      obtain ⟨e, he⟩ := hpart.exists_entry
      exact (h.flagged_iff_exists_part he).2 (.inr ⟨_, hpart, ih⟩)

end WellFormed

/-- The traits of every type tell its kind and whether it mentions `?`, which it does if and only if `?`
is the type itself or is come to by members, bases and arguments. -/
theorem Reachable.traits_exact (h : s.Reachable) (ht : t.index < s.size) :
    ∃ traits kind T, s.traits t = .ok traits ∧ s.kind t = .ok kind ∧ s.tree t = .ok T ∧
      traits.Tell kind T.MentionsUnknown ∧
      (T.MentionsUnknown ↔ Relation.ReflTransGen s.HasPart t .unknown) := by
  have hwf := h.wellFormed
  obtain ⟨e, he⟩ := exists_entry_of_lt_size ht
  obtain ⟨T, hT⟩ := hwf.exists_reads t ht
  have htraits : s.traits t = .ok e.traits := bind_eq_ok_iff.2 ⟨e, he, rfl⟩
  have hkind : s.kind t = .ok e.shape.kind := kind_eq_ok_iff.2 ⟨_, shape_eq_ok_iff.2 ⟨_, he⟩, rfl⟩
  have hflagged : s.Flagged t ↔ T.MentionsUnknown := hwf.flagged_iff hT
  refine ⟨e.traits, e.shape.kind, T, htraits, hkind, hT, ?_, ?_⟩
  · rw [(traitsOf_spec (hwf.traits he)).1]
    exact Traits.tell_ofKind _ ((flagged_iff_of_traits htraits).symm.trans hflagged)
  · rw [← hflagged]
    exact hwf.flagged_iff_leads ht

/-- `?` is come to from `(B|A<?>)` by way of a member that has it as an argument. -/
theorem sampleTypes_traits_exact : ∃ traits kind T, sampleTypes.traits ⟨8⟩ = .ok traits ∧
    sampleTypes.kind ⟨8⟩ = .ok kind ∧ sampleTypes.tree ⟨8⟩ = .ok T ∧
      traits.Tell kind T.MentionsUnknown ∧
      (T.MentionsUnknown ↔ Relation.ReflTransGen sampleTypes.HasPart ⟨8⟩ .unknown) :=
  sampleTypes_reachable.traits_exact (by decide)

end Store

end TypeCalculus
