import TypeCalculus.Proofs.Store.Reading

/-!
Making types, seen on trees. The traits of a type tell what its tree is like; the union of stored
types has the union of their trees as its tree, and likewise for templatised types.
-/

namespace TypeCalculus

namespace Tree

theorem mentionsUnknown_union_iff {members : List Tree} :
    MentionsUnknown (union members) ↔ ∃ m ∈ members, MentionsUnknown m := by
  constructor
  · rintro (_ | ⟨hm, h⟩)
    exact ⟨_, hm, h⟩
  · rintro ⟨m, hm, h⟩
    exact .member hm h

theorem mentionsUnknown_applied_iff {base : Tree} {args : List Tree} :
    MentionsUnknown (applied base args) ↔ ∃ part ∈ base :: args, MentionsUnknown part := by
  constructor
  · rintro (_ | _ | h | ⟨ha, h⟩)
    · exact ⟨base, List.mem_cons_self, h⟩
    · exact ⟨_, List.mem_cons_of_mem _ ha, h⟩
  · rintro ⟨part, hp, h⟩
    rcases List.mem_cons.1 hp with rfl | hp
    · exact .base h
    · exact .arg hp h

end Tree

namespace Store

variable {s s' : Store} {t : TypeId} {T : Tree} {shape : Shape} {traits : Traits}

/-- The type is known to mention `?`. -/
def Flagged (s : Store) (t : TypeId) : Prop :=
  ∃ traits, s.traits t = .ok traits ∧ traits.mentionsUnknown = true

theorem flagged_iff_of_traits (ht : s.traits t = .ok traits) :
    s.Flagged t ↔ traits.mentionsUnknown = true := by
  constructor
  · rintro ⟨traits', ht', hm⟩
    cases ht.symm.trans ht'
    exact hm
  · exact fun hm => ⟨traits, ht, hm⟩

/-- From its parts a type takes over that they mention `?`, and nothing else. -/
theorem foldlM_inherited {parts : List TypeId} {acc out : Traits}
    (h : parts.foldlM (fun acc part => return acc.join (← s.traits part).inherited) acc = .ok out) :
    out = { acc with mentionsUnknown := out.mentionsUnknown } ∧ (out.mentionsUnknown = true ↔
      acc.mentionsUnknown = true ∨ ∃ part ∈ parts, s.Flagged part) := by
  induction parts generalizing acc with
  | nil =>
    cases h
    simp
  | cons first rest ih =>
    rw [List.foldlM_cons] at h
    obtain ⟨acc', hacc, h⟩ := bind_eq_ok_iff.1 h
    obtain ⟨traits, ht, hacc⟩ := bind_eq_ok_iff.1 hacc
    cases hacc
    rw [Traits.join_inherited] at h
    obtain ⟨hout, hmentions⟩ := ih h
    have hfirst : s.Flagged first ↔ traits.mentionsUnknown = true := flagged_iff_of_traits ht
    exact ⟨hout, by simp [hmentions, hfirst, or_assoc]⟩

theorem traitsOf_spec (h : s.traitsOf shape = .ok traits) :
    traits = { Traits.ofKind shape.kind with mentionsUnknown := traits.mentionsUnknown } ∧
      (traits.mentionsUnknown = true ↔ (Traits.ofKind shape.kind).mentionsUnknown = true ∨
        ∃ part ∈ shape.parts, s.Flagged part) :=
  foldlM_inherited h

namespace WellFormed

theorem reads_traits (h : s.WellFormed) (ht : s.Reads t T) : ∃ traits, s.traits t = .ok traits ∧
    traits.isApplied = T.isApplied ∧ (traits.mentionsUnknown = true ↔ T.MentionsUnknown) := by
  induction t using h.induction generalizing T with
  | step t ih =>
    obtain ⟨shape, hs, hT⟩ := h.reads_iff.1 ht
    obtain ⟨traits, he⟩ := shape_eq_ok_iff.1 hs
    obtain ⟨hkind, hmentions⟩ := traitsOf_spec (h.traits he)
    have happlied := congrArg Traits.isApplied hkind
    have hpart : ∀ part ∈ shape.parts, ∀ P, s.Reads part P →
        (s.Flagged part ↔ P.MentionsUnknown) := by
      intro part hp P hP
      obtain ⟨traits', ht', -, hm⟩ := ih shape hs part hp hP
      exact (flagged_iff_of_traits ht').trans hm
    refine ⟨traits, bind_eq_ok_iff.2 ⟨_, he, rfl⟩, happlied.trans ?_, hmentions.trans ?_⟩
    · cases shape with
      | unknown | all | empty | named =>
        cases hT
        rfl
      | union members =>
        obtain ⟨Ts, -, rfl⟩ := hT
        rfl
      | applied base args =>
        obtain ⟨B, As, -, -, rfl⟩ := hT
        rfl
    · cases shape with
      | unknown =>
        cases hT
        exact iff_of_true (.inl rfl) .unknown
      | all | empty | named =>
        cases hT
        exact iff_of_false (by simp [Traits.ofKind, Shape.kind, Shape.parts, Traits.none]) (by rintro ⟨⟩)
      | union members =>
        obtain ⟨Ts, hTs, rfl⟩ := hT
        have hflags := exists_mem_iff_of_forall₂ hTs hpart
        simp [Tree.mentionsUnknown_union_iff, ← hflags, Traits.ofKind, Shape.kind, Shape.parts,
          Traits.none]
      | applied base args =>
        obtain ⟨B, As, hB, hAs, rfl⟩ := hT
        have hflags := exists_mem_iff_of_forall₂ (List.Forall₂.cons hB hAs) hpart
        simp only [Tree.mentionsUnknown_applied_iff, ← hflags]
        simp [Traits.ofKind, Shape.kind, Shape.parts, Traits.none]

theorem flagged_iff (h : s.WellFormed) (ht : s.Reads t T) : s.Flagged t ↔ T.MentionsUnknown := by
  obtain ⟨traits, htraits, -, hm⟩ := h.reads_traits ht
  exact (flagged_iff_of_traits htraits).trans hm

theorem part_lt_size_of_spells (h : s.WellFormed) (hT : shape.Spells s.Reads T) :
    ∀ part ∈ shape.parts, part.index < s.size := by
  intro part hp
  cases shape with
  | unknown | all | empty | named => cases hp
  | union members =>
    obtain ⟨Ts, hTs, -⟩ := hT
    obtain ⟨P, -, hr⟩ := exists_mem_right hTs hp
    exact h.lt_size_of_reads hr
  | applied base args =>
    obtain ⟨B, As, hB, hAs, -⟩ := hT
    obtain ⟨P, -, hr⟩ := exists_mem_right (List.Forall₂.cons hB hAs) hp
    exact h.lt_size_of_reads hr

end WellFormed

theorem exists_intern_of_room (hroom : s.size < capacity)
    (hparts : ∀ part ∈ shape.parts, part.index < s.size) :
    ∃ t s', Store.intern shape s = .ok t s' := by
  obtain ⟨traits, htraits⟩ := exists_traitsOf_iff.2 hparts
  unfold Store.intern
  split
  · exact ⟨_, _, rfl⟩
  · rw [if_pos hroom, htraits]
    exact ⟨_, _, rfl⟩

theorem exists_applied_of_room {b : TypeId} {as : List TypeId} (hroom : s.size < capacity)
    (hparts : ∀ part ∈ b :: as, part.index < s.size) :
    ∃ t s', Store.applied b as s = .ok t s' := by
  rw [applied_eq]
  split
  · exact ⟨_, _, rfl⟩
  · obtain ⟨shape, hs⟩ := exists_shape_of_lt_size (hparts b List.mem_cons_self)
    have hk : s.kind b = .ok shape.kind := bind_eq_ok_iff.2 ⟨shape, hs, rfl⟩
    rw [hk]
    dsimp only
    split
    · exact exists_intern_of_room hroom hparts
    · exact ⟨_, _, rfl⟩

/-- The outcome of making a type whose tree is to be `T`: there may be no room for it. -/
def Makes (T : Tree) : EStateM.Result Fault Store TypeId → Prop
  | .ok t s' => s'.Reads t T
  | .error f _ => f = .storeFull

namespace WellFormed

theorem makes_intern (h : s.WellFormed) (hn : s.Normal shape) (hT : shape.Spells s.Reads T) :
    Makes T (Store.intern shape s) := by
  have hwf := h.intern hn
  obtain ⟨traits, htraits⟩ := exists_traitsOf_iff.2 (h.part_lt_size_of_spells hT)
  rcases intern_cases shape s with ⟨t, ht, hr⟩ | ⟨traits, hnew, -, hr⟩ | ⟨f, hf, -⟩ | hr
  · rw [hr]
    exact h.reads_iff.2 ⟨shape, h.directory.1 ht, hT⟩
  · rw [hr] at hwf ⊢
    have hle : s ≤ s.push ⟨shape, traits⟩ := le_push hnew
    have hs : (s.push ⟨shape, traits⟩).shape ⟨s.size⟩ = .ok shape :=
      shape_push_iff.2 (.inr ⟨rfl, rfl⟩)
    have hT' := hT.mono fun part P hP => hP.mono hle
    exact hwf.reads_iff.2 ⟨shape, hs, hT'⟩
  · cases htraits.symm.trans hf
  · rw [hr]
    rfl

theorem reads_flatten (h : s.WellFormed) {ts : List TypeId} {Ts : List Tree}
    (hTs : List.Forall₂ s.Reads ts Ts) :
    Tree.unknown ∈ Ts ∧ s.flatten? ts = .ok none ∨
      Tree.unknown ∉ Ts ∧ ∃ flat Fs, s.flatten? ts = .ok (some flat) ∧
        List.Forall₂ s.Reads flat Fs ∧ Fs.Perm (Ts.flatMap Tree.members) := by
  induction hTs with
  | nil => exact .inr ⟨List.not_mem_nil, [], [], rfl, .nil, .refl _⟩
  | @cons t T ts Ts ht _ ih =>
    by_cases hu : t = .unknown
    · have hT : T = .unknown := (h.eq_iff ht h.reads_unknown).1 hu
      refine .inl ⟨hT ▸ List.mem_cons_self, ?_⟩
      simp [flatten?, hu, pure, Except.pure]
    · have hT : T ≠ .unknown := fun hT => hu ((h.eq_iff ht h.reads_unknown).2 hT)
      obtain ⟨ms, Ms, hms, hMs, hperm⟩ := h.reads_members ht
      rcases ih with ⟨hmem, hf⟩ | ⟨hmem, flat, Fs, hf, hFs, hrest⟩
      · refine .inl ⟨List.mem_cons_of_mem _ hmem, ?_⟩
        simp [flatten?, hu, hms, hf, bind, Except.bind, pure, Except.pure]
      · refine .inr ⟨by simp [hmem, Ne.symm hT], ms ++ flat, Ms ++ Fs, ?_, ?_, ?_⟩
        · simp [flatten?, hu, hms, hf, bind, Except.bind, pure, Except.pure]
        · exact List.rel_append hMs hFs
        · exact hperm.append hrest

/-- Bringing handles in order and dropping repetitions does the same to their trees, but for the
order. -/
theorem reads_normalize (h : s.WellFormed) {ts : List TypeId} {Ts : List Tree}
    (hTs : List.Forall₂ s.Reads ts Ts) :
    ∃ Ns, List.Forall₂ s.Reads (normalize ts) Ns ∧ Ns.Perm (normalize Ts) := by
  obtain ⟨Ns, hNs⟩ := exists_forall₂_of_subset hTs fun t ht => mem_normalize.1 ht
  have hnodup : Ns.Nodup :=
    (List.rel_nodup h.reads_biUnique hNs).1 (nodup_of_pairwise_lt (pairwise_normalize ts))
  have hnodup' : (normalize Ts).Nodup := nodup_of_pairwise_lt (pairwise_normalize Ts)
  refine ⟨Ns, hNs, (List.perm_ext_iff_of_nodup hnodup hnodup').2 fun T => ?_⟩
  rw [mem_normalize]
  constructor
  · intro hT
    obtain ⟨t, ht, hr⟩ := exists_mem_left hNs hT
    exact (List.rel_mem h.reads_biUnique hr hTs).1 (mem_normalize.1 ht)
  · intro hT
    obtain ⟨t, ht, hr⟩ := exists_mem_left hTs hT
    exact (List.rel_mem h.reads_biUnique hr hNs).1 (mem_normalize.2 ht)

theorem makes_union (h : s.WellFormed) {ts : List TypeId} {Ts : List Tree}
    (hTs : List.Forall₂ s.Reads ts Ts) : Makes (Tree.join Ts) (Store.union ts s) := by
  rw [union_eq]
  rcases h.reads_flatten hTs with ⟨hu, hf⟩ | ⟨hu, flat, Fs, hf, hFs, hperm⟩
  · rw [hf, Tree.join, if_pos hu]
    exact h.reads_unknown
  · have hall : TypeId.all ∈ flat ↔ Tree.all ∈ Ts.flatMap Tree.members :=
      (List.rel_mem h.reads_biUnique h.reads_all hFs).trans hperm.mem_iff
    rw [hf]
    dsimp only
    split
    · rename_i hmem
      rw [Tree.join, if_neg hu, if_pos (hall.1 hmem)]
      exact h.reads_all
    · rename_i hnone
      obtain ⟨Ns, hNs, hNperm⟩ := h.reads_normalize hFs
      rw [normalize_congr fun T => hperm.mem_iff] at hNperm
      rw [Tree.join, if_neg hu, if_neg (mt hall.2 hnone), ← Tree.ofMembers_perm hNperm]
      have hnormal := h.normal_union hf hnone
      -- Handles and trees may be in different orders; only how many there are decides the case.
      generalize normalize flat = ms at hNs hnormal
      cases hNs with
      | nil => exact h.reads_empty
      | cons hm hMs =>
        cases hMs with
        | nil => exact hm
        | cons hm' hMs => exact h.makes_intern (hnormal (by simp)) ⟨_, .cons hm (.cons hm' hMs), rfl⟩

theorem exists_union_of_room (h : s.WellFormed) {ts : List TypeId} {Ts : List Tree}
    (hTs : List.Forall₂ s.Reads ts Ts) (hroom : s.size < capacity) :
    ∃ u s', Store.union ts s = .ok u s' := by
  rw [union_eq]
  rcases h.reads_flatten hTs with ⟨-, hf⟩ | ⟨-, flat, Fs, hf, hFs, -⟩
  · rw [hf]
    exact ⟨_, _, rfl⟩
  · have hflat : ∀ m ∈ normalize flat, m.index < s.size := by
      intro m hm
      obtain ⟨M, -, hr⟩ := exists_mem_right hFs (mem_normalize.1 hm)
      exact h.lt_size_of_reads hr
    rw [hf]
    dsimp only
    split
    · exact ⟨_, _, rfl⟩
    · split
      · exact ⟨_, _, rfl⟩
      · exact ⟨_, _, rfl⟩
      · exact exists_intern_of_room hroom hflat

theorem makes_applied (h : s.WellFormed) {b : TypeId} {B : Tree} {as : List TypeId} {As : List Tree}
    (hB : s.Reads b B) (hAs : List.Forall₂ s.Reads as As) :
    Makes (B.apply As) (Store.applied b as s) := by
  obtain ⟨kind, hk, hnamed, -⟩ := h.reads_kind hB
  rw [applied_eq, hk]
  cases hAs with
  | nil =>
    have happly : B.apply [] = B := by simp [Tree.apply]
    rw [happly]
    exact hB
  | @cons a A as As hA hAs =>
    by_cases hn : kind = .named
    · have happly : B.apply (A :: As) = .applied B (A :: As) := by
        simp [Tree.apply, hnamed.1 hn]
      simp only [List.isEmpty_cons, Bool.false_eq_true, if_false, hn, if_true, happly]
      exact h.makes_intern ⟨hn ▸ hk, List.cons_ne_nil a as⟩ ⟨B, _, hB, .cons hA hAs, rfl⟩
    · have happly : B.apply (A :: As) = B := by
        simp [Tree.apply, mt hnamed.2 hn]
      simp only [List.isEmpty_cons, Bool.false_eq_true, if_false, hn, happly]
      exact hB

end WellFormed

end Store

end TypeCalculus
