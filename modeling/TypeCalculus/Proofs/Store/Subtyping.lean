import TypeCalculus.Proofs.Store.Building

/-!
The subtype test on stored types decides the subtype rules on their trees. The rules may be used in
any order; on trees in normal form only one of them can apply at a time.
-/

namespace TypeCalculus

namespace Tree

/-- Trees that can be members of a union: nominal types, with or without arguments. -/
inductive Atom : Tree → Prop where
  | named (name) : Atom (named name)
  | applied (name args) : Atom (applied (named name) args)

/-- The trees of stored types. -/
inductive Normal : Tree → Prop where
  | unknown : Normal unknown
  | all : Normal all
  | empty : Normal empty
  | atom {a} : Atom a → Normal a
  | union {members} : members ≠ [] → (∀ m ∈ members, Atom m) → Normal (union members)

/-- No rule that looks at one tree alone relates the two. -/
def Plain (a b : Tree) : Prop :=
  a ≠ b ∧ b ≠ all ∧ b ≠ unknown ∧ a ≠ unknown ∧ a ≠ empty ∧ a ≠ all ∧ b ≠ empty

theorem Matches.eq_of_not_mentionsUnknown {a b : Tree} (h : Matches a b) (ha : ¬a.MentionsUnknown)
    (hb : ¬b.MentionsUnknown) : a = b := by
  induction h with
  | refl a => rfl
  | unknown_left b => exact absurd .unknown ha
  | unknown_right a => exact absurd .unknown hb
  | @applied base as bs hl _ ih =>
    have hargs : List.Forall₂ Eq as bs := by
      refine List.forall₂_iff_zip.2 ⟨hl, fun {a b} hp => ?_⟩
      have hmem := List.of_mem_zip hp
      exact ih (a, b) hp (fun hm => ha (.arg hmem.1 hm)) fun hm => hb (.arg hmem.2 hm)
    rw [List.forall₂_eq_eq_eq] at hargs
    rw [hargs]

theorem Matches.exists_applied {a b : Tree} (h : Matches a b) (hne : a ≠ b)
    (ha : a ≠ Tree.unknown) (hb : b ≠ Tree.unknown) :
    ∃ base as bs, a = Tree.applied base as ∧ b = Tree.applied base bs := by
  cases h with
  | refl => exact absurd rfl hne
  | unknown_left => exact absurd rfl ha
  | unknown_right => exact absurd rfl hb
  | applied => exact ⟨_, _, _, rfl, rfl⟩

theorem matches_applied_iff {base base' : Tree} {as bs : List Tree} :
    Matches (applied base as) (applied base' bs) ↔
      base = base' ∧ as.length = bs.length ∧ ∀ p ∈ as.zip bs, Matches p.1 p.2 := by
  constructor
  · intro h
    cases h with
    | refl =>
      have hsame := List.forall₂_iff_zip.1 (List.forall₂_same.2 fun a (_ : a ∈ as) => Matches.refl a)
      exact ⟨rfl, rfl, fun p hp => hsame.2 hp⟩
    | applied hl h => exact ⟨rfl, hl, h⟩
  · rintro ⟨rfl, hl, h⟩
    exact .applied hl h

theorem Atom.not_below_empty {a : Tree} (ha : a.Atom) : ¬Below a Tree.empty := by
  intro h
  cases ha <;> cases h

theorem Atom.not_all_below {b : Tree} (hb : b.Atom) : ¬Below Tree.all b := by
  intro h
  cases hb <;> cases h

theorem Atom.union_below_iff {members : List Tree} {b : Tree} (hb : b.Atom) :
    Below (Tree.union members) b ↔ ∀ m ∈ members, Below m b := by
  refine ⟨fun h => ?_, .union_left⟩
  cases hb <;> cases h <;> assumption

theorem Atom.below_union_iff {a : Tree} {members : List Tree} (ha : a.Atom) :
    Below a (Tree.union members) ↔ ∃ m ∈ members, Below a m := by
  constructor
  · intro h
    cases ha <;> cases h <;> exact ⟨_, ‹_›, ‹_›⟩
  · rintro ⟨m, hm, h⟩
    exact .union_right hm h

theorem Normal.not_below_empty {a : Tree} (ha : a.Normal) (hu : a ≠ Tree.unknown)
    (he : a ≠ Tree.empty) : ¬Below a Tree.empty := by
  intro h
  cases ha with
  | unknown => exact hu rfl
  | all => cases h
  | empty => exact he rfl
  | atom ha => exact ha.not_below_empty h
  | union hne hm =>
    cases h with
    | union_left h =>
      obtain ⟨m, hmem⟩ := List.exists_mem_of_ne_nil _ hne
      exact (hm m hmem).not_below_empty (h m hmem)

theorem Normal.not_all_below {b : Tree} (hb : b.Normal) (hu : b ≠ Tree.unknown)
    (ha : b ≠ Tree.all) : ¬Below Tree.all b := by
  intro h
  cases hb with
  | unknown => exact hu rfl
  | all => exact ha rfl
  | empty => cases h
  | atom hb => exact hb.not_all_below h
  | union hne hm =>
    cases h with
    | union_right hmem h => exact (hm _ hmem).not_all_below h

theorem Normal.union_below_iff {members : List Tree} {b : Tree} (hb : b.Normal) :
    Below (Tree.union members) b ↔ ∀ m ∈ members, Below m b := by
  refine ⟨fun h m hm => ?_, .union_left⟩
  cases h with
  | refl => exact .union_right hm (.refl m)
  | all => exact .all m
  | unknown_right => exact .unknown_right m
  | union_left h => exact h m hm
  | union_right hmem h =>
    cases hb with
    | atom hb => cases hb
    | union _ hn =>
      have hmn := (hn _ hmem).union_below_iff.1 h m hm
      exact .union_right hmem hmn

theorem applied_below_named_iff {base : Tree} {args : List Tree} {name : Name} :
    Below (applied base args) (named name) ↔ base = named name := by
  constructor
  · intro h
    cases h
    rfl
  · rintro rfl
    exact .raw _ _

theorem applied_below_applied_iff {name name' : Name} {as bs : List Tree} :
    Below (applied (named name) as) (applied (named name') bs) ↔
      Matches (applied (named name) as) (applied (named name') bs) := by
  constructor
  · intro h
    cases h with
    | refl => exact .refl _
    | applied hl h => exact .applied hl h
  · intro h
    obtain ⟨heq, hl, hargs⟩ := matches_applied_iff.1 h
    cases heq
    exact .applied hl hargs

theorem Atom.not_named_below {name : Name} {b : Tree} (hb : b.Atom) (hne : Tree.named name ≠ b) :
    ¬Below (Tree.named name) b := by
  intro h
  cases hb <;> cases h
  exact hne rfl

end Tree

/-- The test comes to an answer, and it says whether `P` holds. -/
def Answers (test : Except Fault Bool) (P : Prop) : Prop := ∃ b, test = .ok b ∧ (b = true ↔ P)

namespace Answers

variable {r : Except Fault Bool} {P : Prop}

theorem yes (h : P) : Answers (.ok true) P := ⟨true, rfl, iff_of_true rfl h⟩

theorem no (h : ¬P) : Answers (.ok false) P := ⟨false, rfl, iff_of_false Bool.false_ne_true h⟩

theorem eq_true_iff (h : Answers r P) : r = .ok true ↔ P := by
  obtain ⟨b, rfl, hb⟩ := h
  rw [← hb, Except.ok.injEq]

theorem guard {c : Prop} [Decidable c] (h : Answers r P) :
    Answers (if c then r else .ok false) (c ∧ P) := by
  split
  · rename_i hc
    simpa only [hc, true_and] using h
  · rename_i hc
    exact no fun hboth => hc hboth.1

end Answers

section Lists

variable {α β : Type} {test : α → Except Fault Bool} {P : β → Prop} {as : List α} {bs : List β}

theorem allM_answers (h : List.Forall₂ (fun a b => Answers (test a) (P b)) as bs) :
    Answers (as.allM test) (∀ b ∈ bs, P b) := by
  induction h with
  | nil => exact .yes (by simp)
  | cons hab _ ih =>
    obtain ⟨holds, hr, hP⟩ := hab
    rw [List.allM, hr]
    cases holds with
    | true =>
      obtain ⟨rest, hrest, hall⟩ := ih
      exact ⟨rest, hrest, by simp [hall, hP.1 rfl]⟩
    | false => exact .no (by simp [← hP])

theorem anyM_answers (h : List.Forall₂ (fun a b => Answers (test a) (P b)) as bs) :
    Answers (as.anyM test) (∃ b ∈ bs, P b) := by
  induction h with
  | nil => exact .no (by simp)
  | cons hab _ ih =>
    obtain ⟨holds, hr, hP⟩ := hab
    rw [List.anyM, hr]
    cases holds with
    | true => exact .yes (by simp [hP.1 rfl])
    | false =>
      obtain ⟨rest, hrest, hany⟩ := ih
      exact ⟨rest, hrest, by simp [hany, ← hP]⟩

theorem forall₂_zip {γ δ : Type} {R : α → β → Prop} {Q : γ → δ → Prop} {cs : List γ} {ds : List δ}
    (h : List.Forall₂ R as bs) (h' : List.Forall₂ Q cs ds) :
    List.Forall₂ (fun p q => R p.1 q.1 ∧ Q p.2 q.2) (as.zip cs) (bs.zip ds) := by
  induction h generalizing cs ds with
  | nil => exact .nil
  | cons hr _ ih =>
    cases h' with
    | nil => exact .nil
    | cons hq h' => exact .cons ⟨hr, hq⟩ (ih h')

end Lists

namespace Store.WellFormed

variable {s : Store} {t a b : TypeId} {T A B : Tree}

theorem atom_of_kind (h : s.WellFormed) (ht : s.Reads t T)
    (hk : s.kind t = .ok .named ∨ s.kind t = .ok .applied) : T.Atom := by
  obtain ⟨shape, hs, hT⟩ := h.reads_iff.1 ht
  have hkind : s.kind t = .ok shape.kind := bind_eq_ok_iff.2 ⟨shape, hs, rfl⟩
  rw [hkind] at hk
  cases shape with
  | named name =>
    cases hT
    exact .named name
  | applied base args =>
    obtain ⟨B, As, hB, -, rfl⟩ := hT
    obtain ⟨kind, hkb, hnamed, -⟩ := h.reads_kind hB
    have hn : kind = .named := Except.ok.inj (hkb.symm.trans (h.normal hs).1)
    cases B with
    | named name => exact .applied name As
    | _ => cases hnamed.1 hn
  | unknown | all | empty | union => simp [Shape.kind] at hk

theorem atom_of_mem_union (h : s.WellFormed) {members : List TypeId}
    (hs : s.shape t = .ok (.union members)) {Ts : List Tree}
    (hTs : List.Forall₂ s.Reads members Ts) : ∀ T ∈ Ts, T.Atom := by
  intro T hT
  obtain ⟨m, hm, hr⟩ := exists_mem_left hTs hT
  exact h.atom_of_kind hr ((h.normal hs).2.2 m hm)

theorem reads_normal (h : s.WellFormed) (ht : s.Reads t T) : T.Normal := by
  obtain ⟨shape, hs, hT⟩ := h.reads_iff.1 ht
  have hkind : s.kind t = .ok shape.kind := bind_eq_ok_iff.2 ⟨shape, hs, rfl⟩
  cases shape with
  | unknown =>
    cases hT
    exact .unknown
  | all =>
    cases hT
    exact .all
  | empty =>
    cases hT
    exact .empty
  | named name => exact .atom (h.atom_of_kind ht (.inl hkind))
  | applied base args => exact .atom (h.atom_of_kind ht (.inr hkind))
  | union members =>
    obtain ⟨Ts, hTs, rfl⟩ := hT
    refine .union (fun hnil => ?_) fun T hT => h.atom_of_mem_union hs hTs T (mem_normalize.1 hT)
    cases hTs with
    | nil => exact Nat.not_succ_le_zero _ (h.normal hs).1
    | cons => exact List.not_mem_nil (hnil ▸ mem_normalize.2 List.mem_cons_self)

theorem forall₂_members (h : s.WellFormed) {members : List TypeId} {Ts : List Tree}
    (hs : s.shape t = .ok (.union members)) (hTs : List.Forall₂ s.Reads members Ts) :
    List.Forall₂ (fun m T => m < t ∧ s.Reads m T) members Ts :=
  (List.forall₂_and_left _ _).2 ⟨h.parts_lt hs, hTs⟩

/-- Corresponding arguments, with what the recursion on indices needs to know about them. -/
theorem forall₂_args (h : s.WellFormed) {base base' : TypeId} {as bs : List TypeId}
    {As Bs : List Tree} (hsa : s.shape a = .ok (.applied base as))
    (hsb : s.shape b = .ok (.applied base' bs)) (hAs : List.Forall₂ s.Reads as As)
    (hBs : List.Forall₂ s.Reads bs Bs) :
    List.Forall₂ (fun p q => (p.1 < a ∧ s.Reads p.1 q.1) ∧ p.2 < b ∧ s.Reads p.2 q.2)
      (as.zip bs) (As.zip Bs) := by
  have ha : ∀ p ∈ as, p < a := fun p hp => h.parts_lt hsa p (List.mem_cons_of_mem _ hp)
  have hb : ∀ p ∈ bs, p < b := fun p hp => h.parts_lt hsb p (List.mem_cons_of_mem _ hp)
  have has : List.Forall₂ (fun p A => p < a ∧ s.Reads p A) as As :=
    (List.forall₂_and_left _ _).2 ⟨ha, hAs⟩
  have hbs : List.Forall₂ (fun p B => p < b ∧ s.Reads p B) bs Bs :=
    (List.forall₂_and_left _ _).2 ⟨hb, hBs⟩
  exact forall₂_zip has hbs

theorem argMatchesWithin_answers (h : s.WellFormed) {fuel : Nat} (hf : a.index + b.index < fuel)
    (ha : s.Reads a A) (hb : s.Reads b B) :
    Answers (s.argMatchesWithin fuel a b) (A.Matches B) := by
  induction fuel generalizing a b A B with
  | zero => exact absurd hf (Nat.not_lt_zero _)
  | succ fuel ih =>
    have hau : a = .unknown ↔ A = .unknown := h.eq_iff ha h.reads_unknown
    have hbu : b = .unknown ↔ B = .unknown := h.eq_iff hb h.reads_unknown
    have heasy : (a = b ∨ a = .unknown ∨ b = .unknown) ↔ (A = B ∨ A = .unknown ∨ B = .unknown) :=
      or_congr (h.eq_iff ha hb) (or_congr hau hbu)
    unfold argMatchesWithin
    split
    · rename_i hsame
      refine .yes ?_
      rcases heasy.1 hsame with rfl | rfl | rfl
      · exact .refl A
      · exact .unknown_left B
      · exact .unknown_right A
    · rename_i hdiffer
      rw [heasy] at hdiffer
      simp only [not_or] at hdiffer
      obtain ⟨ta, hta, -, hma⟩ := h.reads_traits ha
      obtain ⟨tb, htb, -, hmb⟩ := h.reads_traits hb
      obtain ⟨sa, hsa, hA⟩ := h.reads_iff.1 ha
      obtain ⟨sb, hsb, hB⟩ := h.reads_iff.1 hb
      simp only [hta, htb, hsa, hsb, ok_bind]
      split
      · split
        · -- Parts have smaller indices, so the fuel that is left covers the arguments.
          rename_i base as base' bs
          obtain ⟨BA, As, hBA, hAs, rfl⟩ := hA
          obtain ⟨BB, Bs, hBB, hBs, rfl⟩ := hB
          have hargs : Answers ((as.zip bs).allM fun p => s.argMatchesWithin fuel p.1 p.2)
              (∀ q ∈ As.zip Bs, q.1.Matches q.2) := by
            refine allM_answers ((h.forall₂_args hsa hsb hAs hBs).imp fun p q hp => ?_)
            have hlt : p.1.index + p.2.index < a.index + b.index := Nat.add_lt_add hp.1.1 hp.2.1
            exact ih (Nat.lt_of_lt_of_le hlt (Nat.le_of_lt_succ hf)) hp.1.2 hp.2.2
          rw [Tree.matches_applied_iff, ← h.eq_iff hBA hBB, ← hAs.length_eq, ← hBs.length_eq,
            ← and_assoc]
          exact hargs.guard
        · rename_i hshapes
          refine .no fun hM => ?_
          obtain ⟨B, As, Bs, rfl, rfl⟩ := hM.exists_applied hdiffer.1 hdiffer.2.1 hdiffer.2.2
          obtain ⟨base, args, rfl, -⟩ := hA.of_applied
          obtain ⟨base', args', rfl, -⟩ := hB.of_applied
          exact hshapes _ _ _ _ rfl rfl
      · rename_i hflags
        -- Neither tree mentions `?`, so they could only agree by being the same.
        refine .no fun hM => ?_
        rw [Bool.or_eq_true, hma, hmb, not_or] at hflags
        exact hdiffer.1 (hM.eq_of_not_mentionsUnknown hflags.1 hflags.2)

theorem argsMatch_answers (h : s.WellFormed) {as bs : List TypeId} {As Bs : List Tree}
    (hAs : List.Forall₂ s.Reads as As) (hBs : List.Forall₂ s.Reads bs Bs) :
    Answers (s.argsMatch as bs) (As.length = Bs.length ∧ ∀ q ∈ As.zip Bs, q.1.Matches q.2) := by
  have hargs : Answers ((as.zip bs).allM fun p => s.argMatches p.1 p.2)
      (∀ q ∈ As.zip Bs, q.1.Matches q.2) := by
    refine allM_answers ((forall₂_zip hAs hBs).imp fun p q hp => ?_)
    exact h.argMatchesWithin_answers (Nat.lt_succ_self _) hp.1 hp.2
  rw [← hAs.length_eq, ← hBs.length_eq]
  exact hargs.guard

theorem not_trivial_of_plain (h : s.WellFormed) (ha : s.Reads a A) (hb : s.Reads b B)
    (hp : A.Plain B) :
    ¬(a = b ∨ b = .all ∨ b = .unknown ∨ a = .unknown ∨ a = .empty) ∧
      ¬(a.isSentinel || b.isSentinel) = true := by
  obtain ⟨hne, hba, hbu, hau, hae, haa, hbe⟩ := hp
  simp only [Bool.or_eq_true, TypeId.isSentinel_iff, h.eq_iff ha hb, h.eq_iff ha h.reads_unknown,
    h.eq_iff ha h.reads_all, h.eq_iff ha h.reads_empty, h.eq_iff hb h.reads_unknown,
    h.eq_iff hb h.reads_all, h.eq_iff hb h.reads_empty, hne, hba, hbu, hau, hae, haa, hbe, or_false,
    not_false_eq_true, and_self]

theorem subtypeWithin_of_not_plain (h : s.WellFormed) (fuel : Nat) (ha : s.Reads a A)
    (hb : s.Reads b B) (hp : ¬A.Plain B) :
    Answers (s.subtypeWithin (fuel + 1) a b) (A.Below B) := by
  have heasy : (a = b ∨ b = .all ∨ b = .unknown ∨ a = .unknown ∨ a = .empty) ↔
      (A = B ∨ B = .all ∨ B = .unknown ∨ A = .unknown ∨ A = .empty) := by
    rw [h.eq_iff ha hb, h.eq_iff hb h.reads_all, h.eq_iff hb h.reads_unknown,
      h.eq_iff ha h.reads_unknown, h.eq_iff ha h.reads_empty]
  unfold subtypeWithin
  split
  · rename_i hsame
    refine .yes ?_
    rcases heasy.1 hsame with rfl | rfl | rfl | rfl | rfl
    · exact .refl A
    · exact .all A
    · exact .unknown_right A
    · exact .unknown_left B
    · exact .empty B
  · rename_i hdiffer
    rw [heasy] at hdiffer
    simp only [not_or] at hdiffer
    obtain ⟨hne, hba, hbu, hau, hae⟩ := hdiffer
    -- What is left over are the two sentinels that are below nothing or above nothing else.
    have hor : A = .all ∨ B = .empty := by
      by_contra hnot
      rw [not_or] at hnot
      exact hp ⟨hne, hba, hbu, hau, hae, hnot.1, hnot.2⟩
    have hsentinel : (a.isSentinel || b.isSentinel) = true := by
      rw [Bool.or_eq_true, TypeId.isSentinel_iff, TypeId.isSentinel_iff]
      exact hor.imp (fun hA => .inr (.inl ((h.eq_iff ha h.reads_all).2 hA)))
        fun hB => .inr (.inr ((h.eq_iff hb h.reads_empty).2 hB))
    rw [if_pos hsentinel]
    refine .no ?_
    rcases hor with rfl | rfl
    · exact (h.reads_normal hb).not_all_below hbu hba
    · exact (h.reads_normal ha).not_below_empty hau hae

theorem subtypeWithin_of_atoms (h : s.WellFormed) (fuel : Nat) (ha : s.Reads a A)
    (hb : s.Reads b B) (hp : A.Plain B) (hatom : A.Atom) (hatom' : B.Atom) :
    Answers (s.subtypeWithin (fuel + 1) a b) (A.Below B) := by
  obtain ⟨hdiffer, hplain⟩ := h.not_trivial_of_plain ha hb hp
  obtain ⟨sa, hsa, hA⟩ := h.reads_iff.1 ha
  obtain ⟨sb, hsb, hB⟩ := h.reads_iff.1 hb
  rw [subtypeWithin, if_neg hdiffer, if_neg hplain, hsa, hsb]
  cases hatom with
  | named name =>
    obtain rfl := hA.of_named
    have hnot := hatom'.not_named_below hp.1
    cases hatom' with
    | named name' =>
      obtain rfl := hB.of_named
      exact .no hnot
    | applied name' Bs =>
      obtain ⟨base', bs, rfl, -⟩ := hB.of_applied
      exact .no hnot
  | applied name As =>
    obtain ⟨base, as, rfl, hbase, hAs⟩ := hA.of_applied
    cases hatom' with
    | named name' =>
      obtain rfl := hB.of_named
      rw [Tree.applied_below_named_iff, ← h.eq_iff hbase hb]
      exact ⟨decide (base = b), rfl, decide_eq_true_iff⟩
    | applied name' Bs =>
      obtain ⟨base', bs, rfl, hbase', hBs⟩ := hB.of_applied
      have hargs := h.argsMatch_answers hAs hBs
      rw [Tree.applied_below_applied_iff, Tree.matches_applied_iff, ← h.eq_iff hbase hbase']
      exact hargs.guard

theorem subtypeWithin_answers (h : s.WellFormed) {fuel : Nat} (hf : a.index + b.index < fuel)
    (ha : s.Reads a A) (hb : s.Reads b B) :
    Answers (s.subtypeWithin fuel a b) (A.Below B) := by
  induction fuel generalizing a b A B with
  | zero => exact absurd hf (Nat.not_lt_zero _)
  | succ fuel ih =>
    by_cases hp : A.Plain B
    · obtain ⟨hdiffer, hplain⟩ := h.not_trivial_of_plain ha hb hp
      obtain ⟨sa, hsa, hA⟩ := h.reads_iff.1 ha
      obtain ⟨sb, hsb, hB⟩ := h.reads_iff.1 hb
      obtain ⟨hne, hba, hbu, hau, hae, haa, hbe⟩ := hp
      have hnb := h.reads_normal hb
      -- A union on the left is split before one on the right, as in the test.
      cases h.reads_normal ha with
      | unknown => exact absurd rfl hau
      | all => exact absurd rfl haa
      | empty => exact absurd rfl hae
      | union =>
        obtain ⟨ms, Ts, rfl, hTs, rfl⟩ := hA.of_union
        have hall : Answers (ms.allM fun m => s.subtypeWithin fuel m b) (∀ M ∈ Ts, M.Below B) := by
          refine allM_answers ((h.forall₂_members hsa hTs).imp fun m M hm => ?_)
          have hlt : m.index + b.index < a.index + b.index := Nat.add_lt_add_right hm.1 _
          exact ih (Nat.lt_of_lt_of_le hlt (Nat.le_of_lt_succ hf)) hm.2 hb
        simp only [hnb.union_below_iff, mem_normalize]
        rw [subtypeWithin, if_neg hdiffer, if_neg hplain, hsa]
        exact hall
      | atom hatom =>
        cases hnb with
        | unknown => exact absurd rfl hbu
        | all => exact absurd rfl hba
        | empty => exact absurd rfl hbe
        | union =>
          obtain ⟨ns, Us, rfl, hUs, rfl⟩ := hB.of_union
          have hany : Answers (ns.anyM fun n => s.subtypeWithin fuel a n)
              (∃ N ∈ Us, A.Below N) := by
            refine anyM_answers ((h.forall₂_members hsb hUs).imp fun n N hn => ?_)
            have hlt : a.index + n.index < a.index + b.index := Nat.add_lt_add_left hn.1 _
            exact ih (Nat.lt_of_lt_of_le hlt (Nat.le_of_lt_succ hf)) ha hn.2
          simp only [hatom.below_union_iff, mem_normalize]
          rw [subtypeWithin, if_neg hdiffer, if_neg hplain, hsa, hsb]
          cases hatom with
          | named name =>
            obtain rfl := hA.of_named
            exact hany
          | applied name As =>
            obtain ⟨base, as, rfl, -⟩ := hA.of_applied
            exact hany
        | atom hatom' =>
          exact h.subtypeWithin_of_atoms fuel ha hb ⟨hne, hba, hbu, hau, hae, haa, hbe⟩ hatom hatom'
    · exact h.subtypeWithin_of_not_plain fuel ha hb hp

theorem isSubtype_answers (h : s.WellFormed) (ha : s.Reads a A) (hb : s.Reads b B) :
    Answers (s.isSubtype a b) (A.Below B) :=
  h.subtypeWithin_answers (Nat.lt_succ_self _) ha hb

theorem isSubtype_eq_true_iff (h : s.WellFormed) (ha : s.Reads a A) (hb : s.Reads b B) :
    s.isSubtype a b = .ok true ↔ A.Below B := (h.isSubtype_answers ha hb).eq_true_iff

end Store.WellFormed

namespace Store

/-- Between any two types of a store the subtype test comes to an answer, which is yes exactly when
the rules, used in whatever order, relate the trees of the two. -/
theorem Reachable.isSubtype_decides {s : Store} (h : s.Reachable) {a b : TypeId}
    (ha : a.index < s.size) (hb : b.index < s.size) :
    ∃ A B answer, s.tree a = .ok A ∧ s.tree b = .ok B ∧ s.isSubtype a b = .ok answer ∧
      (answer = true ↔ A.Below B) := by
  obtain ⟨A, hA⟩ := h.exists_reads ha
  obtain ⟨B, hB⟩ := h.exists_reads hb
  obtain ⟨answer, hanswer, hiff⟩ := h.wellFormed.isSubtype_answers hA hB
  exact ⟨A, B, answer, hA, hB, hanswer, hiff⟩

/-- The test of `(A|B)` against `(B|A<?>)`, which splits the union on the left first. -/
theorem sampleTypes_isSubtype_decides : ∃ A B answer, sampleTypes.tree ⟨5⟩ = .ok A ∧
    sampleTypes.tree ⟨8⟩ = .ok B ∧ sampleTypes.isSubtype ⟨5⟩ ⟨8⟩ = .ok answer ∧
      (answer = true ↔ A.Below B) :=
  sampleTypes_reachable.isSubtype_decides (by decide) (by decide)

end Store

end TypeCalculus
