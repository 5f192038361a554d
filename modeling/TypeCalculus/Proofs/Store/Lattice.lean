import TypeCalculus.Proofs.Store.Subtyping

/-!
The order of types. Subtyping is transitive through every type that does not mention `?`, and the
union of types is the least type above them. Both come down to the members of the types: but for
`?`, a type is below another exactly when each member of the one is below some member of the other.
-/

namespace TypeCalculus

theorem forall₂_trans {α β γ : Type} {R : α → β → Prop} {Q : β → γ → Prop} {P : α → γ → Prop}
    {as : List α} {bs : List β} {cs : List γ} (hP : ∀ a b c, R a b → Q b c → P a c)
    (hR : List.Forall₂ R as bs) (hQ : List.Forall₂ Q bs cs) : List.Forall₂ P as cs := by
  induction hR generalizing cs with
  | nil =>
    cases hQ
    exact .nil
  | cons hab _ ih =>
    cases hQ with
    | cons hbc hQ => exact .cons (hP _ _ _ hab hbc) (ih hQ)

namespace Tree

/-- What is its own only member and is not `?`. -/
def Single (a : Tree) : Prop := a = all ∨ a.Atom

theorem MentionsUnknown.of_mem_members {a m : Tree} (hm : m ∈ a.members) (h : m.MentionsUnknown) :
    a.MentionsUnknown := by
  cases a with
  | union ms => exact .member hm h
  | empty => cases hm
  | unknown | all | named | applied => exact List.mem_singleton.1 hm ▸ h

theorem Single.members_eq {a : Tree} (ha : a.Single) : a.members = [a] := by
  rcases ha with rfl | ha
  · rfl
  · cases ha <;> rfl

theorem Normal.single_of_mem_members {a m : Tree} (ha : a.Normal) (hu : a ≠ Tree.unknown)
    (hm : m ∈ a.members) : m.Single := by
  cases ha with
  | unknown => exact absurd rfl hu
  | all => exact .inl (List.mem_singleton.1 hm)
  | empty => cases hm
  | atom ha =>
    rw [Single.members_eq (.inr ha), List.mem_singleton] at hm
    exact .inr (hm ▸ ha)
  | union _ hms => exact .inr (hms m hm)

theorem Normal.below_of_all_below {a b : Tree} (hb : b.Normal) (h : Below Tree.all b) : Below a b := by
  by_cases hu : b = Tree.unknown
  · exact hu ▸ .unknown_right a
  · by_cases ha : b = Tree.all
    · exact ha ▸ .all a
    · exact absurd h (hb.not_all_below hu ha)

theorem Normal.below_iff_forall_members {a b : Tree} (ha : a.Normal) (hb : b.Normal) :
    Below a b ↔ ∀ m ∈ a.members, Below m b := by
  cases ha with
  | unknown | all => simp [members]
  | empty => exact iff_of_true (.empty b) (by simp [members])
  | atom ha => rw [Single.members_eq (.inr ha), List.forall_mem_singleton]
  | union => exact hb.union_below_iff

theorem Single.below_union_iff {a : Tree} {ms : List Tree} (ha : a.Single) :
    Below a (union ms) ↔ ∃ m ∈ ms, Below a m := by
  rcases ha with rfl | ha
  · refine ⟨fun h => ?_, fun ⟨m, hm, h⟩ => .union_right hm h⟩
    cases h with
    | union_right hm h => exact ⟨_, hm, h⟩
  · exact ha.below_union_iff

theorem Single.below_iff_exists_member {a b : Tree} (ha : a.Single) (hb : b.Normal) :
    Below a b ↔ ∃ m ∈ b.members, Below a m := by
  cases hb with
  | unknown | all => simp [members]
  | empty =>
    refine iff_of_false ?_ (by simp [members])
    rcases ha with rfl | ha
    · exact Normal.empty.not_all_below nofun nofun
    · exact ha.not_below_empty
  | atom hb => simp [Single.members_eq (.inr hb)]
  | union => exact ha.below_union_iff

section Transitivity

variable {a b c : Tree}

theorem Matches.of_forall₂ {base : Tree} {as bs : List Tree} (h : List.Forall₂ Matches as bs) :
    Matches (Tree.applied base as) (Tree.applied base bs) := by
  have hzip := List.forall₂_iff_zip.1 h
  exact .applied hzip.1 fun p hp => hzip.2 hp

/-- `?` matches everything, so it is only through what does not mention it that matches compose. -/
theorem Matches.trans (hb : ¬b.MentionsUnknown) (hab : Matches a b) (hbc : Matches b c) :
    Matches a c := by
  induction hab generalizing c with
  | refl a => exact hbc
  | unknown_left b => exact .unknown_left c
  | unknown_right a => exact absurd .unknown hb
  | @applied base as bs hl h ih =>
    cases hbc with
    | refl => exact .applied hl h
    | unknown_right => exact .unknown_right _
    | @applied _ _ cs hl' h' =>
      have has : List.Forall₂ (fun a b => (a, b) ∈ as.zip bs) as bs :=
        List.forall₂_iff_zip.2 ⟨hl, fun hp => hp⟩
      have hbs : List.Forall₂ Matches bs cs := List.forall₂_iff_zip.2 ⟨hl', fun hp => h' _ hp⟩
      refine .of_forall₂ (forall₂_trans (fun a b c hp hbc => ?_) has hbs)
      have hfree : ¬b.MentionsUnknown := fun hm => hb (.arg (List.of_mem_zip hp).2 hm)
      exact ih (a, b) hp hfree hbc

theorem Atom.eq_of_named_below {name : Name} (hb : b.Atom) (h : Below (Tree.named name) b) :
    Tree.named name = b := by
  by_contra hne
  exact hb.not_named_below hne h

theorem Atom.below_trans (ha : a.Atom) (hb : b.Atom) (hc : c.Atom) (hfree : ¬b.MentionsUnknown)
    (hab : Below a b) (hbc : Below b c) : Below a c := by
  cases ha with
  | named name => exact hb.eq_of_named_below hab ▸ hbc
  | applied name as =>
    cases hb with
    | named name' => exact hc.eq_of_named_below hbc ▸ hab
    | applied name' bs =>
      have hmatches := applied_below_applied_iff.1 hab
      cases hc with
      | named name'' =>
        rw [applied_below_named_iff] at hbc ⊢
        exact (matches_applied_iff.1 hmatches).1.trans hbc
      | applied name'' cs =>
        have hmatches' := applied_below_applied_iff.1 hbc
        exact applied_below_applied_iff.2 (hmatches.trans hfree hmatches')

theorem Single.below_trans (ha : a.Single) (hb : b.Single) (hc : c.Single)
    (hfree : ¬b.MentionsUnknown) (hab : Below a b) (hbc : Below b c) : Below a c := by
  rcases hc with rfl | hc
  · exact .all a
  rcases hb with rfl | hb
  · exact absurd hbc hc.not_all_below
  rcases ha with rfl | ha
  · exact absurd hab hb.not_all_below
  exact ha.below_trans hb hc hfree hab hbc

/-- Below each member of `a` there is one of `b` above it, and above that one of `c`. -/
theorem Normal.below_trans (ha : a.Normal) (hb : b.Normal) (hc : c.Normal)
    (hfree : ¬b.MentionsUnknown) (hab : Below a b) (hbc : Below b c) : Below a c := by
  by_cases hau : a = Tree.unknown
  · exact hau ▸ .unknown_left c
  by_cases hcu : c = Tree.unknown
  · exact hcu ▸ .unknown_right a
  have hbu : b ≠ Tree.unknown := by
    rintro rfl
    exact hfree .unknown
  rw [ha.below_iff_forall_members hc]
  intro m hm
  have hmb : Below m b := (ha.below_iff_forall_members hb).1 hab m hm
  have hms := ha.single_of_mem_members hau hm
  obtain ⟨n, hn, hmn⟩ := (hms.below_iff_exists_member hb).1 hmb
  have hnc : Below n c := (hb.below_iff_forall_members hc).1 hbc n hn
  have hns := hb.single_of_mem_members hbu hn
  obtain ⟨k, hk, hnk⟩ := (hns.below_iff_exists_member hc).1 hnc
  have hks := hc.single_of_mem_members hcu hk
  have hfree' : ¬n.MentionsUnknown := fun h => hfree (.of_mem_members hn h)
  exact (hms.below_iff_exists_member hc).2 ⟨k, hk, hms.below_trans hns hks hfree' hmn hnk⟩

end Transitivity

section Join

variable {a c : Tree} {ts ms : List Tree}

theorem normal_ofMembers (hms : ∀ m ∈ ms, m.Atom) : (ofMembers ms).Normal := by
  match ms with
  | [] => exact .empty
  | [m] => exact .atom (hms m List.mem_cons_self)
  | m :: m' :: ms =>
    have hmem : m ∈ normalize (m :: m' :: ms) := mem_normalize.2 List.mem_cons_self
    exact .union (List.ne_nil_of_mem hmem) fun n hn => hms n (mem_normalize.1 hn)

theorem mem_members_ofMembers (hms : ∀ m ∈ ms, m.Atom) {m : Tree} :
    m ∈ (ofMembers ms).members ↔ m ∈ ms := by
  match ms with
  | [] => rfl
  | [n] =>
    have hn : n.Single := .inr (hms n List.mem_cons_self)
    rw [ofMembers, hn.members_eq]
  | n :: n' :: ns => exact mem_normalize

/-- The join of trees, none of them `?`: it is `*` if that is one of their members, and has their
members otherwise. -/
theorem join_cases (hts : ∀ t ∈ ts, t.Normal) (hu : Tree.unknown ∉ ts) :
    (all ∈ ts.flatMap members ∧ join ts = all) ∨
      (join ts).Normal ∧ ∀ m, m ∈ (join ts).members ↔ m ∈ ts.flatMap members := by
  by_cases hall : all ∈ ts.flatMap members
  · refine .inl ⟨hall, ?_⟩
    rw [join, if_neg hu, if_pos hall]
  · have hatoms : ∀ m ∈ normalize (ts.flatMap members), m.Atom := by
      intro m hm
      rw [mem_normalize] at hm
      obtain ⟨t, ht, hmt⟩ := List.mem_flatMap.1 hm
      have htu : t ≠ Tree.unknown := fun h => hu (h ▸ ht)
      refine ((hts t ht).single_of_mem_members htu hmt).resolve_left ?_
      rintro rfl
      exact hall hm
    rw [join, if_neg hu, if_neg hall]
    refine .inr ⟨normal_ofMembers hatoms, fun m => ?_⟩
    rw [mem_members_ofMembers hatoms, mem_normalize]

theorem join_below_iff (hts : ∀ t ∈ ts, t.Normal) (hu : Tree.unknown ∉ ts) (hc : c.Normal) :
    Below (join ts) c ↔ ∀ t ∈ ts, Below t c := by
  have hmembers : (∀ m ∈ ts.flatMap members, Below m c) ↔ ∀ t ∈ ts, Below t c := by
    rw [List.forall_mem_flatMap]
    exact forall₂_congr fun t ht => ((hts t ht).below_iff_forall_members hc).symm
  rw [← hmembers]
  rcases join_cases hts hu with ⟨hall, hjoin⟩ | ⟨hnormal, hmem⟩
  · rw [hjoin]
    exact ⟨fun h m _ => hc.below_of_all_below h, fun h => h all hall⟩
  · rw [hnormal.below_iff_forall_members hc]
    simp only [hmem]

theorem below_join_iff (ha : a.Single) (hts : ∀ t ∈ ts, t.Normal) (hu : Tree.unknown ∉ ts) :
    Below a (join ts) ↔ ∃ t ∈ ts, Below a t := by
  have hmembers : (∃ m ∈ ts.flatMap members, Below a m) ↔ ∃ t ∈ ts, Below a t := by
    constructor
    · rintro ⟨m, hm, h⟩
      obtain ⟨t, ht, hmt⟩ := List.mem_flatMap.1 hm
      exact ⟨t, ht, (ha.below_iff_exists_member (hts t ht)).2 ⟨m, hmt, h⟩⟩
    · rintro ⟨t, ht, h⟩
      obtain ⟨m, hmt, hm⟩ := (ha.below_iff_exists_member (hts t ht)).1 h
      exact ⟨m, List.mem_flatMap.2 ⟨t, ht, hmt⟩, hm⟩
  rw [← hmembers]
  rcases join_cases hts hu with ⟨hall, hjoin⟩ | ⟨hnormal, hmem⟩
  · rw [hjoin]
    exact iff_of_true (.all a) ⟨all, hall, .all a⟩
  · rw [ha.below_iff_exists_member hnormal]
    simp only [hmem]

end Join

end Tree

namespace Store

variable {s : Store} {t u : TypeId} {T : Tree} {ts : List TypeId} {Ts : List Tree}

/-- The store holds the type, and by its traits `?` does not occur in it. -/
def UnknownFree (s : Store) (t : TypeId) : Prop :=
  ∃ traits, s.traits t = .ok traits ∧ traits.mentionsUnknown = false

theorem UnknownFree.lt_size (h : s.UnknownFree t) : t.index < s.size := by
  obtain ⟨traits, htraits, -⟩ := h
  obtain ⟨e, he, -⟩ := bind_eq_ok_iff.1 htraits
  exact lt_size_of_entry he

/-- `u` is the least type above `ts`. A single type is below it only by being below one of them. -/
structure IsLeastAbove (s : Store) (ts : List TypeId) (u : TypeId) : Prop where
  below_iff : ∀ c, c.index < s.size →
    (s.isSubtype u c = .ok true ↔ ∀ t ∈ ts, s.isSubtype t c = .ok true)
  above : ∀ t ∈ ts, s.isSubtype t u = .ok true
  of_single : ∀ a, a.index < s.size → s.kind a ≠ .ok .union → a ≠ .unknown → a ≠ .empty →
    (s.isSubtype a u = .ok true ↔ ∃ t ∈ ts, s.isSubtype a t = .ok true)

namespace WellFormed

theorem not_mentionsUnknown (h : s.WellFormed) (ht : s.Reads t T) (hfree : s.UnknownFree t) :
    ¬T.MentionsUnknown := by
  obtain ⟨traits, htraits, hm⟩ := hfree
  obtain ⟨traits', htraits', -, hiff⟩ := h.reads_traits ht
  cases htraits.symm.trans htraits'
  rw [← hiff, hm]
  exact Bool.false_ne_true

theorem below_through (h : s.WellFormed) {a b c : TypeId} (ha : a.index < s.size)
    (hfree : s.UnknownFree b) (hc : c.index < s.size) (hab : s.isSubtype a b = .ok true)
    (hbc : s.isSubtype b c = .ok true) : s.isSubtype a c = .ok true := by
  obtain ⟨A, hA⟩ := h.exists_reads a ha
  obtain ⟨B, hB⟩ := h.exists_reads b hfree.lt_size
  obtain ⟨C, hC⟩ := h.exists_reads c hc
  rw [h.isSubtype_eq_true_iff hA hB] at hab
  rw [h.isSubtype_eq_true_iff hB hC] at hbc
  rw [h.isSubtype_eq_true_iff hA hC]
  have hfree' : ¬B.MentionsUnknown := h.not_mentionsUnknown hB hfree
  exact (h.reads_normal hA).below_trans (h.reads_normal hB) (h.reads_normal hC) hfree' hab hbc

theorem single_of_reads (h : s.WellFormed) (ht : s.Reads t T) (hk : s.kind t ≠ .ok .union)
    (hu : t ≠ .unknown) (he : t ≠ .empty) : T.Single := by
  obtain ⟨shape, hs, hT⟩ := h.reads_iff.1 ht
  have hkind : s.kind t = .ok shape.kind := bind_eq_ok_iff.2 ⟨shape, hs, rfl⟩
  cases h.reads_normal ht with
  | unknown => exact absurd ((h.eq_iff ht h.reads_unknown).2 rfl) hu
  | all => exact .inl rfl
  | empty => exact absurd ((h.eq_iff ht h.reads_empty).2 rfl) he
  | atom hatom => exact .inr hatom
  | union =>
    obtain ⟨ms, Ms, rfl, -, -⟩ := hT.of_union
    exact absurd hkind hk

theorem isLeastAbove (h : s.WellFormed) (hTs : List.Forall₂ s.Reads ts Ts)
    (hunknown : TypeId.unknown ∉ ts) (hr : s.Reads u (Tree.join Ts)) : s.IsLeastAbove ts u := by
  have hnormal : ∀ T ∈ Ts, T.Normal := by
    intro T hT
    obtain ⟨t, -, ht⟩ := exists_mem_left hTs hT
    exact h.reads_normal ht
  have hunknown' : Tree.unknown ∉ Ts :=
    mt (List.rel_mem h.reads_biUnique h.reads_unknown hTs).2 hunknown
  have below_iff : ∀ c, c.index < s.size →
      (s.isSubtype u c = .ok true ↔ ∀ t ∈ ts, s.isSubtype t c = .ok true) := by
    intro c hc
    obtain ⟨C, hC⟩ := h.exists_reads c hc
    have hall : (∀ t ∈ ts, s.isSubtype t c = .ok true) ↔ ∀ T ∈ Ts, T.Below C :=
      forall_mem_iff_of_forall₂ hTs fun t _ T hT => h.isSubtype_eq_true_iff hT hC
    rw [h.isSubtype_eq_true_iff hr hC, hall]
    exact Tree.join_below_iff hnormal hunknown' (h.reads_normal hC)
  refine ⟨below_iff, ?_, fun a ha hk hau hae => ?_⟩
  · have hrefl : s.isSubtype u u = .ok true := (h.isSubtype_eq_true_iff hr hr).2 (.refl _)
    exact (below_iff u (h.lt_size_of_reads hr)).1 hrefl
  · obtain ⟨A, hA⟩ := h.exists_reads a ha
    have hany : (∃ t ∈ ts, s.isSubtype a t = .ok true) ↔ ∃ T ∈ Ts, A.Below T :=
      exists_mem_iff_of_forall₂ hTs fun t _ T hT => h.isSubtype_eq_true_iff hA hT
    rw [h.isSubtype_eq_true_iff hA hr, hany]
    exact Tree.below_join_iff (h.single_of_reads hA hk hau hae) hnormal hunknown'

end WellFormed

/-- Subtyping is transitive through every type that does not mention `?`, whatever the outer two
are, and so it is a preorder on the types that do not. -/
theorem Reachable.isSubtype_trans (h : s.Reachable) :
    (∀ a b c : TypeId, a.index < s.size → s.UnknownFree b → c.index < s.size →
        s.isSubtype a b = .ok true → s.isSubtype b c = .ok true → s.isSubtype a c = .ok true) ∧
      IsPreorder {t // s.UnknownFree t} fun a b => s.isSubtype a b = .ok true := by
  have hwf := h.wellFormed
  refine ⟨fun a b c ha hb hc hab hbc => hwf.below_through ha hb hc hab hbc,
    { refl := fun t => ?_, trans := fun a b c hab hbc => ?_ }⟩
  · obtain ⟨T, hT⟩ := h.exists_reads t.2.lt_size
    exact (hwf.isSubtype_eq_true_iff hT hT).2 (.refl T)
  · exact hwf.below_through a.2.lt_size b.2 c.2.lt_size hab hbc

/-- `A<?>` is below `A<B>`, and that below `(B|A<?>)`. -/
theorem sampleTypes_isSubtype_trans : sampleTypes.isSubtype ⟨6⟩ ⟨8⟩ = .ok true :=
  sampleTypes_reachable.isSubtype_trans.1 ⟨6⟩ ⟨7⟩ ⟨8⟩ (by decide) ⟨_, rfl, rfl⟩ (by decide) rfl rfl

/-- Through `?` subtyping is not transitive. -/
example : sampleTypes.isSubtype ⟨3⟩ .unknown = .ok true ∧
    sampleTypes.isSubtype .unknown ⟨4⟩ = .ok true ∧
    sampleTypes.isSubtype ⟨3⟩ ⟨4⟩ = .ok false := ⟨rfl, rfl, rfl⟩

/-- The union of types, none of them `?`, is the least type above them. It is always made, unless
the store is full. -/
theorem Reachable.union_isLeastAbove (h : s.Reachable) (hts : ∀ t ∈ ts, t.index < s.size)
    (hunknown : TypeId.unknown ∉ ts) :
    (∃ u s', Store.union ts s = .ok u s' ∧ s'.IsLeastAbove ts u) ∨
      Store.union ts s = .error .storeFull s ∧ capacity ≤ s.size := by
  have hwf := h.wellFormed
  obtain ⟨Ts, hTs⟩ := exists_forall₂ fun t ht => h.exists_reads (hts t ht)
  have hmakes := hwf.makes_union hTs
  have hwf' := hwf.union ts
  have hle := (StoreM.Settles.union ts).grows s
  have hmore : s.OneEntryMore (Store.union ts s) := make_oneEntryMore (.union ts) s
  cases hr : Store.union ts s with
  | ok u s' =>
    rw [hr] at hmakes hwf' hle
    have hTs' : List.Forall₂ s'.Reads ts Ts := forall₂_reads_mono hTs hle
    exact .inl ⟨u, s', rfl, hwf'.isLeastAbove hTs' hunknown hmakes⟩
  | error f s' =>
    rw [hr] at hmakes hmore
    have hfull : f = .storeFull := hmakes
    have hsame : s' = s := hmore
    refine .inr ⟨by rw [hfull, hsame], Nat.le_of_not_lt fun hroom => ?_⟩
    obtain ⟨u, s'', hu⟩ := hwf.exists_union_of_room hTs hroom
    cases hr.symm.trans hu

/-- The union of `(A|B)` and `A<B>`. -/
theorem sampleTypes_union_isLeastAbove :
    ∃ u s', Store.union [⟨5⟩, ⟨7⟩] sampleTypes = .ok u s' ∧ s'.IsLeastAbove [⟨5⟩, ⟨7⟩] u := by
  refine (sampleTypes_reachable.union_isLeastAbove (by decide) (by decide)).resolve_right ?_
  rintro ⟨-, hfull⟩
  exact absurd hfull (by decide)

end Store

end TypeCalculus
