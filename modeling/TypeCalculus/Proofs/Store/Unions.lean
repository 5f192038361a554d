import Mathlib.Data.Set.Basic
import TypeCalculus.Proofs.Store.Lattice

/-!
Two unions are the same type exactly when they have the same members, but for `?` and `*`, which
absorb all else. So the order and the repetition of what is united play no part, `None` adds
nothing, and a part may be united first.
-/

namespace TypeCalculus

namespace Tree

variable {ts us part rest : List Tree} {m t : Tree}

theorem Normal.all_mem_members_iff (ht : t.Normal) : Tree.all ∈ t.members ↔ t = Tree.all := by
  cases ht with
  | unknown | all | empty => simp [members]
  | atom ha => rw [Single.members_eq (.inr ha), List.mem_singleton, eq_comm]
  | union _ hms =>
    refine iff_of_false (fun hall => ?_) (by simp)
    cases hms Tree.all hall

theorem all_mem_flatMap_iff (hts : ∀ t ∈ ts, t.Normal) : all ∈ ts.flatMap members ↔ all ∈ ts := by
  rw [List.mem_flatMap]
  constructor
  · rintro ⟨t, ht, hall⟩
    rwa [← (hts t ht).all_mem_members_iff.1 hall]
  · exact fun hall => ⟨all, hall, List.mem_singleton.2 rfl⟩

theorem join_of_unknown_mem (hu : unknown ∈ ts) : join ts = unknown := if_pos hu

theorem join_of_all_mem (hts : ∀ t ∈ ts, t.Normal) (hu : unknown ∉ ts) (hall : all ∈ ts) :
    join ts = all := by
  rw [join, if_neg hu, if_pos ((all_mem_flatMap_iff hts).2 hall)]

/-- Without `?` and `*` a join has the members of what is joined. -/
theorem mem_members_join (hts : ∀ t ∈ ts, t.Normal) (hu : unknown ∉ ts) (hall : all ∉ ts) :
    m ∈ (join ts).members ↔ m ∈ ts.flatMap members := by
  rcases join_cases hts hu with ⟨hall', -⟩ | ⟨-, hmem⟩
  · exact absurd ((all_mem_flatMap_iff hts).1 hall') hall
  · exact hmem m

theorem normal_join (hts : ∀ t ∈ ts, t.Normal) : (join ts).Normal := by
  by_cases hu : unknown ∈ ts
  · rw [join_of_unknown_mem hu]
    exact .unknown
  · rcases join_cases hts hu with ⟨-, hjoin⟩ | ⟨hnormal, -⟩
    · rw [hjoin]
      exact .all
    · exact hnormal

theorem join_eq_unknown_iff (hts : ∀ t ∈ ts, t.Normal) : join ts = unknown ↔ unknown ∈ ts := by
  refine ⟨fun hjoin => ?_, join_of_unknown_mem⟩
  by_contra hu
  rcases join_cases hts hu with ⟨-, hall⟩ | ⟨-, hmem⟩
  · cases hjoin.symm.trans hall
  · have hself : unknown ∈ (join ts).members := by simp [hjoin, members]
    obtain ⟨t, ht, hmt⟩ := List.mem_flatMap.1 ((hmem unknown).1 hself)
    have htu : t ≠ unknown := fun h => hu (h ▸ ht)
    rcases (hts t ht).single_of_mem_members htu hmt with h | h <;> cases h

theorem join_eq_all_iff (hts : ∀ t ∈ ts, t.Normal) (hu : unknown ∉ ts) :
    join ts = all ↔ all ∈ ts := by
  refine ⟨fun hjoin => ?_, join_of_all_mem hts hu⟩
  by_contra hall
  have hself : all ∈ (join ts).members := by simp [hjoin, members]
  exact hall ((all_mem_flatMap_iff hts).1 ((mem_members_join hts hu hall).1 hself))

/-- The same members, where `?` and then `*` absorb all else. -/
structure SameMembers (ts us : List Tree) : Prop where
  unknown_iff : unknown ∈ ts ↔ unknown ∈ us
  all_iff : unknown ∉ ts → (all ∈ ts ↔ all ∈ us)
  members_iff : unknown ∉ ts → all ∉ ts → ∀ m, m ∈ ts.flatMap members ↔ m ∈ us.flatMap members

theorem join_eq_join_iff (hts : ∀ t ∈ ts, t.Normal) (hus : ∀ t ∈ us, t.Normal) :
    join ts = join us ↔ SameMembers ts us := by
  constructor
  · intro heq
    have hu : unknown ∈ ts ↔ unknown ∈ us := by
      rw [← join_eq_unknown_iff hts, heq, join_eq_unknown_iff hus]
    have hall (hut : unknown ∉ ts) : all ∈ ts ↔ all ∈ us := by
      rw [← join_eq_all_iff hts hut, heq, join_eq_all_iff hus (mt hu.2 hut)]
    refine ⟨hu, hall, fun hut hat m => ?_⟩
    rw [← mem_members_join hts hut hat, heq,
      mem_members_join hus (mt hu.2 hut) (mt (hall hut).2 hat)]
  · rintro ⟨hu, hall, hmem⟩
    by_cases hut : unknown ∈ ts
    · rw [join_of_unknown_mem hut, join_of_unknown_mem (hu.1 hut)]
    · have huu : unknown ∉ us := mt hu.2 hut
      by_cases hat : all ∈ ts
      · rw [join_of_all_mem hts hut hat, join_of_all_mem hus huu ((hall hut).1 hat)]
      · have hau : all ∉ us := mt (hall hut).2 hat
        rw [join, join, if_neg hut, if_neg huu, if_neg (mt (all_mem_flatMap_iff hts).1 hat),
          if_neg (mt (all_mem_flatMap_iff hus).1 hau), normalize_congr (hmem hut hat)]

theorem join_congr (h : ∀ t, t ∈ ts ↔ t ∈ us) : join ts = join us := by
  have hmem : ∀ m, m ∈ ts.flatMap members ↔ m ∈ us.flatMap members := by
    intro m
    simp only [List.mem_flatMap, h]
  simp only [join, h, hmem, normalize_congr hmem]

theorem join_cons_empty (ts : List Tree) : join (empty :: ts) = join ts := by
  simp [join, members]

/-- A part may be joined first. -/
theorem join_join_cons (hpart : ∀ t ∈ part, t.Normal) (hrest : ∀ t ∈ rest, t.Normal) :
    join (join part :: rest) = join (part ++ rest) := by
  have hleft : ∀ t ∈ join part :: rest, t.Normal :=
    List.forall_mem_cons.2 ⟨normal_join hpart, hrest⟩
  have hright : ∀ t ∈ part ++ rest, t.Normal := List.forall_mem_append.2 ⟨hpart, hrest⟩
  have hu : unknown ∈ join part :: rest ↔ unknown ∈ part ++ rest := by
    rw [List.mem_cons, List.mem_append, eq_comm, join_eq_unknown_iff hpart]
  rw [join_eq_join_iff hleft hright]
  refine ⟨hu, fun hul => ?_, fun hul hal m => ?_⟩
  · have hup : unknown ∉ part := fun h => hul (hu.2 (List.mem_append_left _ h))
    rw [List.mem_cons, List.mem_append, eq_comm, join_eq_all_iff hpart hup]
  · have hup : unknown ∉ part := fun h => hul (hu.2 (List.mem_append_left _ h))
    have hap : all ∉ part := by
      intro h
      rw [List.mem_cons, not_or, eq_comm, join_eq_all_iff hpart hup] at hal
      exact hal.1 h
    rw [List.flatMap_cons, List.flatMap_append, List.mem_append, List.mem_append,
      mem_members_join hpart hup hap]

end Tree

namespace Store

variable {s s' : Store} {ms ns ts : List TypeId} {Ms Ns Ts : List Tree}

/-- The step ends with a result that is as stated, or for want of room. -/
def Ends {α : Type} (P : α → Store → Prop) : EStateM.Result Fault Store α → Prop
  | .ok a s => P a s
  | .error f s => f = .storeFull ∧ capacity ≤ s.size

theorem Ends.imp {α : Type} {P Q : α → Store → Prop} {r : EStateM.Result Fault Store α}
    (h : Ends P r) (hPQ : ∀ a s, P a s → Q a s) : Ends Q r := by
  cases r with
  | ok a s => exact hPQ a s h
  | error f s => exact h

theorem Ends.bind {α β : Type} {act : StoreM α} {next : α → StoreM β} {P : α → Store → Prop}
    {Q : β → Store → Prop} (h : Ends P (act s)) (hn : ∀ a s, P a s → Ends Q (next a s)) :
    Ends Q ((act >>= next) s) := by
  rw [bind_apply]
  cases hr : act s with
  | ok a s' =>
    rw [hr] at h
    exact hn a s' h
  | error f s' =>
    rw [hr] at h
    exact h

/-- A type with this tree was made in a store that holds what `s` holds. -/
structure Made (s : Store) (T : Tree) (t : TypeId) (s' : Store) : Prop where
  wellFormed : s'.WellFormed
  grows : s ≤ s'
  reads : s'.Reads t T

theorem WellFormed.union_ends (h : s.WellFormed) (hTs : List.Forall₂ s.Reads ts Ts) :
    Ends (s.Made (Tree.join Ts)) (Store.union ts s) := by
  have hmakes := h.makes_union hTs
  have hwf := h.union ts
  have hle := (StoreM.Settles.union ts).grows s
  have hmore : s.OneEntryMore (Store.union ts s) := make_oneEntryMore (.union ts) s
  cases hr : Store.union ts s with
  | ok u s' =>
    rw [hr] at hmakes hwf hle
    exact ⟨hwf, hle, hmakes⟩
  | error f s' =>
    rw [hr] at hmakes hmore
    have hfull : f = .storeFull := hmakes
    obtain rfl : s' = s := hmore
    refine ⟨hfull, Nat.le_of_not_lt fun hroom => ?_⟩
    obtain ⟨u, s'', hu⟩ := h.exists_union_of_room hTs hroom
    cases hr.symm.trans hu

/-- The handles of two unions, one made after the other. -/
def bothUnions (ms ns : List TypeId) : StoreM (TypeId × TypeId) := do
  return (← Store.union ms, ← Store.union ns)

theorem WellFormed.bothUnions_ends (h : s.WellFormed) (hMs : List.Forall₂ s.Reads ms Ms)
    (hNs : List.Forall₂ s.Reads ns Ns) :
    Ends (fun p _ => p.1 = p.2 ↔ Tree.join Ms = Tree.join Ns) (bothUnions ms ns s) := by
  refine (h.union_ends hMs).bind fun u s₁ hu => ?_
  refine (hu.wellFormed.union_ends (forall₂_reads_mono hNs hu.grows)).bind fun v s₂ hv => ?_
  exact hv.wellFormed.eq_iff (hu.reads.mono hv.grows) hv.reads

/-- The members of several types. -/
def membersOf (s : Store) (ts : List TypeId) : Set TypeId :=
  {m | ∃ t ∈ ts, ∃ members, s.members t = .ok members ∧ m ∈ members}

/-- What makes two unions the same: `?` in both, else `*` in both, else the same members. -/
def SameUnion (s : Store) (ms ns : List TypeId) : Prop :=
  (.unknown ∈ ms ∧ .unknown ∈ ns) ∨
    (.unknown ∉ ms ∧ .unknown ∉ ns) ∧
      ((.all ∈ ms ∧ .all ∈ ns) ∨ (.all ∉ ms ∧ .all ∉ ns) ∧ s.membersOf ms = s.membersOf ns)

namespace WellFormed

theorem mem_iff_of_reads (h : s.WellFormed) (hTs : List.Forall₂ s.Reads ts Ts) {t : TypeId}
    {T : Tree} (ht : s.Reads t T) : t ∈ ts ↔ T ∈ Ts := List.rel_mem h.reads_biUnique ht hTs

theorem forall_normal (h : s.WellFormed) (hTs : List.Forall₂ s.Reads ts Ts) :
    ∀ T ∈ Ts, T.Normal := by
  intro T hT
  obtain ⟨t, -, ht⟩ := exists_mem_left hTs hT
  exact h.reads_normal ht

theorem mem_membersOf_iff (h : s.WellFormed) (hTs : List.Forall₂ s.Reads ts Ts) {m : TypeId}
    {M : Tree} (hm : s.Reads m M) : m ∈ s.membersOf ts ↔ M ∈ Ts.flatMap Tree.members := by
  rw [List.mem_flatMap]
  refine exists_mem_iff_of_forall₂ hTs fun t _ T hT => ?_
  obtain ⟨members, Us, hmembers, hUs, hperm⟩ := h.reads_members hT
  rw [← hperm.mem_iff, ← h.mem_iff_of_reads hUs hm]
  constructor
  · rintro ⟨members', hmembers', hmem⟩
    cases hmembers.symm.trans hmembers'
    exact hmem
  · exact fun hmem => ⟨members, hmembers, hmem⟩

theorem exists_reads_of_mem_membersOf (h : s.WellFormed) (hTs : List.Forall₂ s.Reads ts Ts)
    {m : TypeId} (hm : m ∈ s.membersOf ts) : ∃ M, s.Reads m M := by
  obtain ⟨t, ht, members, hmembers, hmem⟩ := hm
  obtain ⟨T, -, hT⟩ := exists_mem_right hTs ht
  obtain ⟨members', Us, hmembers', hUs, -⟩ := h.reads_members hT
  cases hmembers.symm.trans hmembers'
  obtain ⟨M, -, hM⟩ := exists_mem_right hUs hmem
  exact ⟨M, hM⟩

theorem exists_mem_membersOf (h : s.WellFormed) (hTs : List.Forall₂ s.Reads ts Ts) {M : Tree}
    (hM : M ∈ Ts.flatMap Tree.members) : ∃ m, s.Reads m M := by
  obtain ⟨T, hT, hMT⟩ := List.mem_flatMap.1 hM
  obtain ⟨t, -, ht⟩ := exists_mem_left hTs hT
  obtain ⟨members, Us, -, hUs, hperm⟩ := h.reads_members ht
  obtain ⟨m, -, hm⟩ := exists_mem_left hUs (hperm.mem_iff.2 hMT)
  exact ⟨m, hm⟩

theorem membersOf_eq_iff (h : s.WellFormed) (hMs : List.Forall₂ s.Reads ms Ms)
    (hNs : List.Forall₂ s.Reads ns Ns) : s.membersOf ms = s.membersOf ns ↔
      ∀ M, M ∈ Ms.flatMap Tree.members ↔ M ∈ Ns.flatMap Tree.members := by
  rw [Set.ext_iff]
  constructor
  · intro hsame M
    by_cases hex : ∃ m, s.Reads m M
    · obtain ⟨m, hm⟩ := hex
      rw [← h.mem_membersOf_iff hMs hm, hsame, h.mem_membersOf_iff hNs hm]
    · exact iff_of_false (mt (h.exists_mem_membersOf hMs) hex) (mt (h.exists_mem_membersOf hNs) hex)
  · intro hsame m
    by_cases hex : ∃ M, s.Reads m M
    · obtain ⟨M, hM⟩ := hex
      rw [h.mem_membersOf_iff hMs hM, hsame, h.mem_membersOf_iff hNs hM]
    · exact iff_of_false (mt (h.exists_reads_of_mem_membersOf hMs) hex)
        (mt (h.exists_reads_of_mem_membersOf hNs) hex)

theorem sameUnion_iff (h : s.WellFormed) (hMs : List.Forall₂ s.Reads ms Ms)
    (hNs : List.Forall₂ s.Reads ns Ns) : s.SameUnion ms ns ↔ Tree.join Ms = Tree.join Ns := by
  rw [Tree.join_eq_join_iff (h.forall_normal hMs) (h.forall_normal hNs), SameUnion,
    h.membersOf_eq_iff hMs hNs, h.mem_iff_of_reads hMs h.reads_unknown,
    h.mem_iff_of_reads hNs h.reads_unknown, h.mem_iff_of_reads hMs h.reads_all,
    h.mem_iff_of_reads hNs h.reads_all]
  constructor
  · rintro (⟨hu, hu'⟩ | ⟨⟨hu, hu'⟩, ⟨ha, ha'⟩ | ⟨⟨ha, ha'⟩, hmem⟩⟩)
    · exact ⟨iff_of_true hu hu', fun hnot => absurd hu hnot, fun hnot => absurd hu hnot⟩
    · exact ⟨iff_of_false hu hu', fun _ => iff_of_true ha ha', fun _ hnot => absurd ha hnot⟩
    · exact ⟨iff_of_false hu hu', fun _ => iff_of_false ha ha', fun _ _ => hmem⟩
  · rintro ⟨hu, ha, hmem⟩
    by_cases hut : Tree.unknown ∈ Ms
    · exact .inl ⟨hut, hu.1 hut⟩
    · refine .inr ⟨⟨hut, mt hu.2 hut⟩, ?_⟩
      by_cases hat : Tree.all ∈ Ms
      · exact .inl ⟨hat, (ha hut).1 hat⟩
      · exact .inr ⟨⟨hat, mt (ha hut).2 hat⟩, hmem hut hat⟩

theorem exists_join_eq (h : s.WellFormed) (hTs : List.Forall₂ s.Reads ts Ts)
    (hsame : ∀ t, t ∈ ms ↔ t ∈ ts) :
    ∃ Ms, List.Forall₂ s.Reads ms Ms ∧ Tree.join Ms = Tree.join Ts := by
  obtain ⟨Ms, hMs⟩ := exists_forall₂_of_subset hTs fun t ht => (hsame t).1 ht
  refine ⟨Ms, hMs, Tree.join_congr fun T => ?_⟩
  rw [mem_right_iff_of_forall₂ h.reads_biUnique.2 hMs,
    mem_right_iff_of_forall₂ h.reads_biUnique.2 hTs]
  simp only [hsame]

/-- Two unions are the same if, up to order and repetition, their trees have the same join. -/
theorem bothUnions_eq (h : s.WellFormed) {ms' ns' : List TypeId}
    (hMs : List.Forall₂ s.Reads ms' Ms) (hNs : List.Forall₂ s.Reads ns' Ns)
    (hms : ∀ t, t ∈ ms ↔ t ∈ ms') (hns : ∀ t, t ∈ ns ↔ t ∈ ns')
    (hjoin : Tree.join Ms = Tree.join Ns) :
    Ends (fun p _ => p.1 = p.2) (bothUnions ms ns s) := by
  obtain ⟨Ms', hMs', hM⟩ := h.exists_join_eq hMs hms
  obtain ⟨Ns', hNs', hN⟩ := h.exists_join_eq hNs hns
  refine (h.bothUnions_ends hMs' hNs').imp fun p _ hp => ?_
  rw [hp, hM, hN, hjoin]

end WellFormed

/-- Two unions, made one after the other, are the same type exactly when they have the same members,
where `?` and then `*` absorb all else. So the order and the repetition of what is united play no
part, `None` adds nothing, and a part may be united first. Only a full store keeps a union from
being made. -/
theorem Reachable.union_eq_iff (h : s.Reachable) (hms : ∀ t ∈ ms, t.index < s.size) :
    (∀ ns : List TypeId, (∀ t ∈ ns, t.index < s.size) →
      Ends (fun p _ => p.1 = p.2 ↔ s.SameUnion ms ns) (bothUnions ms ns s)) ∧
    (∀ ns : List TypeId, (∀ t, t ∈ ns ↔ t ∈ ms) →
      Ends (fun p _ => p.1 = p.2) (bothUnions ms ns s)) ∧
    (∀ ns : List TypeId, ns.Perm (.empty :: ms) →
      Ends (fun p _ => p.1 = p.2) (bothUnions ms ns s)) ∧
    ∀ (part rest : List TypeId) (ns : TypeId → List TypeId), ms.Perm (part ++ rest) →
      (∀ u, (ns u).Perm (u :: rest)) →
      Ends (fun p _ => p.1 = p.2) ((do bothUnions ms (ns (← Store.union part))) s) := by
  have hwf := h.wellFormed
  obtain ⟨Ms, hMs⟩ := exists_forall₂ fun t ht => h.exists_reads (hms t ht)
  refine ⟨fun ns hns => ?_, fun ns hsame => ?_, fun ns hperm => ?_,
    fun part rest ns hsplit hns => ?_⟩
  · obtain ⟨Ns, hNs⟩ := exists_forall₂ fun t ht => h.exists_reads (hns t ht)
    refine (hwf.bothUnions_ends hMs hNs).imp fun p _ hp => ?_
    rw [hp, hwf.sameUnion_iff hMs hNs]
  · exact hwf.bothUnions_eq hMs hMs (fun t => Iff.rfl) hsame rfl
  · have hcons : List.Forall₂ s.Reads (.empty :: ms) (.empty :: Ms) := .cons hwf.reads_empty hMs
    exact hwf.bothUnions_eq hMs hcons (fun t => Iff.rfl) (fun t => hperm.mem_iff)
      (Tree.join_cons_empty Ms).symm
  · have hlt : ∀ t ∈ part ++ rest, t.index < s.size := fun t ht => hms t (hsplit.mem_iff.2 ht)
    obtain ⟨hpart, hrest⟩ := List.forall_mem_append.1 hlt
    obtain ⟨Ps, hPs⟩ := exists_forall₂ fun t ht => h.exists_reads (hpart t ht)
    obtain ⟨Rs, hRs⟩ := exists_forall₂ fun t ht => h.exists_reads (hrest t ht)
    refine (hwf.union_ends hPs).bind fun u s₁ hu => ?_
    have hPs₁ := forall₂_reads_mono hPs hu.grows
    have hRs₁ := forall₂_reads_mono hRs hu.grows
    exact hu.wellFormed.bothUnions_eq (List.rel_append hPs₁ hRs₁) (.cons hu.reads hRs₁)
      (fun t => hsplit.mem_iff) (fun t => (hns u).mem_iff)
      (Tree.join_join_cons (hwf.forall_normal hPs) (hwf.forall_normal hRs)).symm

/-- `(A|B)` and `(B|A<?>)` have the members of `A` and `(B|A<?>)`. -/
theorem sampleTypes_union_eq :
    ∃ u s', bothUnions [⟨5⟩, ⟨8⟩] [⟨3⟩, ⟨8⟩] sampleTypes = .ok (u, u) s' ∧
      sampleTypes.SameUnion [⟨5⟩, ⟨8⟩] [⟨3⟩, ⟨8⟩] := by
  have hms : ∀ t ∈ [(⟨5⟩ : TypeId), ⟨8⟩], t.index < sampleTypes.size := by decide
  have hiff := (sampleTypes_reachable.union_eq_iff hms).1 [⟨3⟩, ⟨8⟩] (by decide)
  obtain ⟨s', hrun⟩ : ∃ s', bothUnions [⟨5⟩, ⟨8⟩] [⟨3⟩, ⟨8⟩] sampleTypes = .ok (⟨9⟩, ⟨9⟩) s' :=
    ⟨_, rfl⟩
  rw [hrun] at hiff
  exact ⟨⟨9⟩, s', hrun, hiff.1 rfl⟩

end Store

end TypeCalculus
