import TypeCalculus.Proofs.Evaluation.Canonical

/-!
What `?` means in a template argument. Two arguments match exactly when some type comes of both by
putting types in the place of `?`. To a match it is all one which of the two comes first, and so it
is to subtyping between templatised types.
-/

namespace TypeCalculus

theorem exists_common {α β γ : Type} {P : γ → Prop} {R : γ → α → Prop} {Q : γ → β → Prop}
    {as : List α} {bs : List β} (h : List.Forall₂ (fun a b => ∃ c, P c ∧ R c a ∧ Q c b) as bs) :
    ∃ cs, (∀ c ∈ cs, P c) ∧ List.Forall₂ R cs as ∧ List.Forall₂ Q cs bs := by
  induction h with
  | nil => exact ⟨[], nofun, .nil, .nil⟩
  | cons hab _ ih =>
    obtain ⟨c, hP, hR, hQ⟩ := hab
    obtain ⟨cs, hPs, hRs, hQs⟩ := ih
    exact ⟨c :: cs, List.forall_mem_cons.2 ⟨hP, hPs⟩, .cons hR hRs, .cons hQ hQs⟩

namespace Tree

/-- The first tree comes of the second by putting trees in the place of `?`. Each `?` at the top or
in an argument is dealt with for itself; a `?` inside a union stays. -/
inductive Refines : Tree → Tree → Prop where
  | kept (a) : Refines a a
  | filled (c) : Refines c unknown
  | applied {base cs as} : cs.length = as.length → (∀ p ∈ cs.zip as, Refines p.1 p.2) →
      Refines (applied base cs) (applied base as)

variable {a b c : Tree}

theorem Refines.of_forall₂ {base : Tree} {cs as : List Tree} (h : List.Forall₂ Refines cs as) :
    Refines (Tree.applied base cs) (Tree.applied base as) := by
  have hzip := List.forall₂_iff_zip.1 h
  exact .applied hzip.1 fun p hp => hzip.2 hp

theorem Matches.symm (h : Matches a b) : Matches b a := by
  induction h with
  | refl a => exact .refl a
  | unknown_left b => exact .unknown_right b
  | unknown_right a => exact .unknown_left a
  | @applied base as bs hl _ ih =>
    have hargs : List.Forall₂ (fun a b => Matches b a) as bs :=
      List.forall₂_iff_zip.2 ⟨hl, fun hp => ih _ hp⟩
    exact .of_forall₂ hargs.flip

/-- Putting trees in the place of `?` gives what still matches. -/
theorem Refines.matches_self (h : Refines c a) : Matches c a := by
  induction h with
  | kept a => exact .refl a
  | filled c => exact .unknown_right c
  | applied hl _ ih => exact .applied hl ih

/-- Trees that one tree comes of match each other. -/
theorem Refines.matches_of_common (ha : Refines c a) (hb : Refines c b) : Matches a b := by
  induction ha generalizing b with
  | kept a => exact hb.matches_self
  | filled c => exact .unknown_left b
  | @applied base cs as hl h ih =>
    cases hb with
    | kept =>
      have hself : Refines (Tree.applied base cs) (Tree.applied base as) := .applied hl h
      exact hself.matches_self.symm
    | filled => exact .unknown_right _
    | @applied _ _ bs hl' h' =>
      have has : List.Forall₂ (fun c a => ∀ b, Refines c b → Matches a b) cs as :=
        List.forall₂_iff_zip.2 ⟨hl, fun hp b => ih _ hp⟩
      have hbs : List.Forall₂ Refines cs bs := List.forall₂_iff_zip.2 ⟨hl', fun hp => h' _ hp⟩
      exact .of_forall₂ (forall₂_trans (fun a c b hab hcb => hab b hcb) has.flip hbs)

theorem Canonical.applied_of_args {base : Tree} {as cs : List Tree}
    (h : (Tree.applied base as).Canonical) (hcs : ∀ c ∈ cs, c.Canonical) :
    (Tree.applied base cs).Canonical := by
  have hbase := h.of_mem_parts List.mem_cons_self
  have hparts := List.forall_mem_cons.2 ⟨hbase, hcs⟩
  cases h.normal with
  | atom ha =>
    cases ha with
    | applied name => exact .intro (.atom (.applied name cs)) hparts

/-- Of two canonical trees that match a third one comes, which is canonical too: where one of the two
has `?` it takes over what the other has. -/
theorem Matches.exists_refines (h : Matches a b) (ha : a.Canonical) (hb : b.Canonical) :
    ∃ c, c.Canonical ∧ Refines c a ∧ Refines c b := by
  induction h with
  | refl a => exact ⟨a, ha, .kept a, .kept a⟩
  | unknown_left b => exact ⟨b, hb, .filled b, .kept b⟩
  | unknown_right a => exact ⟨a, ha, .kept a, .filled a⟩
  | @applied base as bs hl _ ih =>
    have hargs : List.Forall₂ (fun a b => ∃ c, Canonical c ∧ Refines c a ∧ Refines c b) as bs := by
      refine List.forall₂_iff_zip.2 ⟨hl, fun {a b} hp => ?_⟩
      have hmem := List.of_mem_zip hp
      have hca := ha.of_mem_parts (List.mem_cons_of_mem base hmem.1)
      have hcb := hb.of_mem_parts (List.mem_cons_of_mem base hmem.2)
      exact ih (a, b) hp hca hcb
    obtain ⟨cs, hcs, hra, hrb⟩ := exists_common hargs
    exact ⟨Tree.applied base cs, ha.applied_of_args hcs, .of_forall₂ hra, .of_forall₂ hrb⟩

theorem Atom.below_iff_matches (ha : a.Atom) (hb : b.Atom) (hia : a.isApplied = true)
    (hib : b.isApplied = true) : Below a b ↔ Matches a b := by
  cases ha with
  | named => cases hia
  | applied =>
    cases hb with
    | named => cases hib
    | applied => exact applied_below_applied_iff

end Tree

/-- Two tests whether one and the same thing holds come to one and the same answer. -/
theorem Answers.exists_both {r r' : Except Fault Bool} {P P' : Prop} (h : Answers r P)
    (h' : Answers r' P') (hiff : P ↔ P') : ∃ b, r = .ok b ∧ r' = .ok b ∧ (b = true ↔ P) := by
  obtain ⟨b, rfl, hb⟩ := h
  obtain ⟨b', rfl, hb'⟩ := h'
  have hsame : b = b' := Bool.eq_iff_iff.2 (hb.trans (hiff.trans hb'.symm))
  exact ⟨b, rfl, congrArg Except.ok hsame.symm, hb⟩

namespace Store

variable {s : Store} {a b : TypeId} {A B : Tree}

theorem WellFormed.argMatches_answers (h : s.WellFormed) (ha : s.Reads a A) (hb : s.Reads b B) :
    Answers (s.argMatches a b) (A.Matches B) :=
  h.argMatchesWithin_answers (Nat.lt_succ_self _) ha hb

theorem WellFormed.isSubtype_answers_of_applied (h : s.WellFormed) (ha : s.Reads a A)
    (hb : s.Reads b B) (hka : s.kind a = .ok .applied) (hkb : s.kind b = .ok .applied) :
    Answers (s.isSubtype a b) (A.Matches B) := by
  have happlied {t T} (ht : s.Reads t T) (hk : s.kind t = .ok .applied) : T.isApplied = true := by
    obtain ⟨kind, hkind, -, hiff⟩ := h.reads_kind ht
    exact hiff.1 (Except.ok.inj (hkind.symm.trans hk))
  have hiff := (h.atom_of_kind ha (.inr hka)).below_iff_matches (h.atom_of_kind hb (.inr hkb))
    (happlied ha hka) (happlied hb hkb)
  rw [← hiff]
  exact h.isSubtype_answers ha hb

/-- Two template arguments match exactly if something comes of both of them by putting types in the
place of `?`; then a canonical tree does. The arguments match both ways or neither way, and of two
templatised types each is below the other or neither is. -/
theorem Reachable.argMatches_iff_common (h : s.Reachable) (ha : a.index < s.size)
    (hb : b.index < s.size) :
    ∃ A B answer, s.tree a = .ok A ∧ s.tree b = .ok B ∧
      s.argMatches a b = .ok answer ∧ s.argMatches b a = .ok answer ∧
      (answer = true ↔ ∃ C : Tree, C.Refines A ∧ C.Refines B) ∧
      (answer = true ↔ ∃ C : Tree, C.Canonical ∧ C.Refines A ∧ C.Refines B) ∧
      (s.kind a = .ok .applied → s.kind b = .ok .applied →
        ∃ below, s.isSubtype a b = .ok below ∧ s.isSubtype b a = .ok below) := by
  have hwf := h.wellFormed
  obtain ⟨A, hA⟩ := h.exists_reads ha
  obtain ⟨B, hB⟩ := h.exists_reads hb
  have hsymm : A.Matches B ↔ B.Matches A := ⟨.symm, .symm⟩
  obtain ⟨answer, hab, hba, hiff⟩ :=
    (hwf.argMatches_answers hA hB).exists_both (hwf.argMatches_answers hB hA) hsymm
  have hcommon (hM : A.Matches B) := hM.exists_refines (hwf.reads_canonical hA) (hwf.reads_canonical hB)
  refine ⟨A, B, answer, hA, hB, hab, hba, hiff.trans ⟨fun hM => ?_, ?_⟩,
    hiff.trans ⟨hcommon, ?_⟩, fun hka hkb => ?_⟩
  · obtain ⟨C, -, hCA, hCB⟩ := hcommon hM
    exact ⟨C, hCA, hCB⟩
  · rintro ⟨C, hCA, hCB⟩
    exact hCA.matches_of_common hCB
  · rintro ⟨C, -, hCA, hCB⟩
    exact hCA.matches_of_common hCB
  · obtain ⟨below, hbelow, hbelow', -⟩ := (hwf.isSubtype_answers_of_applied hA hB hka hkb).exists_both
      (hwf.isSubtype_answers_of_applied hB hA hkb hka) hsymm
    exact ⟨below, hbelow, hbelow'⟩

/-- `A<?, B>` and `A<B, ?>` can both become `A<B, B>`, and each is below the other. -/
theorem crossed_argMatches_common :
    let s := sampleTypes.run [.make (.applied ⟨3⟩ [.unknown, ⟨4⟩]),
      .make (.applied ⟨3⟩ [⟨4⟩, .unknown])]
    s.argMatches ⟨9⟩ ⟨10⟩ = .ok true ∧
      (∃ A B C : Tree, s.tree ⟨9⟩ = .ok A ∧ s.tree ⟨10⟩ = .ok B ∧ C.Refines A ∧ C.Refines B) ∧
      s.isSubtype ⟨9⟩ ⟨10⟩ = s.isSubtype ⟨10⟩ ⟨9⟩ := by
  intro s
  obtain ⟨A, B, answer, hA, hB, hab, -, hiff, -, hsub⟩ :=
    (sampleTypes_reachable.run [.make (.applied ⟨3⟩ [.unknown, ⟨4⟩]),
      .make (.applied ⟨3⟩ [⟨4⟩, .unknown])]).argMatches_iff_common
      (show (⟨9⟩ : TypeId).index < s.size by decide) (show (⟨10⟩ : TypeId).index < s.size by decide)
  have hyes : s.argMatches ⟨9⟩ ⟨10⟩ = .ok true := rfl
  cases hyes.symm.trans hab
  obtain ⟨C, hCA, hCB⟩ := hiff.1 rfl
  obtain ⟨below, hbelow, hbelow'⟩ := hsub rfl rfl
  exact ⟨hyes, ⟨A, B, C, hA, hB, hCA, hCB⟩, hbelow.trans hbelow'.symm⟩

end Store

end TypeCalculus
