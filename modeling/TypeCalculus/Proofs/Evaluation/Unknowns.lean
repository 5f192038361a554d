import TypeCalculus.Proofs.Evaluation.Denotation
import TypeCalculus.Proofs.Evaluation.Reach
import TypeCalculus.Proofs.Store.Hereditary

/-!
Where `?` comes from. If no type that an expression starts from mentions `?` and no operation of it
asks for `?`, then `?` gets into the result only in the place of a name that did not resolve, and the
evaluation reports that name.
-/

namespace TypeCalculus

theorem Tree.hereditary_not_mentionsUnknown : Tree.Hereditary fun T => ¬T.MentionsUnknown where
  all := nofun
  empty := nofun
  union_iff := by simp [mentionsUnknown_union_iff]
  applied_iff := by simp [mentionsUnknown_applied_iff]

/-- No node that can be come to asks for `?` or for a part of a templatised type. -/
def Arena.Plain (a : Arena) (names : NameTable) (root : NodeId) : Prop :=
  ∀ place id, a.Within names root place id →
    ∀ text ∈ ["unknown", "rawTypeOf", "templateTypeOf"], ∀ operands, ¬a.Calls names id text operands

namespace Meaning

variable {α β : Type}

theorem bind_eq_result_empty_iff {m : Meaning α} {next : α → Meaning β} {b : β} :
    (m >>= next) = .result b ∅ ↔ ∃ a, m = .result a ∅ ∧ next a = .result b ∅ := by
  rw [bind_eq_result_iff]
  constructor
  · rintro ⟨a, D₁, D₂, hm, hn, hD⟩
    obtain ⟨rfl, rfl⟩ := Set.union_empty_iff.1 hD.symm
    exact ⟨a, hm, hn⟩
  · rintro ⟨a, hm, hn⟩
    exact ⟨a, ∅, ∅, hm, hn, (Set.union_empty ∅).symm⟩

theorem mapM_eq_result_empty {f : α → Meaning β} {as : List α} {bs : List β}
    (h : as.mapM f = .result bs ∅) : ∀ b ∈ bs, ∃ a ∈ as, f a = .result b ∅ := by
  induction as generalizing bs with
  | nil =>
    obtain ⟨rfl, -⟩ := pure_eq_result_iff.1 h
    exact List.forall_mem_nil _
  | cons a as ih =>
    rw [List.mapM_cons] at h
    obtain ⟨b, hb, h⟩ := bind_eq_result_empty_iff.1 h
    obtain ⟨bs, hbs, h⟩ := bind_eq_result_empty_iff.1 h
    obtain ⟨rfl, -⟩ := pure_eq_result_iff.1 h
    refine List.forall_mem_cons.2 ⟨⟨a, List.mem_cons_self, hb⟩, fun b' hb' => ?_⟩
    obtain ⟨a', ha', h'⟩ := ih hbs b' hb'
    exact ⟨a', List.mem_cons_of_mem a ha', h'⟩

theorem resolved_eq_result_empty {found : Option Tree} {miss : Miss} {T : Tree}
    (h : resolved found miss = .result T ∅) : found = some T := by
  cases found with
  | some U =>
    obtain ⟨rfl, -⟩ := pure_eq_result_iff.1 h
    rfl
  | none =>
    obtain ⟨_, hnote, -⟩ := bind_eq_result_empty_iff.1 h
    exact absurd (Meaning.result.inj hnote).2 (Set.singleton_ne_empty miss)

end Meaning

namespace Setting

variable {st : Setting} {P : Tree → Prop} {root id : NodeId} {env : Env} {T : Tree}

/-- What is evaluated without a miss has a property that all types have from which it starts. -/
theorem of_typeAt (hP : Tree.Hereditary P) (hplain : st.arena.Plain st.names root)
    (hd : ∀ name T, st.declared? name = some T → P T) {room : Nat}
    (hid : st.arena.Within st.names root .type id) (henv : ∀ name T, env name = some T → P T)
    (h : st.typeAt room env id = .result T ∅) : P T := by
  induction room generalizing env id T with
  | zero => cases h
  | succ room ih =>
    obtain ⟨op, hop, hT⟩ := typeAt_succ_eq_result_iff.1 h
    have hpart {part} (hp : op.Part .type part) : st.arena.Within st.names root .type part :=
      .operation hid hop hp
    have hcalls (text) (htext : text ∈ ["unknown", "rawTypeOf", "templateTypeOf"]) (operands) :
        ¬st.arena.Calls st.names id text operands := hplain .type id hid text htext operands
    cases op with
    | var name => exact henv name T (Meaning.resolved_eq_result_empty hT)
    | empty =>
      obtain ⟨rfl, -⟩ := Meaning.pure_eq_result_iff.1 hT
      exact hP.empty
    | all =>
      obtain ⟨rfl, -⟩ := Meaning.pure_eq_result_iff.1 hT
      exact hP.all
    | unknown => exact absurd hop (hcalls "unknown" (by simp) [])
    | named name args =>
      obtain ⟨As, hAs, hT⟩ := Meaning.bind_eq_result_empty_iff.1 hT
      obtain ⟨B, hB, hT⟩ := Meaning.bind_eq_result_empty_iff.1 hT
      obtain ⟨rfl, -⟩ := Meaning.pure_eq_result_iff.1 hT
      refine hP.apply (hd name B (Meaning.resolved_eq_result_empty hB)) fun A hA => ?_
      obtain ⟨arg, harg, hA⟩ := Meaning.mapM_eq_result_empty hAs A hA
      exact ih (hpart (.arg harg)) henv hA
    | union operands =>
      obtain ⟨Ts, hTs, hT⟩ := Meaning.bind_eq_result_empty_iff.1 hT
      obtain ⟨rfl, -⟩ := Meaning.pure_eq_result_iff.1 hT
      refine hP.join fun U hU => ?_
      obtain ⟨operand, hoperand, hU⟩ := Meaning.mapM_eq_result_empty hTs U hU
      exact ih (hpart (.member hoperand)) henv hU
    | cond test yes no =>
      obtain ⟨b, -, hT⟩ := Meaning.bind_eq_result_empty_iff.1 hT
      cases b with
      | true => exact ih (hpart .yes) henv hT
      | false => exact ih (hpart .no) henv hT
    | mapUnion source param body =>
      obtain ⟨S, hS, hT⟩ := Meaning.bind_eq_result_empty_iff.1 hT
      obtain ⟨Ts, hTs, hT⟩ := Meaning.bind_eq_result_empty_iff.1 hT
      obtain ⟨rfl, -⟩ := Meaning.pure_eq_result_iff.1 hT
      refine hP.join fun U hU => ?_
      obtain ⟨M, hM, hU⟩ := Meaning.mapM_eq_result_empty hTs U hU
      have hmember : P M := hP.members (ih (hpart .source) henv hS) M hM
      exact ih (hpart .body) (Env.forall_update henv hmember) hU
    | rawTypeOf subject => exact absurd hop (hcalls "rawTypeOf" (by simp) [subject])
    | templateTypeOf subject place =>
      obtain ⟨literal, hc, -⟩ := hop
      exact absurd hc (hcalls "templateTypeOf" (by simp) [subject, literal])

end Setting

namespace Store

variable {s : Store} {P : Tree → Prop} {found : Name → Option TypeId}

theorem HoldsIn.holds (hf : s.HoldsIn P found) (hwf : s.WellFormed) : s.Holds found := by
  intro name t ht
  obtain ⟨T, hT, -⟩ := hf name t ht
  exact hwf.lt_size_of_reads hT

theorem HoldsIn.of_treesOf (hf : s.HoldsIn P found) {name : Name} {T : Tree}
    (h : s.treesOf found name = some T) : P T := by
  unfold treesOf at h
  obtain ⟨t, ht, hT⟩ := Option.bind_eq_some_iff.1 h
  obtain ⟨T', hT', hP⟩ := hf name t ht
  rw [hT'] at hT
  cases hT
  exact hP

end Store

namespace Context

variable {cx : Context} {scope : Scope} {root : NodeId} {s s' : Store} {e : Evaluation}

/-- If neither the types that names stand for nor the operations of an expression bring in a `?`, then
a result that is `?`, or has it anywhere inside, comes with a miss. The traits of the result tell
whether that is so. -/
theorem evaluate_mentionsUnknown (h : s.Reachable)
    (hd : s.HoldsIn (fun T => ¬T.MentionsUnknown) cx.declared?)
    (hs : s.HoldsIn (fun T => ¬T.MentionsUnknown) scope.lookup?)
    (hplain : cx.arena.Plain cx.names root) (he : cx.evaluate scope root s = (.ok e, s')) :
    ∃ T, s'.Reads e.type T ∧ (s'.Flagged e.type ↔ T.MentionsUnknown) ∧
      (T.MentionsUnknown → e.misses ≠ []) := by
  have hwf := h.wellFormed
  have haccords := evaluate_accords hwf (hwf.binds_treesOf (hd.holds hwf))
    (hwf.binds_treesOf (hs.holds hwf)) root
  have hwf' := hwf.evaluate cx scope root
  rw [he] at haccords hwf'
  obtain ⟨T, D, hT, hreads, -, hD⟩ := haccords
  refine ⟨T, hreads, hwf'.flagged_iff hreads, fun hmentions hnone => ?_⟩
  have hempty : D = ∅ := Set.eq_empty_iff_forall_notMem.2 fun miss hmiss => by
    have hmem := (hD miss).2 hmiss
    rw [hnone] at hmem
    cases hmem
  subst hempty
  exact Setting.of_typeAt Tree.hereditary_not_mentionsUnknown hplain
    (fun _ _ hname => hd.of_treesOf hname) .root (fun _ _ hname => hs.of_treesOf hname) hT hmentions

/-- `type('T', y)`, where `T` is `A`. -/
def wanting : Context where
  names := .new .byScalars
  arena := ⟨#[.str ⟨1, 1⟩, .var ⟨0, 2⟩, .call ⟨2, 0⟩ ⟨0, 2⟩], #[⟨0⟩, ⟨1⟩]⟩
  declared? name := if name = ⟨1, 1⟩ then some ⟨3⟩ else none
  limit := ⟨2⟩

theorem wanting_plain : wanting.arena.Plain wanting.names ⟨2⟩ := by
  rintro - id - text htext operands ⟨callee, range, hn, hname, -⟩
  match id with
  | ⟨0⟩ | ⟨1⟩ | ⟨i + 3⟩ => cases hn
  | ⟨2⟩ =>
    cases hn
    have htype : wanting.names.text? ⟨2, 0⟩ = some "type" := rfl
    cases htype.symm.trans hname
    simp at htext

/-- Nothing is bound to `y`, so the type is `A<?>`. -/
theorem wanting_evaluate_mentionsUnknown : ∃ T e s',
    wanting.evaluate .empty ⟨2⟩ .sampleTypes = (.ok e, s') ∧ s'.Reads e.type T ∧ T.MentionsUnknown ∧
      e.misses ≠ [] := by
  have he : (wanting.evaluate .empty ⟨2⟩ .sampleTypes).1 =
      .ok ⟨⟨6⟩, [.unboundVariable ⟨0, 2⟩]⟩ := rfl
  have hdeclared : Store.sampleTypes.HoldsIn (fun T => ¬T.MentionsUnknown) wanting.declared? := by
    intro name t ht
    unfold wanting at ht
    simp only [Option.ite_none_right_eq_some, Option.some.injEq] at ht
    obtain ⟨-, rfl⟩ := ht
    exact ⟨.named ⟨1, 0⟩, rfl, nofun⟩
  have hbound : Store.sampleTypes.HoldsIn (fun T => ¬T.MentionsUnknown) Scope.empty.lookup? :=
    fun name t ht => absurd (Scope.mem_of_lookup?_ofBindings ht) List.not_mem_nil
  obtain ⟨T, hT, hflagged, hmisses⟩ := evaluate_mentionsUnknown Store.sampleTypes_reachable hdeclared
    hbound wanting_plain (Prod.ext he rfl)
  have hmentions : T.MentionsUnknown := hflagged.1 ⟨_, rfl, rfl⟩
  exact ⟨T, _, _, Prod.ext he rfl, hT, hmentions, hmisses hmentions⟩

end Context

end TypeCalculus
