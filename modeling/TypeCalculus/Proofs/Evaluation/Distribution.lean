import TypeCalculus.Proofs.Evaluation.Canonical
import TypeCalculus.Proofs.Evaluation.Limits

/-!
Mapping over a union is the union of mapping over its parts. A member that both parts have is mapped
once on the one side and twice on the other, and what comes of a member may be a union, `?` or `*`
that is absorbed earlier on the one side than on the other; the type is the same.
-/

namespace TypeCalculus

namespace Tree

variable {R : Tree → Tree → Prop} {ms ms₁ ms₂ Ts Ts₁ Ts₂ : List Tree}

theorem join_pair (h₁ : ∀ t ∈ Ts₁, t.Normal) (h₂ : ∀ t ∈ Ts₂, t.Normal) :
    join [join Ts₁, join Ts₂] = join (Ts₁ ++ Ts₂) := by
  have hlast : ∀ t ∈ [join Ts₂], t.Normal := List.forall_mem_singleton.2 (normal_join h₂)
  calc join [join Ts₁, join Ts₂]
      _ = join (Ts₁ ++ [join Ts₂]) := join_join_cons h₁ hlast
      _ = join (join Ts₂ :: Ts₁) := join_perm (List.perm_append_singleton _ _)
      _ = join (Ts₂ ++ Ts₁) := join_join_cons h₂ h₁
      _ = join (Ts₁ ++ Ts₂) := join_perm List.perm_append_comm

/-- Members that are divided in two parts, which may overlap, give the same join as the joins of the
two parts. -/
theorem join_of_parts (hR : Relator.RightUnique R)
    (hms : ∀ m, m ∈ ms ↔ m ∈ ms₁ ∨ m ∈ ms₂) (hTs : List.Forall₂ R ms Ts)
    (hTs₁ : List.Forall₂ R ms₁ Ts₁) (hTs₂ : List.Forall₂ R ms₂ Ts₂)
    (h₁ : ∀ t ∈ Ts₁, t.Normal) (h₂ : ∀ t ∈ Ts₂, t.Normal) :
    join Ts = join [join Ts₁, join Ts₂] := by
  rw [join_pair h₁ h₂]
  refine join_congr fun T => ?_
  rw [List.mem_append, mem_right_iff_of_forall₂ hR hTs, mem_right_iff_of_forall₂ hR hTs₁,
    mem_right_iff_of_forall₂ hR hTs₂]
  simp only [hms, or_and_right, exists_or]

end Tree

namespace Setting

variable {st : Setting} {env : Env} {id : NodeId} {T : Tree}

theorem Denotes.exists_meaning (h : st.Denotes env id T) {op : Operation}
    (hop : st.arena.Asks st.names id op) :
    ∃ room D, op.meaning (st.typeAt room) st.declared? (st.holdsAt room) env = .result T D := by
  obtain ⟨room, D, hT⟩ := denotes_iff.1 h
  cases room with
  | zero => cases hT
  | succ room =>
    obtain ⟨op', hop', hm⟩ := typeAt_succ_eq_result_iff.1 hT
    cases hop.unique hop'
    exact ⟨room, D, hm⟩

theorem denotes_union_iff {a b : NodeId} (hc : st.Calls id "union" [a, b]) :
    st.Denotes env id T ↔
      ∃ A B, st.Denotes env a A ∧ st.Denotes env b B ∧ T = .join [A, B] := by
  constructor
  · intro h
    have hop : st.arena.Asks st.names id (.union [a, b]) := ⟨hc, Nat.le_refl 2⟩
    obtain ⟨room, D, hm⟩ := h.exists_meaning hop
    obtain ⟨Ts, _, _, hTs, hT, -⟩ := Meaning.bind_eq_result_iff.1 hm
    obtain ⟨rfl, -⟩ := Meaning.pure_eq_result_iff.1 hT
    have hall := (Meaning.forall₂_of_mapM hTs).imp fun _ _ ⟨_, h⟩ => denotes_of_typeAt h
    simp only [List.forall₂_cons_left_iff, List.forall₂_nil_left_iff] at hall
    obtain ⟨A, _, hA, ⟨B, _, hB, rfl, rfl⟩, rfl⟩ := hall
    exact ⟨A, B, hA, hB, rfl⟩
  · rintro ⟨A, B, hA, hB, rfl⟩
    have hall : List.Forall₂ (st.Denotes env) [a, b] [A, B] := .cons hA (.cons hB .nil)
    obtain ⟨hl, hall⟩ := List.forall₂_iff_zip.1 hall
    exact .union hc (Nat.le_refl 2) hl fun p hp => hall hp

/-- What the body of a function denotes when the parameter stands for a member. -/
def Maps (st : Setting) (env : Env) (param : Name) (body : NodeId) (M T : Tree) : Prop :=
  st.Denotes (Function.update env param (some M)) body T

theorem denotes_mapUnion_iff {source function body : NodeId} {param : Name} {S : Tree}
    (hc : st.Calls id "mapunion" [source, function])
    (hf : st.arena.node function = .ok (.function param body)) (hS : st.Denotes env source S) :
    st.Denotes env id T ↔
      ∃ Ts, List.Forall₂ (st.Maps env param body) S.members Ts ∧ T = .join Ts := by
  constructor
  · intro h
    have hop : st.arena.Asks st.names id (.mapUnion source param body) := ⟨function, hc, hf⟩
    obtain ⟨room, D, hm⟩ := h.exists_meaning hop
    obtain ⟨S', _, _, hS', hm, -⟩ := Meaning.bind_eq_result_iff.1 hm
    obtain ⟨Ts, _, _, hTs, hT, -⟩ := Meaning.bind_eq_result_iff.1 hm
    obtain ⟨rfl, -⟩ := Meaning.pure_eq_result_iff.1 hT
    obtain rfl := hS.unique (denotes_of_typeAt hS')
    exact ⟨Ts, (Meaning.forall₂_of_mapM hTs).imp fun _ _ ⟨_, h⟩ => denotes_of_typeAt h, rfl⟩
  · rintro ⟨Ts, hTs, rfl⟩
    obtain ⟨hl, hall⟩ := List.forall₂_iff_zip.1 hTs
    exact .mapUnion hc hf hS hl fun p hp => hall hp

end Setting

/-- The nodes of `mapunion(union(a, b), f)`, which is the whole, and of
`union(mapunion(a, f), mapunion(b, f))`, which are the pieces. -/
structure Arena.Distributed (arena : Arena) (names : NameTable)
    (a b f mapA mapB whole pieces : NodeId) : Prop where
  function : ∃ param body, arena.node f = .ok (.function param body)
  whole : ∃ source, arena.Calls names source "union" [a, b] ∧
    arena.Calls names whole "mapunion" [source, f]
  left : arena.Calls names mapA "mapunion" [a, f]
  right : arena.Calls names mapB "mapunion" [b, f]
  pieces : arena.Calls names pieces "union" [mapA, mapB]

namespace Setting

variable {st : Setting} {env : Env} {a b f mapA mapB whole pieces : NodeId} {A B T : Tree}

theorem exists_pieces_iff (h : st.arena.Distributed st.names a b f mapA mapB whole pieces) :
    (∃ T, st.Denotes env pieces T) ↔
      (∃ T, st.Denotes env mapA T) ∧ ∃ T, st.Denotes env mapB T := by
  simp only [denotes_union_iff h.pieces]
  constructor
  · rintro ⟨T, L, R, hL, hR, -⟩
    exact ⟨⟨L, hL⟩, ⟨R, hR⟩⟩
  · rintro ⟨⟨L, hL⟩, ⟨R, hR⟩⟩
    exact ⟨_, L, R, hL, hR, rfl⟩

theorem normal_of_maps {param : Name} {body : NodeId} {Ts : List Tree}
    (hd : Env.Canonical st.declared?) (henv : Env.Canonical env) (hA : A.Canonical)
    (hTs : List.Forall₂ (st.Maps env param body) A.members Ts) : ∀ t ∈ Ts, t.Normal := by
  intro T hT
  obtain ⟨M, hM, hmaps⟩ := exists_mem_left hTs hT
  have hcanonical := Denotes.canonical hmaps hd (henv.update (hA.of_mem_members hM))
  exact hcanonical.normal

/-- The whole and the pieces denote the same, if the sources are neither `?` nor `*`. -/
theorem denotes_whole_iff (h : st.arena.Distributed st.names a b f mapA mapB whole pieces)
    (hd : Env.Canonical st.declared?) (henv : Env.Canonical env) (hA : st.Denotes env a A)
    (hB : st.Denotes env b B) (hAu : A ≠ .unknown) (hAa : A ≠ .all) (hBu : B ≠ .unknown)
    (hBa : B ≠ .all) : st.Denotes env whole T ↔ st.Denotes env pieces T := by
  obtain ⟨param, body, hf⟩ := h.function
  obtain ⟨source, hsource, hwhole⟩ := h.whole
  have hcA := hA.canonical hd henv
  have hcB := hB.canonical hd henv
  have hS : st.Denotes env source (.join [A, B]) :=
    (denotes_union_iff hsource).2 ⟨A, B, hA, hB, rfl⟩
  have hmembers : ∀ M, M ∈ (Tree.join [A, B]).members ↔ M ∈ A.members ∨ M ∈ B.members := by
    intro M
    have hnormal : ∀ t ∈ [A, B], t.Normal := by simp [hcA.normal, hcB.normal]
    rw [Tree.mem_members_join hnormal (by simp [hAu.symm, hBu.symm]) (by simp [hAa.symm, hBa.symm])]
    simp
  have hunique : Relator.RightUnique (st.Maps env param body) := fun _ _ _ hT hT' =>
    Denotes.unique hT hT'
  have hjoin {Ts TsA TsB : List Tree}
      (hTs : List.Forall₂ (st.Maps env param body) (Tree.join [A, B]).members Ts)
      (hTsA : List.Forall₂ (st.Maps env param body) A.members TsA)
      (hTsB : List.Forall₂ (st.Maps env param body) B.members TsB) :
      Tree.join Ts = .join [.join TsA, .join TsB] :=
    Tree.join_of_parts hunique hmembers hTs hTsA hTsB (normal_of_maps hd henv hcA hTsA)
      (normal_of_maps hd henv hcB hTsB)
  rw [denotes_mapUnion_iff hwhole hf hS, denotes_union_iff h.pieces]
  constructor
  · rintro ⟨Ts, hTs, rfl⟩
    obtain ⟨TsA, hTsA⟩ := exists_forall₂_of_subset hTs fun M hM => (hmembers M).2 (.inl hM)
    obtain ⟨TsB, hTsB⟩ := exists_forall₂_of_subset hTs fun M hM => (hmembers M).2 (.inr hM)
    have hmapA := (denotes_mapUnion_iff h.left hf hA).2 ⟨TsA, hTsA, rfl⟩
    have hmapB := (denotes_mapUnion_iff h.right hf hB).2 ⟨TsB, hTsB, rfl⟩
    exact ⟨_, _, hmapA, hmapB, hjoin hTs hTsA hTsB⟩
  · rintro ⟨L, R, hmapA, hmapB, rfl⟩
    obtain ⟨TsA, hTsA, rfl⟩ := (denotes_mapUnion_iff h.left hf hA).1 hmapA
    obtain ⟨TsB, hTsB, rfl⟩ := (denotes_mapUnion_iff h.right hf hB).1 hmapB
    obtain ⟨Ts, hTs⟩ : ∃ Ts,
        List.Forall₂ (st.Maps env param body) (Tree.join [A, B]).members Ts := by
      refine exists_forall₂_of_subset (List.rel_append hTsA hTsB) fun M hM => ?_
      exact List.mem_append.2 ((hmembers M).1 hM)
    exact ⟨Ts, hTs, (hjoin hTs hTsA hTsB).symm⟩

end Setting

namespace Context

variable {scope : Scope} {s : Store} {declared' env : Env} {T : Tree}

/-- What denotes a tree is evaluated to a type with this tree, unless the evaluation is cut off or
does not find room. -/
theorem evaluate_ne_error_of_denotes (cx : Context) (hwf : s.WellFormed)
    (hd : s.Binds cx.declared? declared') (hs : s.Binds scope.lookup? env) (root : NodeId)
    (hT : Setting.Denotes ⟨cx.names, cx.arena, declared'⟩ env root T) {e : Abort} {s' : Store}
    (he : cx.evaluate scope root s = (.error e, s')) :
    e = .fault .storeFull ∨ ∃ n, e = .error (.depthExceeded n) := by
  obtain ⟨names, arena, declared?, limit⟩ := cx
  obtain ⟨room, D, hm⟩ := Setting.denotes_iff.1 hT
  -- The same evaluation with a limit that is high enough for the tree.
  have hle : limit.max ≤ (⟨max limit.max room⟩ : DepthLimit).max := Nat.le_max_left _ _
  have hlimit := evaluate_limit names arena declared? hle scope root s
  rw [he] at hlimit
  split at hlimit
  · rename_i n cut heq
    cases heq
    exact .inr ⟨n, rfl⟩
  · have hacc := @evaluate_accords ⟨names, arena, declared?, ⟨max limit.max room⟩⟩ _ _ hwf hd _ _ hs
      root
    rw [hlimit] at hacc
    refine hacc.imp_right fun hnothing => ?_
    have hm' := Setting.typeAt_of_le hm (Nat.le_max_right limit.max room)
    cases hm'.symm.trans hnothing

theorem exists_denotes_of_ok (cx : Context) (hwf : s.WellFormed)
    (hd : s.Binds cx.declared? declared') (hs : s.Binds scope.lookup? env) {root : NodeId}
    {e : Evaluation} (he : (cx.evaluate scope root s).1 = .ok e) :
    ∃ T, (cx.evaluate scope root s).2.Reads e.type T ∧
      Setting.Denotes ⟨cx.names, cx.arena, declared'⟩ env root T := by
  have hacc := cx.evaluate_accords hwf hd hs root
  have hr : cx.evaluate scope root s = (.ok e, (cx.evaluate scope root s).2) := Prod.ext he rfl
  rw [hr] at hacc
  obtain ⟨T, D, hm, hT, -⟩ := hacc
  exact ⟨T, hT, Setting.denotes_iff.2 ⟨_, D, hm⟩⟩

theorem exists_ok_iff (cx : Context) (hwf : s.WellFormed) (hd : s.Binds cx.declared? declared')
    (hs : s.Binds scope.lookup? env) (root : NodeId)
    (hdepth : ∀ n, (cx.evaluate scope root s).1 ≠ .error (.error (.depthExceeded n)))
    (hroom : (cx.evaluate scope root s).1 ≠ .error (.fault .storeFull)) :
    (∃ e, (cx.evaluate scope root s).1 = .ok e) ↔
      ∃ T, Setting.Denotes ⟨cx.names, cx.arena, declared'⟩ env root T := by
  constructor
  · rintro ⟨e, he⟩
    obtain ⟨T, -, hT⟩ := cx.exists_denotes_of_ok hwf hd hs he
    exact ⟨T, hT⟩
  · rintro ⟨T, hT⟩
    cases hr : cx.evaluate scope root s with
    | mk outcome s' =>
      rw [hr] at hdepth hroom
      cases outcome with
      | ok e => exact ⟨e, rfl⟩
      | error e =>
        rcases cx.evaluate_ne_error_of_denotes hwf hd hs root hT hr with rfl | ⟨n, rfl⟩
        · exact absurd rfl hroom
        · exact absurd rfl (hdepth n)

/-- The outcomes for the whole, for the maps over the two sources, and for the pieces in the store
that the whole leaves. -/
def outcomes (cx : Context) (scope : Scope) (s : Store) (mapA mapB whole pieces : NodeId) :
    List (Except Abort Evaluation) :=
  [(cx.evaluate scope whole s).1, (cx.evaluate scope mapA s).1, (cx.evaluate scope mapB s).1,
    (cx.evaluate scope pieces (cx.evaluate scope whole s).2).1]

/-- Mapping over the union of two types, neither of them `?` or `*`, succeeds exactly if mapping
over each of them does, and gives the union of the two maps, provided that no evaluation is cut off.
Only a full store makes a difference. -/
theorem evaluate_distributed (cx : Context) (h : s.Reachable) (hd : s.Holds cx.declared?)
    (hs : s.Holds scope.lookup?) {a b f mapA mapB whole pieces : NodeId}
    (hn : cx.arena.Distributed cx.names a b f mapA mapB whole pieces) {ea eb : Evaluation}
    (ha : (cx.evaluate scope a s).1 = .ok ea) (hau : ea.type ≠ .unknown) (haa : ea.type ≠ .all)
    (hb : (cx.evaluate scope b s).1 = .ok eb) (hbu : eb.type ≠ .unknown) (hba : eb.type ≠ .all)
    (hdepth : ∀ r ∈ cx.outcomes scope s mapA mapB whole pieces,
      ∀ n, r ≠ .error (.error (.depthExceeded n))) :
    .error (.fault .storeFull) ∈ cx.outcomes scope s mapA mapB whole pieces ∨
      ((∃ e, (cx.evaluate scope whole s).1 = .ok e) ↔
        (∃ e, (cx.evaluate scope mapA s).1 = .ok e) ∧
          ∃ e, (cx.evaluate scope mapB s).1 = .ok e) ∧
      ∀ e, (cx.evaluate scope whole s).1 = .ok e →
        ∃ e', (cx.evaluate scope pieces (cx.evaluate scope whole s).2).1 = .ok e' ∧
          e'.type = e.type := by
  refine or_iff_not_imp_left.2 fun hfull => ?_
  simp only [outcomes, List.mem_cons, List.not_mem_nil, or_false, not_or] at hfull
  simp only [outcomes, List.forall_mem_cons] at hdepth
  obtain ⟨hfullW, hfullA, hfullB, hfullP⟩ := hfull
  obtain ⟨hdepthW, hdepthA, hdepthB, hdepthP, -⟩ := hdepth
  have hwf := h.wellFormed
  have hwf₁ := hwf.evaluate cx scope whole
  have hwf₂ := hwf₁.evaluate cx scope pieces
  have hle₁ := cx.le_evaluate scope whole s
  have hle₂ := cx.le_evaluate scope pieces (cx.evaluate scope whole s).2
  have hdecl := hwf.binds_treesOf hd
  have henv := hwf.binds_treesOf hs
  obtain ⟨A, hA, hdA⟩ := cx.exists_denotes_of_ok hwf hdecl henv ha
  obtain ⟨B, hB, hdB⟩ := cx.exists_denotes_of_ok hwf hdecl henv hb
  have hwfa := hwf.evaluate cx scope a
  have hwfb := hwf.evaluate cx scope b
  have hlaw (T) : Setting.Denotes ⟨cx.names, cx.arena, s.treesOf cx.declared?⟩
      (s.treesOf scope.lookup?) whole T ↔ Setting.Denotes _ _ pieces T :=
    Setting.denotes_whole_iff hn (hwf.canonical_of_binds hdecl) (hwf.canonical_of_binds henv) hdA
      hdB ((hwfa.eq_iff hA hwfa.reads_unknown).not.1 hau) ((hwfa.eq_iff hA hwfa.reads_all).not.1 haa)
      ((hwfb.eq_iff hB hwfb.reads_unknown).not.1 hbu) ((hwfb.eq_iff hB hwfb.reads_all).not.1 hba)
  refine ⟨?_, fun e he => ?_⟩
  · rw [cx.exists_ok_iff hwf hdecl henv whole hdepthW (Ne.symm hfullW),
      cx.exists_ok_iff hwf hdecl henv mapA hdepthA (Ne.symm hfullA),
      cx.exists_ok_iff hwf hdecl henv mapB hdepthB (Ne.symm hfullB),
      ← Setting.exists_pieces_iff hn]
    exact exists_congr hlaw
  · obtain ⟨T, hT, hdT⟩ := cx.exists_denotes_of_ok hwf hdecl henv he
    have hdecl₁ := hdecl.mono hle₁
    have henv₁ := henv.mono hle₁
    obtain ⟨e', he'⟩ := (cx.exists_ok_iff hwf₁ hdecl₁ henv₁ pieces hdepthP (Ne.symm hfullP)).2
      ⟨T, (hlaw T).1 hdT⟩
    obtain ⟨T', hT', hdT'⟩ := cx.exists_denotes_of_ok hwf₁ hdecl₁ henv₁ he'
    obtain rfl := hdT'.unique ((hlaw T).1 hdT)
    exact ⟨e', he', hwf₂.reads_injective hT' (hT.mono hle₂)⟩

/-- `p ↦ union(p, y)` mapped over `union(union(x, y), y)` at place 7; at place 10 the union of the
maps over `union(x, y)` and over `y`. -/
def mapping : Context where
  names := .new .byScalars
  arena := ⟨#[.var ⟨0, 1⟩, .var ⟨0, 2⟩, .call ⟨9, 0⟩ ⟨0, 2⟩, .var ⟨0, 3⟩, .call ⟨9, 0⟩ ⟨2, 2⟩,
      .function ⟨0, 3⟩ ⟨4⟩, .call ⟨9, 0⟩ ⟨4, 2⟩, .call ⟨7, 0⟩ ⟨6, 2⟩, .call ⟨7, 0⟩ ⟨8, 2⟩,
      .call ⟨7, 0⟩ ⟨10, 2⟩, .call ⟨9, 0⟩ ⟨12, 2⟩],
    #[⟨0⟩, ⟨1⟩, ⟨3⟩, ⟨1⟩, ⟨2⟩, ⟨1⟩, ⟨6⟩, ⟨5⟩, ⟨2⟩, ⟨5⟩, ⟨1⟩, ⟨5⟩, ⟨8⟩, ⟨9⟩]⟩
  declared? _ := none
  limit := ⟨4⟩

theorem mapping_distributed :
    mapping.arena.Distributed mapping.names ⟨2⟩ ⟨1⟩ ⟨5⟩ ⟨8⟩ ⟨9⟩ ⟨7⟩ ⟨10⟩ where
  function := ⟨⟨0, 3⟩, ⟨4⟩, rfl⟩
  whole := ⟨⟨6⟩, ⟨⟨9, 0⟩, ⟨4, 2⟩, rfl, rfl, rfl⟩, ⟨⟨7, 0⟩, ⟨6, 2⟩, rfl, rfl, rfl⟩⟩
  left := ⟨⟨7, 0⟩, ⟨8, 2⟩, rfl, rfl, rfl⟩
  right := ⟨⟨7, 0⟩, ⟨10, 2⟩, rfl, rfl, rfl⟩
  pieces := ⟨⟨9, 0⟩, ⟨12, 2⟩, rfl, rfl, rfl⟩

/-- The member `y` is mapped once in the whole and twice in the pieces. -/
theorem mapping_evaluate_distributed :
    ∃ e e', (mapping.evaluate (.sample ⟨3⟩ ⟨4⟩) ⟨7⟩ (.sample ⟨1, 0⟩ ⟨2, 0⟩)).1 = .ok e ∧
      (mapping.evaluate (.sample ⟨3⟩ ⟨4⟩) ⟨10⟩
        (mapping.evaluate (.sample ⟨3⟩ ⟨4⟩) ⟨7⟩ (.sample ⟨1, 0⟩ ⟨2, 0⟩)).2).1 = .ok e' ∧
      e'.type = e.type := by
  have hscope : (Store.sample ⟨1, 0⟩ ⟨2, 0⟩).Holds (Scope.sample ⟨3⟩ ⟨4⟩).lookup? :=
    Store.holds_ofBindings (by decide)
  have ha : (mapping.evaluate (.sample ⟨3⟩ ⟨4⟩) ⟨2⟩ (.sample ⟨1, 0⟩ ⟨2, 0⟩)).1 =
      .ok ⟨⟨5⟩, []⟩ := rfl
  have hb : (mapping.evaluate (.sample ⟨3⟩ ⟨4⟩) ⟨1⟩ (.sample ⟨1, 0⟩ ⟨2, 0⟩)).1 =
      .ok ⟨⟨4⟩, []⟩ := rfl
  have hout : mapping.outcomes (.sample ⟨3⟩ ⟨4⟩) (.sample ⟨1, 0⟩ ⟨2, 0⟩) ⟨8⟩ ⟨9⟩ ⟨7⟩ ⟨10⟩ =
      [.ok ⟨⟨5⟩, []⟩, .ok ⟨⟨5⟩, []⟩, .ok ⟨⟨4⟩, []⟩, .ok ⟨⟨5⟩, []⟩] := rfl
  have hlaw := mapping.evaluate_distributed (Store.sample_reachable ⟨1, 0⟩ ⟨2, 0⟩) nofun hscope
    mapping_distributed ha (by decide) (by decide) hb (by decide) (by decide) (by simp [hout])
  rw [hout] at hlaw
  obtain ⟨-, hsame⟩ := hlaw.resolve_left (by simp)
  obtain ⟨e', he', htype⟩ := hsame ⟨⟨5⟩, []⟩ rfl
  exact ⟨⟨⟨5⟩, []⟩, e', rfl, he', htype⟩

end Context

end TypeCalculus
