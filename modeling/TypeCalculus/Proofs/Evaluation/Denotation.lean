import TypeCalculus.Proofs.Evaluation.Decoding
import TypeCalculus.Proofs.Evaluation.Transparency

/-!
The rules of the language as a relation between nodes and trees. The relation knows no store, no
handles, no misses and no limit; whatever an evaluation gives is what the relation assigns to the
expression, and the relation assigns one tree at most.
-/

namespace TypeCalculus

namespace Setting

abbrev Calls (st : Setting) : NodeId → String → List NodeId → Prop := st.arena.Calls st.names

/-- The node has this tree where the names in scope have the trees of the environment. -/
inductive Denotes (st : Setting) : Env → NodeId → Tree → Prop where
  | var {env id name} : st.arena.node id = .ok (.var name) →
      Denotes st env id ((env name).getD .unknown)
  | empty {env id} : st.Calls id "none" [] → Denotes st env id .empty
  | all {env id} : st.Calls id "all" [] → Denotes st env id .all
  | unknown {env id} : st.Calls id "unknown" [] → Denotes st env id .unknown
  | named {env id literal name args As} : st.Calls id "type" (literal :: args) →
      st.arena.node literal = .ok (.str name) → args.length = As.length →
      (∀ p ∈ args.zip As, Denotes st env p.1 p.2) →
      Denotes st env id (((st.declared? name).getD .unknown).apply As)
  | union {env id operands Ts} : st.Calls id "union" operands → 2 ≤ operands.length →
      operands.length = Ts.length → (∀ p ∈ operands.zip Ts, Denotes st env p.1 p.2) →
      Denotes st env id (.join Ts)
  | condEq {env id test yes no left right L R T} : st.Calls id "cond" [test, yes, no] →
      st.Calls test "eq" [left, right] → Denotes st env left L → Denotes st env right R →
      Denotes st env (if L = R then yes else no) T → Denotes st env id T
  | condSub {env id test yes no lower upper L U T} : st.Calls id "cond" [test, yes, no] →
      st.Calls test "sub" [lower, upper] → Denotes st env lower L → Denotes st env upper U →
      Denotes st env (if L.Below U then yes else no) T → Denotes st env id T
  | condIsTemplatized {env id test yes no subject S T} : st.Calls id "cond" [test, yes, no] →
      st.Calls test "isTemplatized" [subject] → Denotes st env subject S →
      Denotes st env (if S.isApplied then yes else no) T → Denotes st env id T
  | condIsUnknown {env id test yes no subject S T} : st.Calls id "cond" [test, yes, no] →
      st.Calls test "isUnknown" [subject] → Denotes st env subject S →
      Denotes st env (if S = .unknown then yes else no) T → Denotes st env id T
  | mapUnion {env id source function param body S Ts} :
      st.Calls id "mapunion" [source, function] →
      st.arena.node function = .ok (.function param body) → Denotes st env source S →
      S.members.length = Ts.length →
      (∀ p ∈ S.members.zip Ts, Denotes st (Function.update env param (some p.1)) body p.2) →
      Denotes st env id (.join Ts)
  | rawTypeOf {env id subject S} : st.Calls id "rawTypeOf" [subject] → Denotes st env subject S →
      Denotes st env id (S.base?.getD .unknown)
  | templateTypeOf {env id subject literal place S} :
      st.Calls id "templateTypeOf" [subject, literal] → st.arena.node literal = .ok (.int place) →
      Denotes st env subject S → Denotes st env id (S.args[place]?.getD .unknown)

variable {st : Setting} {env : Env} {id : NodeId} {T : Tree} {D : Set Miss} {room : Nat}

theorem typeAt_succ_eq_result_iff : st.typeAt (room + 1) env id = .result T D ↔
    ∃ op, st.arena.Asks st.names id op ∧
      op.meaning (st.typeAt room) st.declared? (st.holdsAt room) env = .result T D := by
  change (Meaning.ofExcept _ >>= fun op : Operation => _) = _ ↔ _
  rw [Meaning.bind_eq_result_iff]
  constructor
  · rintro ⟨op, D₁, D₂, hread, hT, rfl⟩
    obtain ⟨hop, rfl⟩ := Meaning.ofExcept_eq_result_iff.1 hread
    exact ⟨op, Arena.operation_iff.1 hop, by rwa [Set.empty_union]⟩
  · rintro ⟨op, hop, hT⟩
    exact ⟨op, ∅, D, Meaning.ofExcept_eq_result_iff.2 ⟨Arena.operation_iff.2 hop, rfl⟩, hT,
      (Set.empty_union D).symm⟩

theorem holdsAt_succ_eq_result_iff {b : Bool} : st.holdsAt (room + 1) env id = .result b D ↔
    ∃ condition, st.arena.Tests st.names id condition ∧
      condition.meaning (st.typeAt room) env = .result b D := by
  change (Meaning.ofExcept _ >>= fun condition : Condition => _) = _ ↔ _
  rw [Meaning.bind_eq_result_iff]
  constructor
  · rintro ⟨condition, D₁, D₂, hread, hb, rfl⟩
    obtain ⟨hc, rfl⟩ := Meaning.ofExcept_eq_result_iff.1 hread
    exact ⟨condition, Arena.condition_iff.1 hc, by rwa [Set.empty_union]⟩
  · rintro ⟨condition, hc, hb⟩
    exact ⟨condition, ∅, D, Meaning.ofExcept_eq_result_iff.2 ⟨Arena.condition_iff.2 hc, rfl⟩, hb,
      (Set.empty_union D).symm⟩

/-- What a condition comes to is decided with the room that the operation above it has. -/
theorem exists_tests_of_holdsAt {b : Bool} (h : st.holdsAt room env id = .result b D) :
    ∃ condition, st.arena.Tests st.names id condition ∧
      condition.meaning (st.typeAt room) env = .result b D := by
  cases room with
  | zero => cases h
  | succ room =>
    obtain ⟨condition, hc, hb⟩ := holdsAt_succ_eq_result_iff.1 h
    have hle : ∀ env id, st.typeAt room env id ≤ st.typeAt (room + 1) env id :=
      st.typeAt_le (Nat.le_succ room)
    exact ⟨condition, hc, Condition.meaning_le hle env condition b D hb⟩

theorem denotes_of_typeAt (h : st.typeAt room env id = .result T D) : st.Denotes env id T := by
  induction room generalizing env id T D with
  | zero => cases h
  | succ room ih =>
    obtain ⟨op, hop, hT⟩ := typeAt_succ_eq_result_iff.1 h
    cases op with
    | var name =>
      obtain rfl := (Meaning.exists_resolved_iff _ _).1 ⟨D, hT⟩
      exact .var hop
    | empty =>
      obtain ⟨rfl, -⟩ := Meaning.pure_eq_result_iff.1 hT
      exact .empty hop
    | all =>
      obtain ⟨rfl, -⟩ := Meaning.pure_eq_result_iff.1 hT
      exact .all hop
    | unknown =>
      obtain ⟨rfl, -⟩ := Meaning.pure_eq_result_iff.1 hT
      exact .unknown hop
    | named name args =>
      obtain ⟨literal, hc, hn⟩ := hop
      obtain ⟨As, D₁, _, hAs, hT, -⟩ := Meaning.bind_eq_result_iff.1 hT
      obtain ⟨B, D₂, _, hB, hT, -⟩ := Meaning.bind_eq_result_iff.1 hT
      obtain ⟨rfl, -⟩ := Meaning.pure_eq_result_iff.1 hT
      obtain rfl := (Meaning.exists_resolved_iff _ _).1 ⟨D₂, hB⟩
      obtain ⟨hl, hall⟩ := List.forall₂_iff_zip.1 (Meaning.forall₂_of_mapM hAs)
      exact .named hc hn hl fun p hp => (hall hp).elim fun _ h => ih h
    | union operands =>
      obtain ⟨hc, hlen⟩ := hop
      obtain ⟨Ts, D₁, _, hTs, hT, -⟩ := Meaning.bind_eq_result_iff.1 hT
      obtain ⟨rfl, -⟩ := Meaning.pure_eq_result_iff.1 hT
      obtain ⟨hl, hall⟩ := List.forall₂_iff_zip.1 (Meaning.forall₂_of_mapM hTs)
      exact .union hc hlen hl fun p hp => (hall hp).elim fun _ h => ih h
    | cond test yes no =>
      obtain ⟨b, D₁, D₂, hb, hT, -⟩ := Meaning.bind_eq_result_iff.1 hT
      obtain ⟨condition, hc, hb⟩ := exists_tests_of_holdsAt hb
      -- Only the chosen branch is evaluated, so only it has to have a tree.
      have hbranch : st.Denotes env (if b = true then yes else no) T := by
        split at hT <;> rename_i hb
        · rw [if_pos hb]
          exact ih hT
        · rw [if_neg hb]
          exact ih hT
      cases condition with
      | eq left right =>
        obtain ⟨L, _, _, hL, hb, -⟩ := Meaning.bind_eq_result_iff.1 hb
        obtain ⟨R, _, _, hR, hb, -⟩ := Meaning.bind_eq_result_iff.1 hb
        obtain ⟨rfl, -⟩ := Meaning.pure_eq_result_iff.1 hb
        simp only [decide_eq_true_eq] at hbranch
        exact .condEq hop hc (ih hL) (ih hR) hbranch
      | sub lower upper =>
        obtain ⟨L, _, _, hL, hb, -⟩ := Meaning.bind_eq_result_iff.1 hb
        obtain ⟨U, _, _, hU, hb, -⟩ := Meaning.bind_eq_result_iff.1 hb
        obtain ⟨rfl, -⟩ := Meaning.pure_eq_result_iff.1 hb
        simp only [decide_eq_true_eq] at hbranch
        exact .condSub hop hc (ih hL) (ih hU) hbranch
      | isTemplatized subject =>
        obtain ⟨S, _, _, hS, hb, -⟩ := Meaning.bind_eq_result_iff.1 hb
        obtain ⟨rfl, -⟩ := Meaning.pure_eq_result_iff.1 hb
        exact .condIsTemplatized hop hc (ih hS) hbranch
      | isUnknown subject =>
        obtain ⟨S, _, _, hS, hb, -⟩ := Meaning.bind_eq_result_iff.1 hb
        obtain ⟨rfl, -⟩ := Meaning.pure_eq_result_iff.1 hb
        simp only [decide_eq_true_eq] at hbranch
        exact .condIsUnknown hop hc (ih hS) hbranch
    | mapUnion source param body =>
      obtain ⟨function, hc, hn⟩ := hop
      obtain ⟨S, _, _, hS, hT, -⟩ := Meaning.bind_eq_result_iff.1 hT
      obtain ⟨Ts, _, _, hTs, hT, -⟩ := Meaning.bind_eq_result_iff.1 hT
      obtain ⟨rfl, -⟩ := Meaning.pure_eq_result_iff.1 hT
      obtain ⟨hl, hall⟩ := List.forall₂_iff_zip.1 (Meaning.forall₂_of_mapM hTs)
      exact .mapUnion hc hn (ih hS) hl fun p hp => (hall hp).elim fun _ h => ih h
    | rawTypeOf subject =>
      obtain ⟨S, _, _, hS, hT, -⟩ := Meaning.bind_eq_result_iff.1 hT
      obtain ⟨rfl, -⟩ := Meaning.pure_eq_result_iff.1 hT
      exact .rawTypeOf hop (ih hS)
    | templateTypeOf subject place =>
      obtain ⟨literal, hc, hn⟩ := hop
      obtain ⟨S, _, _, hS, hT, -⟩ := Meaning.bind_eq_result_iff.1 hT
      obtain ⟨rfl, -⟩ := Meaning.pure_eq_result_iff.1 hT
      exact .templateTypeOf hc hn (ih hS)

/-- The meaning that an expression has with some room. -/
def Means (st : Setting) (env : Env) (id : NodeId) (T : Tree) : Prop :=
  ∃ room D, st.typeAt room env id = .result T D

theorem typeAt_of_le {room' : Nat} (h : st.typeAt room env id = .result T D)
    (hle : room ≤ room') : st.typeAt room' env id = .result T D := st.typeAt_le hle env id T D h

theorem means_of_asks (op : Operation) (hop : st.arena.Asks st.names id op) (room : Nat)
    (h : op.meaning (st.typeAt room) st.declared? (st.holdsAt room) env = .result T D) :
    st.Means env id T := ⟨room + 1, D, typeAt_succ_eq_result_iff.2 ⟨op, hop, h⟩⟩

/-- Meanings of the elements of a list, all with the same room. -/
theorem exists_room_of_means {α : Type} (envOf : α → Env) (idOf : α → NodeId) {as : List α}
    {Ts : List Tree} (hl : as.length = Ts.length)
    (h : ∀ p ∈ as.zip Ts, st.Means (envOf p.1) (idOf p.1) p.2) :
    ∃ room D, as.mapM (fun a => st.typeAt room (envOf a) (idOf a)) = .result Ts D :=
  Meaning.exists_mapM (fun hle a => st.typeAt_le hle (envOf a) (idOf a))
    (List.forall₂_iff_zip.2 ⟨hl, fun {a T} hp => h (a, T) hp⟩)

theorem means_of_cond {test yes no : NodeId} (condition : Condition) {b : Bool}
    (hop : st.arena.Calls st.names id "cond" [test, yes, no])
    (hc : st.arena.Tests st.names test condition)
    (hb : condition.meaning (st.typeAt room) env = .result b D)
    (hT : st.Means env (if b = true then yes else no) T) : st.Means env id T := by
  obtain ⟨room', D', hT⟩ := hT
  -- The condition stands one level below the choice, and its operands one level further down.
  have hle := Nat.le_max_left (room + 1) room'
  have htest : st.holdsAt (room + 1) env test = .result b D :=
    holdsAt_succ_eq_result_iff.2 ⟨condition, hc, hb⟩
  have htest' := (st.typeAt_and_holdsAt_le hle).2 env test b D htest
  have hbranch := typeAt_of_le hT (Nat.le_max_right (room + 1) room')
  refine means_of_asks (D := D ∪ D') (.cond test yes no) hop _ (Meaning.bind_result htest' ?_)
  cases b with
  | true => exact hbranch
  | false => exact hbranch

theorem exists_room_of_means_pair {id' : NodeId} {T' : Tree} (h : st.Means env id T)
    (h' : st.Means env id' T') : ∃ room D D', st.typeAt room env id = .result T D ∧
      st.typeAt room env id' = .result T' D' := by
  obtain ⟨n, D, hT⟩ := h
  obtain ⟨n', D', hT'⟩ := h'
  exact ⟨max n n', D, D', typeAt_of_le hT (Nat.le_max_left n n'),
    typeAt_of_le hT' (Nat.le_max_right n n')⟩

theorem means_of_denotes (h : st.Denotes env id T) : st.Means env id T := by
  induction h with
  | @var env id name hn =>
    obtain ⟨D, hD⟩ := (Meaning.exists_resolved_iff (env name) (.unboundVariable name)).2 rfl
    exact means_of_asks (.var name) hn 0 hD
  | empty hc => exact means_of_asks .empty hc 0 rfl
  | all hc => exact means_of_asks .all hc 0 rfl
  | unknown hc => exact means_of_asks .unknown hc 0 rfl
  | @named env id literal name args As hc hn hl _ ih =>
    obtain ⟨room, D, hAs⟩ := exists_room_of_means (fun _ => env) (fun a => a) hl ih
    obtain ⟨D', hB⟩ := (Meaning.exists_resolved_iff (st.declared? name) (.undeclaredType name)).2 rfl
    exact means_of_asks (.named name args) ⟨literal, hc, hn⟩ room <|
      Meaning.bind_result hAs (Meaning.bind_result hB rfl)
  | @union env id operands Ts hc hlen hl _ ih =>
    obtain ⟨room, D, hTs⟩ := exists_room_of_means (fun _ => env) (fun a => a) hl ih
    exact means_of_asks (.union operands) ⟨hc, hlen⟩ room <|
      Meaning.bind_result hTs rfl
  | @condEq env id test yes no left right L R T hop hc _ _ _ ihL ihR ihT =>
    obtain ⟨room, D, D', hL, hR⟩ := exists_room_of_means_pair ihL ihR
    have hb : (Condition.eq left right).meaning (st.typeAt room) env =
        .result (decide (L = R)) (D ∪ (D' ∪ ∅)) :=
      Meaning.bind_result hL (Meaning.bind_result hR rfl)
    exact means_of_cond (.eq left right) hop hc hb (by simpa using ihT)
  | @condSub env id test yes no lower upper L U T hop hc _ _ _ ihL ihU ihT =>
    obtain ⟨room, D, D', hL, hU⟩ := exists_room_of_means_pair ihL ihU
    have hb : (Condition.sub lower upper).meaning (st.typeAt room) env =
        .result (decide (L.Below U)) (D ∪ (D' ∪ ∅)) :=
      Meaning.bind_result hL (Meaning.bind_result hU rfl)
    exact means_of_cond (.sub lower upper) hop hc hb (by simpa using ihT)
  | @condIsTemplatized env id test yes no subject S T hop hc _ _ ihS ihT =>
    obtain ⟨room, D, hS⟩ := ihS
    have hb : (Condition.isTemplatized subject).meaning (st.typeAt room) env =
        .result S.isApplied (D ∪ ∅) := Meaning.bind_result hS rfl
    exact means_of_cond (.isTemplatized subject) hop hc hb ihT
  | @condIsUnknown env id test yes no subject S T hop hc _ _ ihS ihT =>
    obtain ⟨room, D, hS⟩ := ihS
    have hb : (Condition.isUnknown subject).meaning (st.typeAt room) env =
        .result (decide (S = .unknown)) (D ∪ ∅) := Meaning.bind_result hS rfl
    exact means_of_cond (.isUnknown subject) hop hc hb (by simpa using ihT)
  | @mapUnion env id source function param body S Ts hc hn _ hl _ ihS ih =>
    obtain ⟨n, D, hS⟩ := ihS
    obtain ⟨n', D', hTs⟩ := exists_room_of_means
      (fun M => Function.update env param (some M)) (fun _ => body) hl ih
    have hS' := typeAt_of_le hS (Nat.le_max_left n n')
    have hTs' := Meaning.mapM_le (fun M => st.typeAt_le (Nat.le_max_right n n')
      (Function.update env param (some M)) body) S.members Ts D' hTs
    exact means_of_asks (.mapUnion source param body) ⟨function, hc, hn⟩ (max n n') <|
      Meaning.bind_result hS' (Meaning.bind_result hTs' rfl)
  | @rawTypeOf env id subject S hc _ ihS =>
    obtain ⟨room, D, hS⟩ := ihS
    exact means_of_asks (.rawTypeOf subject) hc room <|
      Meaning.bind_result hS rfl
  | @templateTypeOf env id subject literal place S hc hn _ ihS =>
    obtain ⟨room, D, hS⟩ := ihS
    exact means_of_asks (.templateTypeOf subject place) ⟨literal, hc, hn⟩ room <|
      Meaning.bind_result hS rfl

theorem denotes_iff : st.Denotes env id T ↔ st.Means env id T :=
  ⟨means_of_denotes, fun ⟨_, _, h⟩ => denotes_of_typeAt h⟩

theorem Denotes.unique {T' : Tree} (h : st.Denotes env id T) (h' : st.Denotes env id T') :
    T = T' := by
  obtain ⟨room, D, D', hT, hT'⟩ := exists_room_of_means_pair (denotes_iff.1 h)
    (denotes_iff.1 h')
  cases hT.symm.trans hT'
  rfl

end Setting

/-- Whatever an evaluation gives has the one tree that the rules assign to the expression. -/
theorem Context.evaluate_denotes (cx : Context) (scope : Scope) (root : NodeId) {s s' : Store}
    (h : s.Reachable) (hd : s.Holds cx.declared?) (hs : s.Holds scope.lookup?) {e : Evaluation}
    (he : cx.evaluate scope root s = (.ok e, s')) :
    ∃ T, s'.tree e.type = .ok T ∧
      ∀ T', Setting.Denotes ⟨cx.names, cx.arena, s.treesOf cx.declared?⟩ (s.treesOf scope.lookup?)
        root T' ↔ T' = T := by
  have hacc := cx.evaluate_accords h.wellFormed (h.wellFormed.binds_treesOf hd)
    (h.wellFormed.binds_treesOf hs) root
  rw [he] at hacc
  obtain ⟨T, D, hm, hT, -⟩ := hacc
  have hdenotes := Setting.denotes_iff.2 ⟨_, D, hm⟩
  refine ⟨T, hT, fun T' => ⟨fun h' => h'.unique hdenotes, ?_⟩⟩
  rintro rfl
  exact hdenotes

/-- The union of two nominal types, which the store did not hold before. -/
theorem Context.sample_evaluate_denotes :
    (sample.evaluate (.sample ⟨3⟩ ⟨4⟩) ⟨2⟩ (.sample ⟨1, 0⟩ ⟨2, 0⟩)).1 = .ok ⟨⟨5⟩, []⟩ ∧
      ∀ T, Setting.Denotes
          ⟨sample.names, sample.arena, (Store.sample ⟨1, 0⟩ ⟨2, 0⟩).treesOf sample.declared?⟩
          ((Store.sample ⟨1, 0⟩ ⟨2, 0⟩).treesOf (Scope.sample ⟨3⟩ ⟨4⟩).lookup?) ⟨2⟩ T ↔
        T = .union [.named ⟨1, 0⟩, .named ⟨2, 0⟩] := by
  have he : sample.evaluate (.sample ⟨3⟩ ⟨4⟩) ⟨2⟩ (.sample ⟨1, 0⟩ ⟨2, 0⟩) =
      (.ok ⟨⟨5⟩, []⟩, (sample.evaluate (.sample ⟨3⟩ ⟨4⟩) ⟨2⟩ (.sample ⟨1, 0⟩ ⟨2, 0⟩)).2) :=
    Prod.ext sample_evaluate rfl
  obtain ⟨T, hT, hiff⟩ := sample.evaluate_denotes (.sample ⟨3⟩ ⟨4⟩) ⟨2⟩
    (Store.sample_reachable ⟨1, 0⟩ ⟨2, 0⟩) nofun (Store.holds_ofBindings (by decide)) he
  have hunion : T = .union [.named ⟨1, 0⟩, .named ⟨2, 0⟩] := Except.ok.inj (hT.symm.trans rfl)
  rw [hunion] at hiff
  exact ⟨sample_evaluate, hiff⟩

end TypeCalculus
