import TypeCalculus.Proofs.Evaluation.Distribution

/-!
Templatised types taken apart by expressions. Of `type('N', A, …)` with a nominal `N` the operators
find the type and each argument again, and two such types are equal exactly when their arguments
are. The expressions are evaluated one after the other in one store.
-/

namespace TypeCalculus

theorem ne_nil_of_forall₂ {α β : Type} {R : α → β → Prop} {as : List α} {bs : List β}
    (h : List.Forall₂ R as bs) (has : as ≠ []) : bs ≠ [] := by
  rintro rfl
  exact has (List.forall₂_nil_right_iff.1 h)

namespace Tree

variable {B : Tree} {As Bs : List Tree}

theorem apply_of_isNamed (hB : B.isNamed = true) (hAs : As ≠ []) : B.apply As = applied B As :=
  if_pos ⟨hB, hAs⟩

theorem apply_inj (hB : B.isNamed = true) (hAs : As ≠ []) (hBs : Bs ≠ [])
    (h : B.apply As = B.apply Bs) : As = Bs := by
  rw [apply_of_isNamed hB hAs, apply_of_isNamed hB hBs] at h
  injection h

end Tree

namespace Setting

variable {st : Setting} {env : Env} {id : NodeId} {T : Tree}

theorem denotes_named {name : Name} {args : List NodeId} {As : List Tree}
    (hop : st.arena.Asks st.names id (.named name args))
    (hAs : List.Forall₂ (st.Denotes env) args As) :
    st.Denotes env id (((st.declared? name).getD .unknown).apply As) := by
  obtain ⟨literal, hc, hn⟩ := hop
  obtain ⟨hl, hall⟩ := List.forall₂_iff_zip.1 hAs
  exact .named hc hn hl fun p hp => hall hp

theorem denotes_condEq_iff {test yes no left right : NodeId} {L R : Tree}
    (hop : st.arena.Asks st.names id (.cond test yes no))
    (hc : st.arena.Tests st.names test (.eq left right)) (hL : st.Denotes env left L)
    (hR : st.Denotes env right R) :
    st.Denotes env id T ↔ st.Denotes env (if L = R then yes else no) T := by
  refine ⟨fun h => ?_, fun h => .condEq hop hc hL hR h⟩
  obtain ⟨room, D, hm⟩ := h.exists_meaning hop
  obtain ⟨b, _, _, hb, hT, -⟩ := Meaning.bind_eq_result_iff.1 hm
  obtain ⟨condition, hc', hb⟩ := exists_tests_of_holdsAt hb
  cases hc.unique hc'
  obtain ⟨L', _, _, hL', hb, -⟩ := Meaning.bind_eq_result_iff.1 hb
  obtain ⟨R', _, _, hR', hb, -⟩ := Meaning.bind_eq_result_iff.1 hb
  obtain ⟨rfl, -⟩ := Meaning.pure_eq_result_iff.1 hb
  obtain rfl := hL.unique (denotes_of_typeAt hL')
  obtain rfl := hR.unique (denotes_of_typeAt hR')
  simp only [decide_eq_true_eq] at hT
  split at hT <;> rename_i heq
  · rw [if_pos heq]
    exact denotes_of_typeAt hT
  · rw [if_neg heq]
    exact denotes_of_typeAt hT

end Setting

/-- The outcomes of several evaluations, each with its root. -/
abbrev Log := List (NodeId × Except Abort Evaluation)

/-- The root was evaluated, and always to this type. -/
def Log.Gives (log : Log) (root : NodeId) (t : TypeId) : Prop :=
  (∃ r, (root, r) ∈ log) ∧ ∀ r, (root, r) ∈ log → ∃ e, r = .ok e ∧ e.type = t

/-- The nodes of the two lists were evaluated to the same types, place by place. -/
def Log.Agree (log : Log) (as bs : List NodeId) : Prop :=
  List.Forall₂ (fun a b => ∃ t, log.Gives a t ∧ log.Gives b t) as bs

/-- The outcome is what the rules say of the root: its tree, or that it has none. -/
def Setting.Explains (st : Setting) (env : Env) (final : Store) (root : NodeId) :
    Except Abort Evaluation → Prop
  | .ok e => ∃ T, st.Denotes env root T ∧ final.Reads e.type T
  | .error _ => ∀ T, ¬st.Denotes env root T

theorem Setting.Explains.mono {st : Setting} {env : Env} {final final' : Store} {root : NodeId}
    {r : Except Abort Evaluation} (h : st.Explains env final root r) (hle : final ≤ final') :
    st.Explains env final' root r := by
  cases r with
  | ok e => exact h.imp fun T hT => ⟨hT.1, hT.2.mono hle⟩
  | error e => exact h

/-- The outcomes are those that the rules give, as far as the types in the store show. -/
structure Log.Settled (log : Log) (st : Setting) (env : Env) (final : Store) : Prop where
  wellFormed : final.WellFormed
  explains : ∀ p ∈ log, st.Explains env final p.1 p.2

theorem Store.Binds.exists_reads {s : Store} {found : Name → Option TypeId} {env : Env}
    (h : s.Binds found env) {name : Name} {t : TypeId} (ht : found name = some t) :
    ∃ T, s.Reads t T ∧ env name = some T := by
  have hname := h name
  rw [ht] at hname
  generalize env name = T at hname
  cases hname with
  | some hT => exact ⟨_, hT, rfl⟩

namespace Context

/-- Evaluates the roots one after the other, each in the store that those before it leave. -/
def log (cx : Context) (scope : Scope) : List NodeId → Store → Log
  | [], _ => []
  | root :: roots, s =>
    (root, (cx.evaluate scope root s).1) :: cx.log scope roots (cx.evaluate scope root s).2

variable {cx : Context} {scope : Scope} {s : Store} {declared' env : Env} {roots : List NodeId}

theorem exists_mem_log_iff {root : NodeId} :
    (∃ r, (root, r) ∈ cx.log scope roots s) ↔ root ∈ roots := by
  induction roots generalizing s with
  | nil => simp [log]
  | cons first roots ih => simp [log, exists_or, ih]

theorem explains_evaluate (hwf : s.WellFormed) (hd : s.Binds cx.declared? declared')
    (hs : s.Binds scope.lookup? env) {root : NodeId}
    (hfull : (cx.evaluate scope root s).1 ≠ .error (.fault .storeFull))
    (hdepth : ∀ n, (cx.evaluate scope root s).1 ≠ .error (.error (.depthExceeded n))) :
    Setting.Explains ⟨cx.names, cx.arena, declared'⟩ env (cx.evaluate scope root s).2 root
      (cx.evaluate scope root s).1 := by
  have hiff := cx.exists_ok_iff hwf hd hs root hdepth hfull
  cases hr : (cx.evaluate scope root s).1 with
  | ok e =>
    obtain ⟨T, hT, hdT⟩ := cx.exists_denotes_of_ok hwf hd hs hr
    exact ⟨T, hdT, hT⟩
  | error e =>
    intro T hdT
    obtain ⟨e', he'⟩ := hiff.2 ⟨T, hdT⟩
    cases hr.symm.trans he'

/-- The store that is left in the end settles the outcomes, unless an evaluation was cut off or did
not find room. -/
theorem exists_settled (hwf : s.WellFormed) (hd : s.Binds cx.declared? declared')
    (hs : s.Binds scope.lookup? env)
    (hfull : ∀ p ∈ cx.log scope roots s, p.2 ≠ .error (.fault .storeFull))
    (hdepth : ∀ p ∈ cx.log scope roots s, ∀ n, p.2 ≠ .error (.error (.depthExceeded n))) :
    ∃ final, s ≤ final ∧
      (cx.log scope roots s).Settled ⟨cx.names, cx.arena, declared'⟩ env final := by
  induction roots generalizing s with
  | nil => exact ⟨s, le_refl s, hwf, nofun⟩
  | cons root roots ih =>
    obtain ⟨hfull₁, hfull⟩ := List.forall_mem_cons.1 hfull
    obtain ⟨hdepth₁, hdepth⟩ := List.forall_mem_cons.1 hdepth
    have hle := cx.le_evaluate scope root s
    have hfirst := explains_evaluate hwf hd hs hfull₁ hdepth₁
    obtain ⟨final, hle', hwf', hall⟩ :=
      ih (hwf.evaluate cx scope root) (hd.mono hle) (hs.mono hle) hfull hdepth
    exact ⟨final, hle.trans hle', hwf', List.forall_mem_cons.2 ⟨hfirst.mono hle', hall⟩⟩

end Context

namespace Log

variable {log : Log} {st : Setting} {env : Env} {final : Store}

/-- The node was evaluated, to the type with this tree. -/
def Shows (log : Log) (st : Setting) (env : Env) (final : Store) (a : NodeId) (A : Tree) : Prop :=
  st.Denotes env a A ∧ ∃ t, log.Gives a t ∧ final.Reads t A

namespace Settled

variable {a : NodeId} {as bs : List NodeId} {A : Tree} {As Bs : List Tree} {t : TypeId}

theorem gives_iff (h : log.Settled st env final) :
    log.Gives a t ↔ (∃ r, (a, r) ∈ log) ∧ ∃ A, st.Denotes env a A ∧ final.Reads t A := by
  constructor
  · rintro ⟨⟨r, hr⟩, hall⟩
    obtain ⟨e, rfl, rfl⟩ := hall r hr
    exact ⟨⟨_, hr⟩, h.explains _ hr⟩
  · rintro ⟨hmem, A, hdA, hA⟩
    refine ⟨hmem, fun r hr => ?_⟩
    have hexplains := h.explains _ hr
    cases r with
    | ok e =>
      obtain ⟨A', hdA', hA'⟩ := hexplains
      obtain rfl := hdA.unique hdA'
      exact ⟨e, rfl, h.wellFormed.reads_injective hA' hA⟩
    | error e => exact absurd hdA (hexplains A)

theorem reads_of_gives (h : log.Settled st env final) (ht : log.Gives a t)
    (hA : st.Denotes env a A) : final.Reads t A := by
  obtain ⟨-, A', hA', hr⟩ := h.gives_iff.1 ht
  exact hA.unique hA' ▸ hr

theorem exists_shows (h : log.Settled st env final) (has : ∀ a ∈ as, ∃ t, log.Gives a t) :
    ∃ As, List.Forall₂ (log.Shows st env final) as As := by
  refine exists_forall₂ fun a ha => ?_
  obtain ⟨t, ht⟩ := has a ha
  obtain ⟨-, A, hdA, hA⟩ := h.gives_iff.1 ht
  exact ⟨A, hdA, t, ht, hA⟩

theorem agree_iff (h : log.Settled st env final)
    (hAs : List.Forall₂ (log.Shows st env final) as As)
    (hBs : List.Forall₂ (log.Shows st env final) bs Bs) : log.Agree as bs ↔ As = Bs := by
  constructor
  · intro hagree
    -- Each tree on the left is shown by the node on the right, which shows one tree only.
    have hside : List.Forall₂ (fun A b => log.Shows st env final b A) As bs := by
      refine forall₂_trans ?_ hAs.flip hagree
      rintro A a b ⟨hdA, -⟩ ⟨t, hat, hbt⟩
      obtain ⟨-, B, hdB, hB⟩ := h.gives_iff.1 hbt
      cases (h.reads_of_gives hat hdA).symm.trans hB
      exact ⟨hdB, t, hbt, hB⟩
    exact eq_of_forall₂ (fun A _ B b hA hB => hA.1.unique hB.1) hside hBs.flip
  · rintro rfl
    refine forall₂_trans ?_ hAs hBs.flip
    rintro a A b ⟨-, t, hat, hA⟩ ⟨-, u, hbu, hA'⟩
    obtain rfl := h.wellFormed.reads_injective hA hA'
    exact ⟨t, hat, hbu⟩

end Settled

end Log

/-- The node is `type(name, args…)`, and each of the arguments was evaluated to some type. -/
structure Arena.Templated (arena : Arena) (names : NameTable) (log : Log) (id : NodeId) (name : Name)
    (args : List NodeId) : Prop where
  asks : arena.Asks names id (.named name args)
  gives : ∀ a ∈ args, ∃ t, log.Gives a t

/-- What the roots give that ask for a part of the node `whole`: the base `b`, or the argument at a
place. -/
structure Arena.Projects (arena : Arena) (names : NameTable) (roots : List NodeId) (log : Log)
    (whole : NodeId) (args : List NodeId) (b : TypeId) : Prop where
  base : ∀ root ∈ roots, arena.Asks names root (.rawTypeOf whole) → log.Gives root b
  arg : ∀ root ∈ roots, ∀ place a t, arena.Asks names root (.templateTypeOf whole place) →
    args[place]? = some a → log.Gives a t → log.Gives root t
  beyond : ∀ root ∈ roots, ∀ place, arena.Asks names root (.templateTypeOf whole place) →
    args.length ≤ place → log.Gives root .unknown

/-- If this branch is a root too, the choice was evaluated to the same type as the branch, or neither
of them to any. -/
def Log.Follows (log : Log) (roots : List NodeId) (choice branch : NodeId) : Prop :=
  branch ∈ roots → ∀ t, log.Gives choice t ↔ log.Gives branch t

namespace Setting

variable {st : Setting} {env : Env} {log : Log} {final : Store} {roots args as bs : List NodeId}
  {whole choice test yes no left right : NodeId} {name : Name} {b : TypeId} {B : Tree}
  {As Bs : List Tree}

theorem denotes_templated (ht : st.arena.Templated st.names log whole name args)
    (hb : st.declared? name = some B) (hAs : List.Forall₂ (log.Shows st env final) args As) :
    st.Denotes env whole (B.apply As) := by
  have hwhole := denotes_named ht.asks (hAs.imp fun _ _ hA => hA.1)
  rwa [hb] at hwhole

theorem projects (h : log.Settled st env final) (hroots : ∀ root ∈ roots, ∃ r, (root, r) ∈ log)
    (hb : st.declared? name = some B) (hB : final.Reads b B) (hnamed : B.isNamed = true)
    (ht : st.arena.Templated st.names log whole name args) (hargs : args ≠ []) :
    st.arena.Projects st.names roots log whole args b := by
  obtain ⟨As, hAs⟩ := h.exists_shows ht.gives
  have hwhole := denotes_templated ht hb hAs
  rw [Tree.apply_of_isNamed hnamed (ne_nil_of_forall₂ hAs hargs)] at hwhole
  refine ⟨fun root hroot hop => ?_, fun root hroot place a t hop ha hat => ?_,
    fun root hroot place hop hplace => ?_⟩
  · exact h.gives_iff.2 ⟨hroots root hroot, B, .rawTypeOf hop hwhole, hB⟩
  · obtain ⟨literal, hc, hn⟩ := hop
    have hroot' := Denotes.templateTypeOf hc hn hwhole
    have hA := forall₂_getElem? hAs place
    rw [ha] at hA
    cases hAt : As[place]? with
    | none => simp [hAt] at hA
    | some A =>
      rw [hAt, Option.rel_some_some] at hA
      rw [Tree.args, hAt] at hroot'
      exact h.gives_iff.2 ⟨hroots root hroot, A, hroot', h.reads_of_gives hat hA.1⟩
  · obtain ⟨literal, hc, hn⟩ := hop
    have hroot' := Denotes.templateTypeOf hc hn hwhole
    rw [Tree.args, List.getElem?_eq_none (hAs.length_eq ▸ hplace)] at hroot'
    exact h.gives_iff.2 ⟨hroots root hroot, _, hroot', h.wellFormed.reads_unknown⟩

theorem follows (h : log.Settled st env final) (hroots : ∀ root ∈ roots, ∃ r, (root, r) ∈ log)
    (hchoice : choice ∈ roots) {branch : NodeId}
    (hiff : ∀ T, st.Denotes env choice T ↔ st.Denotes env branch T) :
    log.Follows roots choice branch := by
  intro hbranch t
  rw [h.gives_iff, h.gives_iff, and_iff_right (hroots choice hchoice),
    and_iff_right (hroots branch hbranch)]
  exact exists_congr fun T => and_congr_left fun _ => hiff T

/-- The choice between two templates of one declared name takes the first branch if their arguments
agree, and, for a nominal type with arguments on both sides, only then. -/
theorem compares (h : log.Settled st env final) (hroots : ∀ root ∈ roots, ∃ r, (root, r) ∈ log)
    (hb : st.declared? name = some B) (hchoice : choice ∈ roots)
    (hop : st.arena.Asks st.names choice (.cond test yes no))
    (htest : st.arena.Tests st.names test (.eq left right))
    (hl : st.arena.Templated st.names log left name as)
    (hr : st.arena.Templated st.names log right name bs) :
    (log.Agree as bs → log.Follows roots choice yes) ∧
      (B.isNamed = true → as ≠ [] → bs ≠ [] → ¬log.Agree as bs → log.Follows roots choice no) := by
  obtain ⟨As, hAs⟩ := h.exists_shows hl.gives
  obtain ⟨Bs, hBs⟩ := h.exists_shows hr.gives
  have hL := denotes_templated hl hb hAs
  have hR := denotes_templated hr hb hBs
  have hiff (T) := denotes_condEq_iff (T := T) hop htest hL hR
  rw [h.agree_iff hAs hBs]
  refine ⟨?_, fun hnamed has hbs hne => ?_⟩
  · rintro rfl
    exact follows h hroots hchoice fun T => by simpa using hiff T
  · have hinj := Tree.apply_inj hnamed (ne_nil_of_forall₂ hAs has) (ne_nil_of_forall₂ hBs hbs)
    have hdiff : B.apply As ≠ B.apply Bs := mt hinj hne
    exact follows h hroots hchoice fun T => by simpa [hdiff] using hiff T

end Setting

namespace Context

/-- Of a nominal type with arguments the projections give back the type and each argument, and `?`
beyond the last. Two templates of one declared name are equal if their arguments agree, and, for a
nominal type with arguments on both sides, only then. All of this is evaluated in one store, one
root after the other, and none is cut off; only a full store makes a difference. -/
theorem evaluate_projections (cx : Context) {scope : Scope} {s : Store} (h : s.Reachable)
    (hd : s.Holds cx.declared?) (hs : s.Holds scope.lookup?) {roots : List NodeId} {name : Name}
    {b : TypeId} (hb : cx.declared? name = some b)
    (hdepth : ∀ p ∈ cx.log scope roots s, ∀ n, p.2 ≠ .error (.error (.depthExceeded n))) :
    (∃ root, (root, .error (.fault .storeFull)) ∈ cx.log scope roots s) ∨
      (∀ whole args, s.kind b = .ok .named → args ≠ [] →
        cx.arena.Templated cx.names (cx.log scope roots s) whole name args →
        cx.arena.Projects cx.names roots (cx.log scope roots s) whole args b) ∧
      ∀ choice ∈ roots, ∀ test yes no left right as bs,
        cx.arena.Asks cx.names choice (.cond test yes no) →
        cx.arena.Tests cx.names test (.eq left right) →
        cx.arena.Templated cx.names (cx.log scope roots s) left name as →
        cx.arena.Templated cx.names (cx.log scope roots s) right name bs →
        ((cx.log scope roots s).Agree as bs →
          (cx.log scope roots s).Follows roots choice yes) ∧
        (s.kind b = .ok .named → as ≠ [] → bs ≠ [] → ¬(cx.log scope roots s).Agree as bs →
          (cx.log scope roots s).Follows roots choice no) := by
  refine or_iff_not_imp_left.2 fun hfull => ?_
  have hfull' : ∀ p ∈ cx.log scope roots s, p.2 ≠ .error (.fault .storeFull) := by
    rintro ⟨root, r⟩ hp rfl
    exact hfull ⟨root, hp⟩
  have hwf := h.wellFormed
  have hdecl := hwf.binds_treesOf hd
  obtain ⟨final, hle, hsettled⟩ :=
    exists_settled hwf hdecl (hwf.binds_treesOf hs) hfull' hdepth
  have hroots : ∀ root ∈ roots, ∃ r, (root, r) ∈ cx.log scope roots s :=
    fun root hroot => exists_mem_log_iff.2 hroot
  -- The tree of the declared type tells whether it is nominal, in this store and in the last one.
  obtain ⟨B, hB, hbase⟩ := hdecl.exists_reads hb
  obtain ⟨kind, hkind, hiff, -⟩ := hwf.reads_kind hB
  have hnamed (hk : s.kind b = .ok .named) : B.isNamed = true :=
    hiff.1 (Except.ok.inj (hkind.symm.trans hk))
  refine ⟨fun whole args hk hargs ht => ?_, ?_⟩
  · exact Setting.projects hsettled hroots hbase (hB.mono hle) (hnamed hk) ht hargs
  · intro choice hchoice test yes no left right as bs hop htest hl hr
    obtain ⟨hsame, hdiff⟩ := Setting.compares hsettled hroots hbase hchoice hop htest hl hr
    exact ⟨hsame, fun hk => hdiff (hnamed hk)⟩

/-- With `N` declared as the type of `x`, `type('N', y, unknown())` at place 4; at place 5 its raw
type, at 7, 9 and 11 its template arguments 0, 1 and 2, and at 14 a choice by whether it equals
`type('N', y, x)`. -/
def taking : Context where
  names := .new .byScalars
  arena := ⟨#[.var ⟨0, 1⟩, .var ⟨0, 2⟩, .call ⟨0, 2⟩ ⟨0, 0⟩, .str ⟨5, 0⟩, .call ⟨2, 0⟩ ⟨0, 3⟩,
      .call ⟨1, 0⟩ ⟨3, 1⟩, .int 0, .call ⟨3, 0⟩ ⟨4, 2⟩, .int 1, .call ⟨3, 0⟩ ⟨6, 2⟩, .int 2,
      .call ⟨3, 0⟩ ⟨8, 2⟩, .call ⟨2, 0⟩ ⟨10, 3⟩, .call ⟨6, 0⟩ ⟨13, 2⟩, .call ⟨4, 0⟩ ⟨15, 3⟩],
    #[⟨3⟩, ⟨1⟩, ⟨2⟩, ⟨4⟩, ⟨4⟩, ⟨6⟩, ⟨4⟩, ⟨8⟩, ⟨4⟩, ⟨10⟩, ⟨3⟩, ⟨1⟩, ⟨0⟩, ⟨4⟩, ⟨12⟩, ⟨13⟩, ⟨0⟩, ⟨1⟩]⟩
  declared? name := if name = ⟨5, 0⟩ then some ⟨3⟩ else none
  limit := ⟨4⟩

def takingRoots : List NodeId := [⟨0⟩, ⟨1⟩, ⟨2⟩, ⟨5⟩, ⟨7⟩, ⟨9⟩, ⟨11⟩, ⟨14⟩]

def takingLog : Log :=
  [(⟨0⟩, .ok ⟨⟨3⟩, []⟩), (⟨1⟩, .ok ⟨⟨4⟩, []⟩), (⟨2⟩, .ok ⟨.unknown, []⟩), (⟨5⟩, .ok ⟨⟨3⟩, []⟩),
    (⟨7⟩, .ok ⟨⟨4⟩, []⟩), (⟨9⟩, .ok ⟨.unknown, []⟩), (⟨11⟩, .ok ⟨.unknown, []⟩),
    (⟨14⟩, .ok ⟨⟨4⟩, []⟩)]

/-- The parts of `type('N', y, unknown())` are as they should be, and the choice takes the second
branch. -/
theorem taking_evaluate_projections :
    taking.log (.sample ⟨3⟩ ⟨4⟩) takingRoots (.sample ⟨1, 0⟩ ⟨2, 0⟩) = takingLog ∧
      taking.arena.Projects taking.names takingRoots takingLog ⟨4⟩ [⟨1⟩, ⟨2⟩] ⟨3⟩ ∧
      takingLog.Follows takingRoots ⟨14⟩ ⟨1⟩ := by
  have hdecl : (Store.sample ⟨1, 0⟩ ⟨2, 0⟩).Holds taking.declared? := by
    intro name t ht
    simp only [taking, Option.ite_none_right_eq_some, Option.some.injEq] at ht
    rw [← ht.2]
    decide
  have hscope : (Store.sample ⟨1, 0⟩ ⟨2, 0⟩).Holds (Scope.sample ⟨3⟩ ⟨4⟩).lookup? :=
    Store.holds_ofBindings (by decide)
  have hb : taking.declared? ⟨5, 0⟩ = some ⟨3⟩ := rfl
  have hlog : taking.log (.sample ⟨3⟩ ⟨4⟩) takingRoots (.sample ⟨1, 0⟩ ⟨2, 0⟩) = takingLog := rfl
  have hdepth : ∀ p ∈ taking.log (.sample ⟨3⟩ ⟨4⟩) takingRoots (.sample ⟨1, 0⟩ ⟨2, 0⟩),
      ∀ n, p.2 ≠ .error (.error (.depthExceeded n)) := by
    simp [hlog, takingLog]
  have hall := taking.evaluate_projections (Store.sample_reachable ⟨1, 0⟩ ⟨2, 0⟩) hdecl hscope hb
    hdepth
  rw [hlog] at hall
  obtain ⟨hproject, hcompare⟩ := hall.resolve_left (by simp [takingLog])
  have hx : takingLog.Gives ⟨0⟩ ⟨3⟩ := by simp [takingLog, Log.Gives]
  have hy : takingLog.Gives ⟨1⟩ ⟨4⟩ := by simp [takingLog, Log.Gives]
  have hu : takingLog.Gives ⟨2⟩ .unknown := by simp [takingLog, Log.Gives]
  have hleft : taking.arena.Templated taking.names takingLog ⟨4⟩ ⟨5, 0⟩ [⟨1⟩, ⟨2⟩] :=
    ⟨⟨⟨3⟩, ⟨_, _, rfl, rfl, rfl⟩, rfl⟩, by simpa using ⟨⟨_, hy⟩, ⟨_, hu⟩⟩⟩
  have hright : taking.arena.Templated taking.names takingLog ⟨12⟩ ⟨5, 0⟩ [⟨1⟩, ⟨0⟩] :=
    ⟨⟨⟨3⟩, ⟨_, _, rfl, rfl, rfl⟩, rfl⟩, by simpa using ⟨⟨_, hy⟩, ⟨_, hx⟩⟩⟩
  have hdiff : ¬takingLog.Agree [⟨1⟩, ⟨2⟩] [⟨1⟩, ⟨0⟩] := by
    simp [Log.Agree, Log.Gives, takingLog, TypeId.unknown]
  have hchoice := hcompare ⟨14⟩ (by decide) ⟨13⟩ ⟨0⟩ ⟨1⟩ ⟨4⟩ ⟨12⟩ _ _ ⟨_, _, rfl, rfl, rfl⟩
    ⟨_, _, rfl, rfl, rfl⟩ hleft hright
  exact ⟨hlog, hproject ⟨4⟩ _ rfl (by simp) hleft, hchoice.2 rfl (by simp) (by simp) hdiff⟩

end Context

end TypeCalculus
