import TypeCalculus.Proofs.Evaluation.Meaning
import TypeCalculus.Proofs.Evaluation.Stability
import TypeCalculus.Proofs.Store.Subtyping

/-!
Evaluation in a store does what the meaning of the expression says. Along the way the store grows
and stays well formed, so a handle that reads as a tree once does so until the end.
-/

namespace TypeCalculus

/-- The handles that names stand for have the given trees. -/
def Store.Binds (s : Store) (found : Name → Option TypeId) (env : Env) : Prop :=
  ∀ name, Option.Rel s.Reads (found name) (env name)

theorem Store.Binds.mono {s s' : Store} {found : Name → Option TypeId} {env : Env}
    (h : s.Binds found env) (hle : s ≤ s') : s'.Binds found env := by
  intro name
  have hname := h name
  generalize found name = t at hname
  generalize env name = T at hname
  cases hname with
  | some ht => exact .some (ht.mono hle)
  | none => exact .none

theorem forall₂_getElem? {α β : Type} {R : α → β → Prop} {as : List α} {bs : List β}
    (h : List.Forall₂ R as bs) (i : Nat) : Option.Rel R as[i]? bs[i]? := by
  induction h generalizing i with
  | nil => exact .none
  | cons hr _ ih =>
    cases i with
    | zero => exact .some hr
    | succ i => simpa using ih i

theorem Store.WellFormed.reads_getD {s : Store} (h : s.WellFormed) {t : Option TypeId}
    {T : Option Tree} (ht : Option.Rel s.Reads t T) : s.Reads (t.getD .unknown) (T.getD .unknown) := by
  cases ht with
  | some ht => exact ht
  | none => exact h.reads_unknown

theorem Store.Binds.extend {s : Store} {scope : Scope} {env : Env} (h : s.Binds scope.lookup? env)
    (param : Name) {t : TypeId} {T : Tree} (ht : s.Reads t T) :
    s.Binds (scope.extend [(param, t)]).lookup? (Function.update env param (some T)) := by
  intro name
  rw [Scope.lookup?_extend_single]
  by_cases hn : param = name
  · subst hn
    rw [if_pos rfl, Function.update_self]
    exact .some ht
  · rw [if_neg hn, Function.update_of_ne (Ne.symm hn)]
    exact h name

/-- What a step of an evaluation with the misses `D` leaves behind. -/
structure Progress.Leads (p : Progress) (D : Set Miss) (p' : Progress) : Prop where
  grows : p.store ≤ p'.store
  wellFormed : p'.store.WellFormed
  misses : ∀ miss, miss ∈ p'.misses ↔ miss ∈ p.misses ∨ miss ∈ D
  nodup : p.misses.Nodup → p'.misses.Nodup

namespace Progress.Leads

variable {p p₁ p₂ : Progress} {D₁ D₂ : Set Miss}

theorem refl (h : p.store.WellFormed) : p.Leads ∅ p := ⟨le_refl p.store, h, by simp, id⟩

theorem trans (h₁ : p.Leads D₁ p₁) (h₂ : p₁.Leads D₂ p₂) : p.Leads (D₁ ∪ D₂) p₂ where
  grows := h₁.grows.trans h₂.grows
  wellFormed := h₂.wellFormed
  misses miss := by rw [h₂.misses, h₁.misses, Set.mem_union, or_assoc]
  nodup hp := h₂.nodup (h₁.nodup hp)

end Progress.Leads

namespace Eval

variable {α β γ δ : Type} {R : Store → α → β → Prop} {Q : Store → γ → δ → Prop} {p : Progress}

/-- The outcome is what `m` says: a related result with the same misses, or an error where `m` has
no result. The store may also be full. -/
def Accords (R : Store → α → β → Prop) (p : Progress) (m : Meaning β) :
    EStateM.Result Abort Progress α → Prop
  | .ok a p' => ∃ b D, m = .result b D ∧ R p'.store a b ∧ p.Leads D p'
  | .error e _ => e = .fault .storeFull ∨ m = .nothing

/-- From `p` on, the step does what `m` says. -/
def Realizes (R : Store → α → β → Prop) (p : Progress) (act : Eval α) (m : Meaning β) : Prop :=
  Accords R p m (act p)

namespace Realizes

theorem pure {a : α} {b : β} (h : p.store.WellFormed) (hab : R p.store a b) :
    Realizes R p (Pure.pure a) (Pure.pure b) := ⟨b, ∅, rfl, hab, .refl h⟩

theorem throw (e : Abort) : Realizes R p (MonadExcept.throw e) .nothing := .inr rfl

theorem bind {act : Eval α} {m : Meaning β} {next : α → Eval γ} {next' : β → Meaning δ}
    (h : Realizes R p act m)
    (hn : ∀ a b p', p.store ≤ p'.store → p'.store.WellFormed → R p'.store a b →
      Realizes Q p' (next a) (next' b)) :
    Realizes Q p (act >>= next) (m >>= next') := by
  unfold Realizes at h ⊢
  rw [bind_apply]
  cases hact : act p with
  | error e p' =>
    rw [hact] at h
    rcases h with hfull | rfl
    · exact .inl hfull
    · exact .inr rfl
  | ok a p₁ =>
    rw [hact] at h
    obtain ⟨b, D₁, rfl, hab, hp⟩ := h
    -- The second half starts in a larger store, where all that was read before reads the same.
    have hnext := hn a b p₁ hp.grows hp.wellFormed hab
    unfold Realizes at hnext
    dsimp only
    cases hact' : next a p₁ with
    | ok c p₂ =>
      rw [hact'] at hnext
      obtain ⟨d, D₂, hd, hcd, hp'⟩ := hnext
      exact ⟨d, D₁ ∪ D₂, Meaning.bind_result rfl hd, hcd, hp.trans hp'⟩
    | error e p' =>
      rw [hact'] at hnext
      refine hnext.imp_right fun hnone => ?_
      change Meaning.andThen next' (.result b D₁) = .nothing
      rw [Meaning.andThen, hnone]

theorem ofExcept (h : p.store.WellFormed) (r : Except Abort γ) :
    Realizes (fun _ c c' => c = c') p (Eval.ofExcept r) (Meaning.ofExcept r) := by
  cases r with
  | ok c => exact pure h rfl
  | error e => exact throw e

theorem ask_bind {question : Store → Except Fault γ} {c : γ} {next : γ → Eval α} {m : Meaning β}
    (hc : question p.store = .ok c) (h : Realizes R p (next c) m) :
    Realizes R p (Eval.ask question >>= next) m := by
  have hask := ask_eq_ok_iff.2 ⟨hc, rfl⟩
  unfold Realizes
  rw [bind_apply, hask]
  exact h

theorem build {make : StoreM TypeId} {T : Tree} (hm : make.Settles)
    (hwf : (finalState (make p.store)).WellFormed) (hT : Store.Makes T (make p.store)) :
    Realizes Store.Reads p (Eval.build make) (Pure.pure T) := by
  have hgrows := hm.grows p.store
  unfold Realizes Eval.build
  cases hr : make p.store with
  | ok t s =>
    rw [hr] at hwf hT hgrows
    exact ⟨T, ∅, rfl, hT, ⟨hgrows, hwf, by simp, id⟩⟩
  | error f s =>
    rw [hr] at hT
    exact .inl (congrArg Abort.fault hT)

theorem note (h : p.store.WellFormed) (miss : Miss) :
    Realizes (fun _ a b => a = b) p (Eval.note miss) (Meaning.note miss) := by
  unfold Realizes
  by_cases hmem : miss ∈ p.misses
  · rw [note_of_mem hmem]
    refine ⟨(), {miss}, rfl, rfl, le_refl _, h, fun other => ?_, id⟩
    rw [Set.mem_singleton_iff]
    exact ⟨.inl, fun hor => hor.elim id fun heq => heq ▸ hmem⟩
  · rw [note_of_not_mem hmem]
    refine ⟨(), {miss}, rfl, rfl, le_refl _, h, fun other => by simp, fun hp => ?_⟩
    exact List.nodup_append.2 ⟨hp, List.nodup_singleton miss, by
      rintro a ha b hb rfl
      exact hmem (List.mem_singleton.1 hb ▸ ha)⟩

theorem resolved (h : p.store.WellFormed) {found : Option TypeId} {T : Option Tree}
    (hT : Option.Rel p.store.Reads found T) (miss : Miss) :
    Realizes Store.Reads p (Eval.resolved found miss) (Meaning.resolved T miss) := by
  cases hT with
  | some ht => exact pure h ht
  | none => exact bind (note h miss) fun _ _ p' _ hwf _ => pure hwf hwf.reads_unknown

theorem mapM {act : γ → Eval α} {act' : δ → Meaning β}
    (hR : ∀ {s s' a b}, s ≤ s' → R s a b → R s' a b) (hQ : ∀ {s s' c d}, s ≤ s' → Q s c d → Q s' c d)
    {cs : List γ} {ds : List δ} (h : p.store.WellFormed) (hcs : List.Forall₂ (Q p.store) cs ds)
    (ha : ∀ c d p', p.store ≤ p'.store → p'.store.WellFormed → Q p'.store c d →
      Realizes R p' (act c) (act' d)) :
    Realizes (fun s => List.Forall₂ (R s)) p (cs.mapM act) (ds.mapM act') := by
  induction cs generalizing p ds with
  | nil =>
    cases hcs
    exact pure h .nil
  | cons c cs ih =>
    cases hcs with
    | @cons _ d _ ds hcd hcs =>
      rw [List.mapM_cons, List.mapM_cons]
      refine bind (ha c d p (le_refl _) h hcd) fun a b p₁ hle₁ hwf₁ hab => ?_
      have hrest := ih hwf₁ (hcs.imp fun _ _ => hQ hle₁) fun c d p' hle => ha c d p' (hle₁.trans hle)
      refine bind hrest fun as bs p₂ hle₂ hwf₂ habs => ?_
      exact pure hwf₂ (.cons (hR hle₂ hab) habs)

end Realizes

/-- In every store from `s` on, the step does what the meaning says of the trees in scope. -/
def Follows (R : Store → α → β → Prop) (s : Store) (act : Scope → NodeId → Eval α)
    (m : Env → NodeId → Meaning β) : Prop :=
  ∀ p scope env id, s ≤ p.store → p.store.WellFormed → p.store.Binds scope.lookup? env →
    Realizes R p (act scope id) (m env id)

theorem Follows.later {s s' : Store} {act : Scope → NodeId → Eval α} {m : Env → NodeId → Meaning β}
    (h : Follows R s act m) (hle : s ≤ s') : Follows R s' act m :=
  fun p scope env id hle' => h p scope env id (hle.trans hle')

section Rules

variable {typeOf : Scope → NodeId → Eval TypeId} {typeOf' : Env → NodeId → Meaning Tree}
  {holds : Scope → NodeId → Eval Bool} {holds' : Env → NodeId → Meaning Bool}
  {declared? : Name → Option TypeId} {declared' scope' : Env} {scope : Scope} {s : Store}

theorem Follows.operands (ht : Follows Store.Reads p.store typeOf typeOf') (hwf : p.store.WellFormed)
    (hs : p.store.Binds scope.lookup? scope') (ids : List NodeId) :
    Realizes (fun s => List.Forall₂ s.Reads) p (ids.mapM (typeOf scope)) (ids.mapM (typeOf' scope')) := by
  refine .mapM (Q := fun _ => Eq) (fun hle h => h.mono hle) (fun _ h => h) hwf
    (List.forall₂_same.2 fun _ _ => rfl) ?_
  rintro id _ p' hle hwf' rfl
  exact ht p' scope scope' id hle hwf' (hs.mono hle)

theorem Follows.operation (ht : Follows Store.Reads p.store typeOf typeOf')
    (hh : Follows (fun _ b b' => b = b') p.store holds holds') (hwf : p.store.WellFormed)
    (hd : p.store.Binds declared? declared') (hs : p.store.Binds scope.lookup? scope')
    (op : Operation) :
    Realizes Store.Reads p (op.eval typeOf declared? holds scope)
      (op.meaning typeOf' declared' holds' scope') := by
  have hle := le_refl p.store
  cases op with
  | var name => exact .resolved hwf (hs name) _
  | empty => exact .pure hwf hwf.reads_empty
  | all => exact .pure hwf hwf.reads_all
  | unknown => exact .pure hwf hwf.reads_unknown
  | named name args =>
    refine .bind (ht.operands hwf hs args) fun as As p₁ hle₁ hwf₁ hAs => ?_
    refine .bind (.resolved hwf₁ (hd.mono hle₁ name) _) fun b B p₂ hle₂ hwf₂ hB => ?_
    have hmakes := hwf₂.makes_applied hB (Store.forall₂_reads_mono hAs hle₂)
    split
    · rename_i hb
      have hB' : B = .unknown := (hwf₂.eq_iff hB hwf₂.reads_unknown).1 hb
      subst hB'
      exact .pure hwf₂ hB
    · exact .build (.applied b as) (hwf₂.applied b as) hmakes
  | union operands =>
    refine .bind (ht.operands hwf hs operands) fun ts Ts p₁ hle₁ hwf₁ hTs => ?_
    exact .build (.union ts) (hwf₁.union ts) (hwf₁.makes_union hTs)
  | cond test yes no =>
    refine .bind (hh p scope scope' test hle hwf hs) ?_
    rintro b _ p₁ hle₁ hwf₁ rfl
    cases b with
    | true => exact ht p₁ scope scope' yes hle₁ hwf₁ (hs.mono hle₁)
    | false => exact ht p₁ scope scope' no hle₁ hwf₁ (hs.mono hle₁)
  | mapUnion source param body =>
    refine .bind (ht p scope scope' source hle hwf hs) fun t T p₁ hle₁ hwf₁ hT => ?_
    obtain ⟨ms, Ms, hms, hMs, hperm⟩ := hwf₁.reads_members hT
    have hbodies : Realizes (fun s => List.Forall₂ s.Reads) p₁
        (ms.mapM fun m => typeOf (scope.extend [(param, m)]) body)
        (Ms.mapM fun M => typeOf' (Function.update scope' param (some M)) body) := by
      refine .mapM (fun hle h => h.mono hle) (fun hle h => h.mono hle) hwf₁ hMs ?_
      intro m M p₂ hle₂ hwf₂ hM
      have hle' := hle₁.trans hle₂
      exact ht p₂ _ _ body hle' hwf₂ ((hs.mono hle').extend param hM)
    -- The store lists the members by handle, the tree by code; the union does not see the order.
    rw [Meaning.join_mapM_perm hperm.symm]
    refine .ask_bind hms (.bind hbodies fun ts Ts p₂ hle₂ hwf₂ hTs => ?_)
    exact .build (.union ts) (hwf₂.union ts) (hwf₂.makes_union hTs)
  | rawTypeOf subject =>
    refine .bind (ht p scope scope' subject hle hwf hs) fun t T p₁ hle₁ hwf₁ hT => ?_
    obtain ⟨b, hb, hB⟩ := hwf₁.reads_base? hT
    exact .ask_bind hb (.pure hwf₁ (hwf₁.reads_getD hB))
  | templateTypeOf subject place =>
    refine .bind (ht p scope scope' subject hle hwf hs) fun t T p₁ hle₁ hwf₁ hT => ?_
    obtain ⟨args, ha, hA⟩ := hwf₁.reads_args hT
    exact .ask_bind ha (.pure hwf₁ (hwf₁.reads_getD (forall₂_getElem? hA place)))

theorem Follows.condition (ht : Follows Store.Reads p.store typeOf typeOf')
    (hwf : p.store.WellFormed) (hs : p.store.Binds scope.lookup? scope') (condition : Condition) :
    Realizes (fun _ b b' => b = b') p (condition.eval typeOf scope)
      (condition.meaning typeOf' scope') := by
  have hle := le_refl p.store
  cases condition with
  | eq left right =>
    refine .bind (ht p scope scope' left hle hwf hs) fun l L p₁ hle₁ hwf₁ hL => ?_
    refine .bind (ht p₁ scope scope' right hle₁ hwf₁ (hs.mono hle₁)) fun r R p₂ hle₂ hwf₂ hR => ?_
    exact .pure hwf₂ (decide_eq_decide.2 (hwf₂.eq_iff (hL.mono hle₂) hR))
  | sub lower upper =>
    refine .bind (ht p scope scope' lower hle hwf hs) fun l L p₁ hle₁ hwf₁ hL => ?_
    refine .bind (ht p₁ scope scope' upper hle₁ hwf₁ (hs.mono hle₁)) fun u U p₂ hle₂ hwf₂ hU => ?_
    obtain ⟨b, hb, hiff⟩ := hwf₂.isSubtype_answers (hL.mono hle₂) hU
    rw [← bind_pure (Eval.ask _)]
    refine .ask_bind hb (.pure hwf₂ (Bool.eq_iff_iff.2 ?_))
    rw [hiff, decide_eq_true_iff]
  | isTemplatized subject =>
    refine .bind (ht p scope scope' subject hle hwf hs) fun t T p₁ hle₁ hwf₁ hT => ?_
    obtain ⟨traits, htraits, happlied, -⟩ := hwf₁.reads_traits hT
    exact .ask_bind htraits (.pure hwf₁ happlied)
  | isUnknown subject =>
    refine .bind (ht p scope scope' subject hle hwf hs) fun t T p₁ hle₁ hwf₁ hT => ?_
    exact .pure hwf₁ (decide_eq_decide.2 (hwf₁.eq_iff hT hwf₁.reads_unknown))

end Rules

end Eval

namespace Context

variable {cx : Context} {declared' : Env} {s : Store}

theorem typeAt_and_holdsAt_follow (hd : s.Binds cx.declared? declared') (room : Nat) :
    Eval.Follows Store.Reads s (cx.typeAt room)
        (Setting.typeAt ⟨cx.names, cx.arena, declared'⟩ room) ∧
      Eval.Follows (fun _ b b' => b = b') s (cx.holdsAt room)
        (Setting.holdsAt ⟨cx.names, cx.arena, declared'⟩ room) := by
  induction room with
  -- With no room left neither side has a result.
  | zero => exact ⟨fun _ _ _ _ _ _ _ => .throw _, fun _ _ _ _ _ _ _ => .throw _⟩
  | succ room ih =>
    constructor
    · intro p scope env id hle hwf hs
      refine .bind (.ofExcept hwf _) ?_
      rintro op _ p₁ hle₁ hwf₁ rfl
      have hle' := hle.trans hle₁
      exact (ih.1.later hle').operation (ih.2.later hle') hwf₁ (hd.mono hle') (hs.mono hle₁) op
    · intro p scope env id hle hwf hs
      refine .bind (.ofExcept hwf _) ?_
      rintro condition _ p₁ hle₁ hwf₁ rfl
      exact (ih.1.later (hle.trans hle₁)).condition hwf₁ (hs.mono hle₁) condition

/-- An evaluation gives the type that the expression means, with the misses that belong to it; it
fails only if the expression means nothing or the store is full. -/
theorem evaluate_accords (hwf : s.WellFormed) (hd : s.Binds cx.declared? declared') {scope : Scope}
    {env : Env} (hs : s.Binds scope.lookup? env) (root : NodeId) :
    match cx.evaluate scope root s with
    | (.ok e, s') => ∃ T D, Setting.typeAt ⟨cx.names, cx.arena, declared'⟩ (cx.limit.room 0) env root =
        .result T D ∧ s'.Reads e.type T ∧ e.misses.Nodup ∧ ∀ miss, miss ∈ e.misses ↔ miss ∈ D
    | (.error e, _) => e = .fault .storeFull ∨
        Setting.typeAt ⟨cx.names, cx.arena, declared'⟩ (cx.limit.room 0) env root = .nothing := by
  have h := (typeAt_and_holdsAt_follow hd (cx.limit.room 0)).1 ⟨s, []⟩ scope env root (le_refl s)
    hwf hs
  unfold Eval.Realizes at h
  unfold evaluate
  cases hr : cx.typeAt (cx.limit.room 0) scope root ⟨s, []⟩ with
  | ok t p =>
    rw [hr] at h
    obtain ⟨T, D, hm, hT, hp⟩ := h
    exact ⟨T, D, hm, hT, hp.nodup List.nodup_nil, fun miss => by simp [hp.misses]⟩
  | error e p =>
    rw [hr] at h
    exact h

end Context

end TypeCalculus
