import TypeCalculus.Proofs.Evaluation.Limits
import TypeCalculus.Proofs.Evaluation.Reach
import TypeCalculus.Proofs.Evaluation.Transparency
import TypeCalculus.Proofs.Store.Hereditary

/-!
What an evaluation can end in. If the handles it starts from lead somewhere, it gives a type of the
store that it leaves, or it fails because of the depth limit, because of a node that cannot be read
where it stands, or because the store is full. A callee that the table of names does not hold is the
one node of a sound arena whose reading is a fault.
-/

namespace TypeCalculus

namespace Store

variable {s s' : Store} {t : TypeId} {ts : List TypeId}

/-- The handle leads to a type of the store. -/
def Has (s : Store) (t : TypeId) : Prop := t.index < s.size

theorem Has.mono (h : s.Has t) (hle : s ≤ s') : s'.Has t := Nat.lt_of_lt_of_le h (size_le_of_le hle)

theorem Holds.mono {found : Name → Option TypeId} (h : s.Holds found) (hle : s ≤ s') :
    s'.Holds found := fun name t ht => Has.mono (h name t ht) hle

theorem Holds.extend {scope : Scope} (h : s.Holds scope.lookup?) (param : Name) (ht : s.Has t) :
    s.Holds (scope.extend [(param, t)]).lookup? :=
  Scope.forall_lookup?_extend_single h ht

theorem holds_empty (s : Store) : s.Holds Scope.empty.lookup? :=
  holds_ofBindings (List.forall_mem_nil _)

namespace WellFormed

theorem exists_trees (h : s.WellFormed) (hts : ∀ t ∈ ts, s.Has t) :
    ∃ Ts, List.Forall₂ s.Reads ts Ts := exists_forall₂ fun t ht => h.exists_reads t (hts t ht)

theorem has_unknown (h : s.WellFormed) : s.Has .unknown := h.lt_size_of_reads h.reads_unknown

theorem has_getD (h : s.WellFormed) {found : Option TypeId} (hf : ∀ t, found = some t → s.Has t) :
    s.Has (found.getD .unknown) := by
  cases found with
  | some t => exact hf t rfl
  | none => exact h.has_unknown

theorem has_iff (h : s.WellFormed) : s.Has t ↔ s.HasIn (fun _ => True) t := by
  constructor
  · intro ht
    obtain ⟨T, hT⟩ := h.exists_reads t ht
    exact ⟨T, hT, trivial⟩
  · rintro ⟨T, hT, -⟩
    exact h.lt_size_of_reads hT

theorem exists_members (h : s.WellFormed) (ht : s.Has t) :
    ∃ ms, s.members t = .ok ms ∧ ∀ m ∈ ms, s.Has m := by
  simpa only [h.has_iff] using h.exists_members_in Tree.hereditary_true (h.has_iff.1 ht)

theorem exists_base? (h : s.WellFormed) (ht : s.Has t) :
    ∃ b, s.base? t = .ok b ∧ ∀ base, b = some base → s.Has base := by
  simpa only [h.has_iff] using h.exists_base?_in Tree.hereditary_true (h.has_iff.1 ht)

theorem exists_args (h : s.WellFormed) (ht : s.Has t) :
    ∃ args, s.args t = .ok args ∧ ∀ arg ∈ args, s.Has arg := by
  simpa only [h.has_iff] using h.exists_args_in Tree.hereditary_true (h.has_iff.1 ht)

end WellFormed

end Store

namespace Eval

variable {α β : Type} {E : Abort → Prop} {Q : Store → α → Prop} {R : Store → β → Prop} {p : Progress}

/-- From `p` on, the step ends in a result with `Q`, or in one of the errors `E`, or for want of
room in the store. -/
def Ends (E : Abort → Prop) (Q : Store → α → Prop) (p : Progress) (act : Eval α) : Prop :=
  match act p with
  | .ok a p' => p.store ≤ p'.store ∧ p'.store.WellFormed ∧ Q p'.store a
  | .error e p' => E e ∨ e = .fault .storeFull ∧ Store.capacity ≤ p'.store.size

namespace Ends

theorem pure {a : α} (h : p.store.WellFormed) (ha : Q p.store a) : Ends E Q p (Pure.pure a) :=
  ⟨le_refl _, h, ha⟩

theorem throw {e : Abort} (he : E e) : Ends E Q p (MonadExcept.throw e) := .inl he

theorem bind {act : Eval α} {next : α → Eval β} (h : Ends E Q p act)
    (hn : ∀ a p', p.store ≤ p'.store → p'.store.WellFormed → Q p'.store a → Ends E R p' (next a)) :
    Ends E R p (act >>= next) := by
  unfold Ends at h ⊢
  rw [bind_apply]
  cases hact : act p with
  | error e p' =>
    rw [hact] at h
    exact h
  | ok a p₁ =>
    rw [hact] at h
    obtain ⟨hle, hwf, ha⟩ := h
    have hnext := hn a p₁ hle hwf ha
    unfold Ends at hnext
    dsimp only
    cases hact' : next a p₁ with
    | error e p' =>
      rw [hact'] at hnext
      exact hnext
    | ok b p₂ =>
      rw [hact'] at hnext
      exact ⟨hle.trans hnext.1, hnext.2⟩

theorem ofExcept (h : p.store.WellFormed) {r : Except Abort α} (hr : ∀ e, r = .error e → E e) :
    Ends E (fun _ a => r = .ok a) p (Eval.ofExcept r) := by
  cases r with
  | ok a => exact pure h rfl
  | error e => exact throw (hr e rfl)

theorem ask_bind {question : Store → Except Fault β} {b : β} {next : β → Eval α}
    (hb : question p.store = .ok b) (h : Ends E Q p (next b)) :
    Ends E Q p (Eval.ask question >>= next) := by
  have hask := ask_eq_ok_iff.2 ⟨hb, rfl⟩
  unfold Ends
  rw [bind_apply, hask]
  exact h

/-- Making a type fails only if there is no room, and then the store stays full. -/
theorem build {make : StoreM TypeId} {T : Tree} (hm : make.Settles)
    (hwf : (finalState (make p.store)).WellFormed) (hT : Store.Makes T (make p.store))
    (hroom : p.store.size < Store.capacity → ∃ t s', make p.store = .ok t s') :
    Ends E Store.Has p (Eval.build make) := by
  have hgrows := hm.grows p.store
  unfold Ends Eval.build
  cases hr : make p.store with
  | ok t s =>
    rw [hr] at hwf hT hgrows
    exact ⟨hgrows, hwf, hwf.lt_size_of_reads hT⟩
  | error f s =>
    rw [hr] at hT hgrows
    have hfull : Store.capacity ≤ p.store.size := by
      refine Nat.le_of_not_lt fun hlt => ?_
      obtain ⟨t, s', ht⟩ := hroom hlt
      cases hr.symm.trans ht
    exact .inr ⟨congrArg Abort.fault hT, hfull.trans (Store.size_le_of_le hgrows)⟩

theorem union (h : p.store.WellFormed) {ts : List TypeId} (hts : ∀ t ∈ ts, p.store.Has t) :
    Ends E Store.Has p (Eval.build (Store.union ts)) := by
  obtain ⟨Ts, hTs⟩ := h.exists_trees hts
  exact build (.union ts) (h.union ts) (h.makes_union hTs) (h.exists_union_of_room hTs)

theorem applied (h : p.store.WellFormed) {base : TypeId} {args : List TypeId}
    (hb : p.store.Has base) (ha : ∀ arg ∈ args, p.store.Has arg) :
    Ends E Store.Has p (Eval.build (Store.applied base args)) := by
  obtain ⟨B, hB⟩ := h.exists_reads base hb
  obtain ⟨As, hAs⟩ := h.exists_trees ha
  have hparts : ∀ part ∈ base :: args, part.index < p.store.size := List.forall_mem_cons.2 ⟨hb, ha⟩
  exact build (.applied base args) (h.applied base args) (h.makes_applied hB hAs)
    fun hroom => Store.exists_applied_of_room hroom hparts

theorem note (h : p.store.WellFormed) (miss : Miss) :
    Ends E (fun _ _ => True) p (Eval.note miss) := by
  unfold Ends
  by_cases hmem : miss ∈ p.misses
  · rw [note_of_mem hmem]
    exact ⟨le_refl _, h, trivial⟩
  · rw [note_of_not_mem hmem]
    exact ⟨le_refl _, h, trivial⟩

theorem resolved (h : p.store.WellFormed) {found : Option TypeId}
    (hf : ∀ t, found = some t → p.store.Has t) (miss : Miss) :
    Ends E Store.Has p (Eval.resolved found miss) := by
  cases found with
  | some t => exact pure h (hf t rfl)
  | none => exact bind (note h miss) fun _ p' _ hwf _ => pure hwf hwf.has_unknown

theorem mapM {act : α → Eval β} (hR : ∀ {s s' b}, s ≤ s' → R s b → R s' b) {as : List α}
    (h : p.store.WellFormed)
    (ha : ∀ a ∈ as, ∀ p', p.store ≤ p'.store → p'.store.WellFormed → Ends E R p' (act a)) :
    Ends E (fun s bs => ∀ b ∈ bs, R s b) p (as.mapM act) := by
  induction as generalizing p with
  | nil => exact pure h nofun
  | cons a as ih =>
    rw [List.mapM_cons]
    refine bind (ha a List.mem_cons_self p (le_refl _) h) fun b p₁ hle₁ hwf₁ hb => ?_
    have hrest := ih hwf₁ fun a' ha' p' hle =>
      ha a' (List.mem_cons_of_mem a ha') p' (hle₁.trans hle)
    refine bind hrest fun bs p₂ hle₂ hwf₂ hbs => ?_
    exact pure hwf₂ (List.forall_mem_cons.2 ⟨hR hle₂ hb, hbs⟩)

end Ends

/-- In every store from `s` on, the step ends in that way for every node with `P`. -/
def Safe (E : Abort → Prop) (Q : Store → α → Prop) (s : Store) (P : NodeId → Prop)
    (act : Scope → NodeId → Eval α) : Prop :=
  ∀ p scope id, s ≤ p.store → p.store.WellFormed → p.store.Holds scope.lookup? → P id →
    Ends E Q p (act scope id)

theorem Safe.later {s s' : Store} {P P' : NodeId → Prop} {act : Scope → NodeId → Eval α}
    (h : Safe E Q s P act) (hle : s ≤ s') (hP : ∀ id, P' id → P id) : Safe E Q s' P' act :=
  fun p scope id hle' hwf hs hid => h p scope id (hle.trans hle') hwf hs (hP id hid)

section Rules

variable {typeOf : Scope → NodeId → Eval TypeId} {holds : Scope → NodeId → Eval Bool}
  {declared? : Name → Option TypeId} {scope : Scope}

theorem Safe.operands {P : NodeId → Prop} (ht : Safe E Store.Has p.store P typeOf)
    (hwf : p.store.WellFormed) (hs : p.store.Holds scope.lookup?) {ids : List NodeId}
    (hids : ∀ id ∈ ids, P id) :
    Ends E (fun s ts => ∀ t ∈ ts, s.Has t) p (ids.mapM (typeOf scope)) := by
  refine .mapM (fun hle h => h.mono hle) hwf fun id hid p' hle hwf' => ?_
  exact ht p' scope id hle hwf' (hs.mono hle) (hids id hid)

theorem Safe.operation {op : Operation} (ht : Safe E Store.Has p.store (op.Part .type) typeOf)
    (hh : Safe E (fun _ _ => True) p.store (op.Part .condition) holds) (hwf : p.store.WellFormed)
    (hd : p.store.Holds declared?) (hs : p.store.Holds scope.lookup?) :
    Ends E Store.Has p (op.eval typeOf declared? holds scope) := by
  have hle := le_refl p.store
  cases op with
  | var name => exact .resolved hwf (hs name) _
  | empty => exact .pure hwf (hwf.lt_size_of_reads hwf.reads_empty)
  | all => exact .pure hwf (hwf.lt_size_of_reads hwf.reads_all)
  | unknown => exact .pure hwf hwf.has_unknown
  | named name args =>
    refine .bind (ht.operands hwf hs fun _ => .arg) fun as p₁ hle₁ hwf₁ has => ?_
    refine .bind (.resolved hwf₁ (hd.mono hle₁ name) _) fun b p₂ hle₂ hwf₂ hb => ?_
    split
    · exact .pure hwf₂ hb
    · exact .applied hwf₂ hb fun a ha => (has a ha).mono hle₂
  | union operands =>
    refine .bind (ht.operands hwf hs fun _ => .member) fun ts p₁ _ hwf₁ hts => ?_
    exact .union hwf₁ hts
  | cond test yes no =>
    refine .bind (hh p scope test hle hwf hs .test) fun b p₁ hle₁ hwf₁ _ => ?_
    split
    · exact ht p₁ scope yes hle₁ hwf₁ (hs.mono hle₁) .yes
    · exact ht p₁ scope no hle₁ hwf₁ (hs.mono hle₁) .no
  | mapUnion source param body =>
    refine .bind (ht p scope source hle hwf hs .source) fun t p₁ hle₁ hwf₁ ht' => ?_
    obtain ⟨ms, hms, hmem⟩ := hwf₁.exists_members ht'
    have hbodies : Ends E (fun s ts => ∀ t ∈ ts, s.Has t) p₁
        (ms.mapM fun m => typeOf (scope.extend [(param, m)]) body) := by
      refine .mapM (fun hle h => h.mono hle) hwf₁ fun m hm p₂ hle₂ hwf₂ => ?_
      have hle' := hle₁.trans hle₂
      have hscope := (hs.mono hle').extend param ((hmem m hm).mono hle₂)
      exact ht p₂ _ body hle' hwf₂ hscope .body
    exact .ask_bind hms (.bind hbodies fun ts p₂ _ hwf₂ hts => .union hwf₂ hts)
  | rawTypeOf subject =>
    refine .bind (ht p scope subject hle hwf hs .raw) fun t p₁ _ hwf₁ ht' => ?_
    obtain ⟨b, hb, hbase⟩ := hwf₁.exists_base? ht'
    exact .ask_bind hb (.pure hwf₁ (hwf₁.has_getD hbase))
  | templateTypeOf subject place =>
    refine .bind (ht p scope subject hle hwf hs .template) fun t p₁ _ hwf₁ ht' => ?_
    obtain ⟨args, hargs, hmem⟩ := hwf₁.exists_args ht'
    have harg : ∀ arg, args[place]? = some arg → p₁.store.Has arg :=
      fun arg ha => hmem arg (List.mem_of_getElem? ha)
    exact .ask_bind hargs (.pure hwf₁ (hwf₁.has_getD harg))

/-- Two operands are evaluated one after the other; the first is still there after the second. -/
theorem Safe.pair {P : NodeId → Prop} {left right : NodeId} {next : TypeId → TypeId → Eval α}
    (ht : Safe E Store.Has p.store P typeOf) (hwf : p.store.WellFormed)
    (hs : p.store.Holds scope.lookup?) (hleft : P left) (hright : P right)
    (hn : ∀ l r p', p'.store.WellFormed → p'.store.Has l → p'.store.Has r → Ends E Q p' (next l r)) :
    Ends E Q p (typeOf scope left >>= fun l => typeOf scope right >>= next l) := by
  have hl := ht p scope left (le_refl _) hwf hs hleft
  refine .bind hl fun l p₁ hle₁ hwf₁ hl => ?_
  have hr := ht p₁ scope right hle₁ hwf₁ (hs.mono hle₁) hright
  exact .bind hr fun r p₂ hle₂ hwf₂ hr => hn l r p₂ hwf₂ (hl.mono hle₂) hr

theorem Safe.condition {condition : Condition}
    (ht : Safe E Store.Has p.store (· ∈ condition.parts) typeOf) (hwf : p.store.WellFormed)
    (hs : p.store.Holds scope.lookup?) :
    Ends E (fun _ _ => True) p (condition.eval typeOf scope) := by
  have hle := le_refl p.store
  have first {left right : NodeId} : left ∈ [left, right] := List.mem_cons_self
  have second {left right : NodeId} : right ∈ [left, right] := List.mem_cons_of_mem left List.mem_cons_self
  cases condition with
  | eq left right => exact ht.pair hwf hs first second fun l r p' hwf' _ _ => .pure hwf' trivial
  | sub lower upper =>
    refine ht.pair hwf hs first second fun l u p' hwf' hl hu => ?_
    obtain ⟨L, hL⟩ := hwf'.exists_reads l hl
    obtain ⟨U, hU⟩ := hwf'.exists_reads u hu
    obtain ⟨b, hb, -⟩ := hwf'.isSubtype_answers hL hU
    rw [← bind_pure (Eval.ask _)]
    exact .ask_bind hb (.pure hwf' trivial)
  | isTemplatized subject =>
    refine .bind (ht p scope subject hle hwf hs List.mem_cons_self) fun t p₁ _ hwf₁ ht' => ?_
    obtain ⟨T, hT⟩ := hwf₁.exists_reads t ht'
    obtain ⟨traits, htraits, -⟩ := hwf₁.reads_traits hT
    exact .ask_bind htraits (.pure hwf₁ trivial)
  | isUnknown subject =>
    refine .bind (ht p scope subject hle hwf hs List.mem_cons_self) fun t p₁ _ hwf₁ _ => ?_
    exact .pure hwf₁ trivial

end Rules

end Eval

namespace Context

variable {cx : Context} {scope : Scope} {root : NodeId} {s : Store} {e : EvalError}

/-- The error is that the limit is exceeded, or that some node that can be come to is not read as
what its position calls for. -/
def Stops (cx : Context) (root : NodeId) (e : Abort) : Prop :=
  e = .error (.depthExceeded cx.limit.max) ∨
    ∃ place id, cx.arena.Within cx.names root place id ∧ cx.arena.Refuses cx.names place id e

theorem typeAt_and_holdsAt_safe (hd : s.Holds cx.declared?) (root : NodeId) (room : Nat) :
    Eval.Safe (cx.Stops root) Store.Has s (cx.arena.Within cx.names root .type) (cx.typeAt room) ∧
      Eval.Safe (cx.Stops root) (fun _ _ => True) s (cx.arena.Within cx.names root .condition)
        (cx.holdsAt room) := by
  induction room with
  | zero =>
    exact ⟨fun _ _ _ _ _ _ _ => .throw (.inl rfl), fun _ _ _ _ _ _ _ => .throw (.inl rfl)⟩
  | succ room ih =>
    obtain ⟨iht, ihh⟩ := ih
    constructor
    · intro p scope id hle hwf hs hid
      refine .bind (.ofExcept hwf fun e he => .inr ⟨.type, id, hid, he⟩) fun op p₁ hle₁ hwf₁ hop => ?_
      -- What the operation goes on to is within reach because the node itself is.
      have hpart (place) (part) := @Arena.Within.operation _ _ root _ op place part hid
        (Arena.operation_iff.1 hop)
      have hle' := hle.trans hle₁
      exact Eval.Safe.operation (iht.later hle' (hpart .type)) (ihh.later hle' (hpart .condition))
        hwf₁ (hd.mono hle') (hs.mono hle₁)
    · intro p scope id hle hwf hs hid
      refine .bind (.ofExcept hwf fun e he => .inr ⟨.condition, id, hid, he⟩)
        fun condition p₁ hle₁ hwf₁ hcondition => ?_
      have hpart (part) := @Arena.Within.condition _ _ root _ condition part hid
        (Arena.condition_iff.1 hcondition)
      exact Eval.Safe.condition (iht.later (hle.trans hle₁) hpart) hwf₁ (hs.mono hle₁)

theorem evaluate_ends (hwf : s.WellFormed) (hd : s.Holds cx.declared?) (hs : s.Holds scope.lookup?)
    (root : NodeId) :
    match cx.evaluate scope root s with
    | (.ok e, s') => s'.Has e.type
    | (.error e, s') => cx.Stops root e ∨ e = .fault .storeFull ∧ Store.capacity ≤ s'.size := by
  have h := (typeAt_and_holdsAt_safe hd root (cx.limit.room 0)).1 ⟨s, []⟩ scope root (le_refl s) hwf
    hs .root
  unfold Eval.Ends at h
  unfold evaluate
  cases hr : cx.typeAt (cx.limit.room 0) scope root ⟨s, []⟩ with
  | ok t p =>
    rw [hr] at h
    exact h.2.2
  | error e p =>
    rw [hr] at h
    exact h

/-- An error other than that of the depth limit says what is wrong with a node that the evaluation
can come to, in the position in which it comes to it. -/
theorem evaluate_blames (h : s.Reachable) (hd : s.Holds cx.declared?) (hs : s.Holds scope.lookup?)
    (he : (cx.evaluate scope root s).1 = .error (.error e)) (hc : e.isContractViolation = true) :
    ∃ place id, cx.arena.Within cx.names root place id ∧ cx.arena.Defect cx.names place id e := by
  have hends := evaluate_ends h.wellFormed hd hs root
  generalize cx.evaluate scope root s = r at he hends
  obtain ⟨outcome, s'⟩ := r
  subst he
  rcases hends with (hlimit | ⟨place, id, hid, hrefuses⟩) | ⟨hfull, -⟩
  · cases hlimit
    cases hc
  · exact ⟨place, id, hid, hrefuses.defect⟩
  · cases hfull

/-- `union(x, mapunion(all(), (y) => templateTypeOf(y, 'k')))`. -/
def crooked : Context where
  names := .new .byScalars
  arena := ⟨#[.var ⟨0, 1⟩, .call ⟨9, 1⟩ ⟨0, 0⟩, .var ⟨0, 2⟩, .str ⟨0, 3⟩, .call ⟨3, 0⟩ ⟨0, 2⟩,
    .function ⟨0, 2⟩ ⟨4⟩, .call ⟨7, 0⟩ ⟨2, 2⟩, .call ⟨9, 0⟩ ⟨4, 2⟩], #[⟨2⟩, ⟨3⟩, ⟨1⟩, ⟨5⟩, ⟨0⟩, ⟨6⟩]⟩
  declared? _ := none
  limit := ⟨3⟩

theorem crooked_evaluate_blames :
    (crooked.evaluate .empty ⟨7⟩ .new).1 =
        .error (.error (.operandShape (.type .templateTypeOf) 2 .integerLiteral)) ∧
      ∃ place id, crooked.arena.Within crooked.names ⟨7⟩ place id ∧
        crooked.arena.Defect crooked.names place id
          (.operandShape (.type .templateTypeOf) 2 .integerLiteral) := by
  have he : (crooked.evaluate .empty ⟨7⟩ .new).1 =
      .error (.error (.operandShape (.type .templateTypeOf) 2 .integerLiteral)) := rfl
  exact ⟨he, evaluate_blames ⟨[], rfl⟩ nofun (Store.holds_empty _) he rfl⟩

/-- A foreign callee that is come to first is a fault, in whatever store. -/
theorem evaluate_of_foreign {callee : Name} (h : cx.arena.Foreign cx.names root callee)
    (hlimit : 0 < cx.limit.max) :
    cx.evaluate scope root s = (.error (.fault (.foreignName callee)), s) := by
  have hop : cx.arena.operation cx.names root = .error (.fault (.foreignName callee)) :=
    h.refuses .type
  obtain ⟨room, hroom⟩ : ∃ room, cx.limit.room 0 = room + 1 :=
    ⟨cx.limit.max - 1, (Nat.succ_pred_eq_of_pos hlimit).symm⟩
  unfold evaluate
  rw [hroom, typeAt, hop]
  rfl

/-- A call without operands of the name with the highest number. -/
def strange : Context :=
  ⟨.new .byScalars, ⟨#[.call (.ofRaw 0xFFFFFFFF) .empty], #[]⟩, fun _ => none, .standard⟩

theorem strange_closed : strange.arena.Closed := by
  refine ⟨?_, ?_⟩
  · rintro ⟨i⟩ callee range h
    match i with
    | 0 =>
      cases h
      exact ⟨[], rfl, List.forall_mem_nil _⟩
    | i + 1 => cases h
  · rintro ⟨i⟩ param body h
    match i with
    | 0 | i + 1 => cases h

/-- Nothing is amiss with the arena, yet the evaluation does not come to a type or an error. -/
theorem strange_evaluateGuarded_faults : strange.arena.Closed ∧ 0 < strange.arena.size ∧
    strange.evaluateGuarded 0x10000000000000000 .storeFull .empty ⟨0⟩ .new =
      (.error (.fault (.foreignName (.ofRaw 0xFFFFFFFF))), .new) := by
  have hword : strange.limit.max < 0x10000000000000000 := by decide
  have hforeign : strange.arena.Foreign strange.names ⟨0⟩ (.ofRaw 0xFFFFFFFF) := ⟨⟨_, rfl⟩, rfl⟩
  refine ⟨strange_closed, by decide, ?_⟩
  rw [evaluateGuarded_eq hword]
  exact evaluate_of_foreign hforeign (by decide)

end Context

end TypeCalculus
